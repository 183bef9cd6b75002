/-
Trailing separators.

* `Spells`: a source has the kinds and the texts of given tokens;
* `AcceptedAs`: a source is accepted with a tree that differs in its layout at most;
* `Vacancy`: a place where a list of a tree ends without a separator;
* `acceptedAs_leave_out`: a spare separator may be left out;
* `Vacancy.room`: there is room for one where a list ends without;
* `parseSource_trailing`: **trailing separators make no difference**.
-/
import ArrayExpr.Proofs.Parser.Acceptance
import ArrayExpr.Proofs.Reference.Separators
import ArrayExpr.Proofs.Reference.Shape
import ArrayExpr.Proofs.Scanner.Apart
import ArrayExpr.Proofs.Scanner.Covering

namespace ArrayExpr

open Grammar Reference

/-! ### Sources -/

/-- A source has the kinds and the texts of some tokens. -/
def Spells (source : String) (w : List Token) : Prop :=
  ∃ tokens, tokenize source = .ok tokens ∧ List.Forall₂ Token.Alike w tokens.items

/-- A source is accepted with a tree that equals a given one apart from the layout. -/
def AcceptedAs (limit : ℤ) (allowPartial : Bool) (source : String) (tree : Expr) : Prop :=
  ∃ tree', parseSource limit allowPartial source = .accepted tree' ∧ tree'.same tree = true

/-! ### Places behind a list -/

/-- The last of some tokens is the last of an expression. -/
def EndsWith (front : List Token) (e : Expr) : Prop :=
  front ≠ [] ∧ (extent front).stop = e.span.stop

/-- The first of some tokens is not of a kind. -/
def NotNext (kind : Kind) (back : List Token) : Prop := ∀ t ∈ back.head?, t.kind ≠ kind

/-- **A list of a tree ends without a separator of a kind** between two parts of the tokens:
a list of items behind its last item, or the rows of an array behind the last item of the
last row and the comma behind that, if there is one. -/
inductive Vacancy (tree : Expr) : Kind → List Token → List Token → Prop
  | item {n last : Expr} {items : List Expr} {front back : List Token} (hn : n ∈ tree.preorder)
      (hitems : items ∈ n.node.lists) (hlast : last ∈ items.getLast?)
      (hfront : EndsWith front last) (hcomma : NotNext .comma back) :
      Vacancy tree .comma front back
  | row {n last : Expr} {rows : List (List Expr)} {row : List Expr} {front back : List Token}
      (hn : n ∈ tree.preorder) (hrows : n.node = .array rows) (hrow : row ∈ rows.getLast?)
      (hlast : last ∈ row.getLast?) (hfront : EndsWith front last)
      (hcomma : NotNext .comma back) (hsemicolon : NotNext .semicolon back) :
      Vacancy tree .semicolon front back
  | rowComma {n last : Expr} {rows : List (List Expr)} {row : List Expr} {t : Token}
      {front back : List Token} (hn : n ∈ tree.preorder) (hrows : n.node = .array rows)
      (hrow : row ∈ rows.getLast?) (hlast : last ∈ row.getLast?) (hfront : EndsWith front last)
      (ht : t.kind = .comma) (hsemicolon : NotNext .semicolon back) :
      Vacancy tree .semicolon (front ++ [t]) back

variable {limit : ℤ} {n : ℕ} {allowPartial : Bool} {source : String} {tree last : Expr}
  {kind : Kind} {t next : Token} {u w w' rest front back behind y z : List Token}

/-! ### Steps with and without a separator -/

/-- **What the machine does with other tokens in the same way** is accepted as the same tree. -/
lemma acceptedAs_of_steps (hw : Within True limit.toNat .assignment w tree)
    (hsteps : ∀ q, Steps True limit.toNat .start w q → Steps True limit.toNat .start w' q)
    (hend : allowPartial = false → rest = []) (hrest : ∀ t ∈ rest.head?, t.kind.goesOn = false)
    (h : Spells source (w' ++ rest)) : AcceptedAs limit allowPartial source tree := by
  obtain ⟨tokens, ht, halike⟩ := h
  obtain ⟨v, ahead, hitems, hv, hahead⟩ : ∃ v ahead, tokens.items = v ++ ahead ∧
      List.Forall₂ Token.Alike w' v ∧ List.Forall₂ Token.Alike rest ahead := by
    have hflip := halike.flip
    exact ⟨_, _, (List.take_append_drop w'.length tokens.items).symm,
      (List.forall₂_take_append _ _ _ hflip).flip, (List.forall₂_drop_append _ _ _ hflip).flip⟩
  have htargets : tree.outline.TargetsValid :=
    (targetsValid_outline_iff tree).mpr (hw.2.targets trivial)
  obtain ⟨q, hq, hsentence⟩ := (exists_within_iff htargets).mp ⟨tree, hw, rfl⟩
  obtain ⟨tree', hw', houtline⟩ :=
    (exists_within_iff htargets).mpr ⟨q, (hsteps q hq).alike hv, hsentence⟩
  refine ⟨tree', (parseSource_accepted_iff_within ht _ _ _).mpr
    ⟨v, ahead, hitems, hw', fun hpartial => ?_, fun t ht => ?_⟩,
    decide_eq_true (shape_eq_of_outline_eq houtline)⟩
  · rw [hend hpartial] at hahead
    cases hahead
    rfl
  · cases hahead with
    | nil => cases ht
    | cons hab _ =>
        obtain rfl := Option.some.inj ht
        rw [← hab.kind]
        exact hrest _ rfl

/-- **A spare separator may be left out.** -/
lemma acceptedAs_leave_out (hw : Within True limit.toNat .assignment w tree)
    (hend : allowPartial = false → rest = []) (hrest : ∀ t ∈ rest.head?, t.kind.goesOn = false)
    (hitems : w ++ rest = front ++ t :: next :: back) (hs : t.kind.isSpare next.kind = true)
    (h : Spells source (front ++ next :: back)) : AcceptedAs limit allowPartial source tree := by
  obtain ⟨ht, hnext⟩ := endsItem_of_isSpare hs
  -- Behind the expression the token that the parse stops at stays one that does not go on.
  have hbehind : ∀ y, front = w ++ y → rest = y ++ t :: next :: back →
      AcceptedAs limit allowPartial source tree := by
    rintro y rfl rfl
    rw [List.append_assoc] at h
    refine acceptedAs_of_steps hw (fun _ => id) (fun hpartial => ?_) (fun s hs => ?_) h
    · simpa using hend hpartial
    · cases y with
      | nil =>
          obtain rfl := Option.some.inj hs
          rcases hnext with hk | hk | hk | hk <;> rw [hk] <;> rfl
      | cons s' y => exact hrest s hs
  rcases List.append_eq_append_iff.mp hitems with ⟨y, hfront, hy⟩ | ⟨y, rfl, hy⟩
  · exact hbehind y hfront hy
  rcases y with _ | ⟨t', _ | ⟨next', y⟩⟩
  · exact hbehind [] (by simp) hy.symm
  -- An expression does not end with a separator.
  · obtain ⟨rfl, -⟩ := List.cons.inj hy
    obtain ⟨u, s, hu, hleaves⟩ := hw.1.leaves
    obtain ⟨-, hst⟩ := List.append_inj' hu rfl
    obtain rfl := List.singleton_inj.mp hst
    simp only [Kind.isSpare, Bool.or_eq_true, Bool.and_eq_true, decide_eq_true_eq] at hs
    rcases hs with ⟨hk, -⟩ | ⟨hk, -⟩ <;> rw [hk] at hleaves <;> cases hleaves
  · simp only [List.cons_append, List.cons.injEq] at hy
    obtain ⟨rfl, rfl, rfl⟩ := hy
    refine acceptedAs_of_steps hw (fun q => Steps.leave_out hs) hend hrest ?_
    simpa using h

/-! ### Room for a separator -/

/-- The machine comes to the same states with a separator between two words. -/
def Room (n : ℕ) (kind : Kind) (front behind : List Token) : Prop :=
  ∀ t q, t.kind = kind → Steps True n .start (front ++ behind) q →
    Steps True n .start (front ++ t :: behind) q

/-- Phrases up to the last one, and a comma if there is one. -/
lemma Grammar.Listed.item_end {args : List Phrase} (hu : Listed .comma (args.map Phrase.tokens) u)
    (ha : ∀ a ∈ args, Derives .assignment a.tokens a.tree)
    (hlast : last ∈ (args.map Phrase.tree).getLast?) :
    ∃ v commas, u = v ++ commas ∧ Leaves v ∧ (∀ y, EndsWith (y ++ v) last) ∧
      (commas = [] ∧ (∀ t, t.kind = .comma → Listed .comma (args.map Phrase.tokens) (u ++ [t])) ∨
        ∃ t, commas = [t] ∧ t.kind = .comma) := by
  rw [List.getLast?_map] at hlast
  obtain ⟨a, hmem, rfl⟩ := Option.mem_map.mp hlast
  obtain ⟨before, rfl⟩ := List.getLast?_eq_some_iff.mp hmem
  have hd := ha a (by simp)
  have hends : ∀ y v, EndsWith (y ++ (v ++ a.tokens)) a.tree := fun y v =>
    ⟨by simp [hd.ne_nil], by rw [← List.append_assoc, extent_append_stop _ hd.ne_nil, hd.span_eq]⟩
  rw [List.map_append, List.map_singleton] at hu ⊢
  rcases hu.last_cases with ⟨v, rfl, hput⟩ | ⟨v, t, rfl, ht⟩
  · exact ⟨v ++ a.tokens, [], by simp, hd.leaves.prepend v, fun y => hends y v, .inl ⟨rfl, hput⟩⟩
  · exact ⟨v ++ a.tokens, [t], rfl, hd.leaves.prepend v, fun y => hends y v, .inr ⟨t, rfl, ht⟩⟩

/-- Behind the last phrase of a list there is a comma, or room for one. -/
lemma item_room_of_listed {args : List Phrase} {c : Token}
    (hu : Listed .comma (args.map Phrase.tokens) u)
    (ha : ∀ a ∈ args, Derives .assignment a.tokens a.tree)
    (hlast : last ∈ (args.map Phrase.tree).getLast?) (hw : w = y ++ (u ++ c :: z))
    (hroom : Leaves (y ++ u) →
      (∀ t, t.kind = .comma → Listed .comma (args.map Phrase.tokens) (u ++ [t])) →
        Room n .comma (y ++ u) (c :: z)) :
    ∃ front next behind, w = front ++ next :: behind ∧ EndsWith front last ∧
      (next.kind = .comma ∨ Room n .comma front (next :: behind)) := by
  obtain ⟨v, commas, rfl, hleaves, hends, ⟨rfl, hput⟩ | ⟨t, rfl, ht⟩⟩ := hu.item_end ha hlast
  · rw [List.append_nil] at hroom hput hw
    exact ⟨y ++ v, c, z, by simp [hw], hends y, .inr (hroom (hleaves.prepend y) hput)⟩
  · exact ⟨y ++ v, t, c :: z, by simp [hw], hends y, .inl ht⟩

/-- **Behind the last item of a list** there is a comma, or room for one. -/
lemma item_room {m : Node Literal Expr} {items : List Expr} (h : Lists w m)
    (hitems : items ∈ m.lists) (hlast : last ∈ items.getLast?) :
    ∃ front next behind, w = front ++ next :: behind ∧ EndsWith front last ∧
      (next.kind = .comma ∨ Room n .comma front (next :: behind)) := by
  cases h with
  | @call x u z o c callee args hx ho hc hu ha hw =>
      obtain rfl := List.mem_singleton.mp hitems
      obtain ⟨a, hmem, -⟩ := List.mem_map.mp (List.mem_of_getLast? hlast)
      have hargs := hu.listed (List.mem_map_of_mem hmem)
      refine item_room_of_listed hargs ha hlast (y := x ++ [o]) (c := c) (z := z) (by simp [hw])
        fun _ hput t q ht h => ?_
      have h' := Steps.put_comma_call hx ho ht hc (hput t ht) ha (by simpa using h)
      simpa using h'
  | @index x u z o c args hx ho hc hu ha hw =>
      obtain rfl := List.mem_singleton.mp hitems
      exact item_room_of_listed hu ha hlast (y := x ++ [o]) (c := c) (z := z) (by simp [hw])
        fun hleaves _ t q ht h => Steps.put_comma hleaves ht (.inl hc) h
  | @array x u z o c rows hx ho hc hu hr ha hw =>
      obtain ⟨r, hmem, rfl⟩ := List.mem_map.mp hitems
      have hrows := hu.listed (List.mem_map_of_mem hmem)
      obtain ⟨before, behind, rfl, -, hbehind⟩ := hrows.exists_around (List.mem_map_of_mem hmem)
      -- The row stands in front of the closing bracket or a semicolon.
      obtain ⟨s, y, hy, hs⟩ : ∃ s y, behind ++ c :: z = s :: y ∧
          (s.kind = .closeBracket ∨ s.kind = .semicolon) := by
        rcases hbehind with rfl | ⟨s, v, rfl, hs⟩
        · exact ⟨c, z, rfl, .inl hc⟩
        · exact ⟨s, v ++ c :: z, rfl, .inr hs⟩
      refine item_room_of_listed (hr r hmem) (ha r hmem) hlast (y := x ++ o :: before) (c := s)
        (z := y) ?_ fun hleaves _ t q ht h => Steps.put_comma hleaves ht hs h
      simp [hw, ← hy]
  | none h =>
      rw [h] at hitems
      cases hitems

/-- **Behind the last row of an array** there is a semicolon, or room for one. -/
lemma row_room {rows : List (List Expr)} {row : List Expr} (h : Lists w (.array rows))
    (hrow : row ∈ rows.getLast?) (hlast : last ∈ row.getLast?) :
    ∃ front commas next behind, w = front ++ (commas ++ next :: behind) ∧ EndsWith front last ∧
      (commas = [] ∨ ∃ t, commas = [t] ∧ t.kind = .comma) ∧
      (next.kind = .semicolon ∨
        next.kind = .closeBracket ∧ Room n .semicolon (front ++ commas) (next :: behind)) := by
  generalize hm : Node.array rows = m at h
  cases h with
  | @array x u z o c rows' hx ho hc hu hr ha hw =>
      obtain rfl := Node.array.inj hm
      rw [List.getLast?_map] at hrow
      obtain ⟨r, hmem, rfl⟩ := Option.mem_map.mp hrow
      obtain ⟨before, rfl⟩ := List.getLast?_eq_some_iff.mp hmem
      have hrmem : r ∈ before ++ [r] := by simp
      obtain ⟨v, commas, hv, -, hends, hcommas⟩ :=
        (hr r hrmem).item_end (ha r hrmem) hlast
      replace hcommas : commas = [] ∨ ∃ t, commas = [t] ∧ t.kind = .comma :=
        hcommas.imp_left And.left
      have hrows := hu.listed (List.mem_map_of_mem hrmem)
      rw [List.map_append, List.map_singleton] at hrows
      rcases hrows.last_cases with ⟨v', rfl, hput⟩ | ⟨v', s, rfl, hs⟩
      · refine ⟨x ++ o :: (v' ++ v), commas, c, z, by simp [hw, hv], ?_, hcommas, .inr ⟨hc, ?_⟩⟩
        · simpa using hends (x ++ o :: v')
        · intro t q ht h
          have hu' : Listed .semicolon ((before ++ [r]).map Row.tokens)
              (v' ++ r.tokens ++ [t]) := by
            rw [List.map_append, List.map_singleton]
            exact hput t ht
          have h' := Steps.put_semicolon hx ho ht hc hu' hr ha (by simpa [hv] using h)
          simpa [hv] using h'
      · refine ⟨x ++ o :: (v' ++ v), commas, s, c :: z, by simp [hw, hv], ?_, hcommas, .inl hs⟩
        simpa using hends (x ++ o :: v')
  | none h =>
      obtain rfl := hm
      rw [Node.lists] at h
      subst h
      cases hrow
  | call | index => cases hm

/-- **A list that ends without a separator has room for one.** -/
lemma Vacancy.room (hw : Derives .assignment w tree) (hs : Spread (w ++ rest))
    (hitems : w ++ rest = front ++ back) (h : Vacancy tree kind front back) :
    (kind = .comma ∨ kind = .semicolon) ∧ front ≠ [] ∧
      ∃ behind, w = front ++ behind ∧ back = behind ++ rest ∧ Room n kind front behind := by
  have hlists := hw.allLists
  -- An expression of the tree ends behind one token only.
  have hplace : ∀ {u v u' v' : List Token} {e : Expr}, w ++ rest = u ++ v → u ++ v = u' ++ v' →
      EndsWith u e → EndsWith u' e → u = u' ∧ v = v' := fun huv h hu hu' =>
    (huv ▸ hs).append_inj h hu.1 hu'.1 (hu.2.trans hu'.2.symm)
  cases h with
  | item hn hitem hlast hfront hcomma =>
      obtain ⟨u, c, z, rfl, hu, hroom⟩ := item_room (hlists _ hn) hitem hlast
      rw [List.append_assoc] at hitems
      obtain ⟨rfl, rfl⟩ := hplace (List.append_assoc ..) hitems hu hfront
      exact ⟨.inl rfl, hfront.1, _, rfl, rfl, hroom.resolve_left (hcomma c rfl)⟩
  | row hn hrows hrow hlast hfront hcomma hsemicolon =>
      obtain ⟨u, commas, c, z, rfl, hu, hcommas, hroom⟩ :=
        row_room (hrows ▸ hlists _ hn) hrow hlast
      rw [List.append_assoc] at hitems
      obtain ⟨rfl, rfl⟩ := hplace (List.append_assoc ..) hitems hu hfront
      rcases hcommas with rfl | ⟨t, rfl, ht⟩
      · rw [List.append_nil] at hroom
        exact ⟨.inr rfl, hfront.1, _, rfl, rfl, (hroom.resolve_left (hsemicolon c rfl)).2⟩
      · exact absurd ht (hcomma t rfl)
  | rowComma hn hrows hrow hlast hfront ht hsemicolon =>
      obtain ⟨u, commas, c, z, rfl, hu, hcommas, hroom⟩ :=
        row_room (hrows ▸ hlists _ hn) hrow hlast
      rw [List.append_assoc, List.append_assoc _ [_] back] at hitems
      obtain ⟨rfl, hback⟩ := hplace (List.append_assoc ..) hitems hu hfront
      rcases hcommas with rfl | ⟨t', rfl, ht'⟩
      · obtain ⟨rfl, -⟩ := List.cons.inj hback
        rw [ht] at hroom
        simp at hroom
      · simp only [List.cons_append, List.nil_append, List.cons.injEq] at hback
        obtain ⟨rfl, rfl⟩ := hback
        exact ⟨.inr rfl, by simp, c :: z, by simp, rfl, (hroom.resolve_left (hsemicolon c rfl)).2⟩

/-! ### Trailing separators -/

/-- **Trailing separators make no difference.** An accepted source is accepted as the same
tree without a comma in front of `)`, `]` or `;` and without a semicolon in front of `]`.
Every list of its tree that is not empty ends behind a token, and with a comma or a semicolon
where one ends without, the source is accepted as the same tree, too: this holds of every
source with these tokens, and of the source itself with the separator put in. -/
theorem parseSource_trailing {tokens : Tokens} (ht : tokenize source = .ok tokens)
    (h : parseSource limit allowPartial source = .accepted tree) :
    (∀ front t next back source', tokens.items = front ++ t :: next :: back →
      t.kind.isSpare next.kind = true → Spells source' (front ++ next :: back) →
        AcceptedAs limit allowPartial source' tree) ∧
      (∀ n ∈ tree.preorder, ∀ items ∈ n.node.lists, ∀ last ∈ items.getLast?,
        ∃ front back, tokens.items = front ++ back ∧ EndsWith front last) ∧
      ∀ kind front back, tokens.items = front ++ back → Vacancy tree kind front back →
        (∀ t source', t.kind = kind → Spells source' (front ++ t :: back) →
          AcceptedAs limit allowPartial source' tree) ∧
          AcceptedAs limit allowPartial
            (putIn source (extent front).stop kind.separatorCharacter) tree := by
  obtain ⟨w, rest, hitems, hw, hend, hrest⟩ :=
    (parseSource_accepted_iff_within ht limit allowPartial tree).mp h
  refine ⟨fun front t next back source' hat hs => ?_, fun n hn items hlist last hlast => ?_,
    fun kind front back hat hplace => ?_⟩
  · exact acceptedAs_leave_out hw hend hrest (hitems.symm.trans hat) hs
  · obtain ⟨front, next, behind, rfl, hfront, -⟩ :=
      item_room (n := limit.toNat) (hw.1.allLists n hn) hlist hlast
    exact ⟨front, next :: behind ++ rest, by rw [hitems, List.append_assoc], hfront⟩
  · obtain ⟨hkind, hfront, behind, rfl, rfl, hroom⟩ := hplace.room hw.1
      (hitems ▸ tokenize_spread ht) (hitems.symm.trans hat)
    have hput : ∀ t source', t.kind = kind → Spells source' (front ++ t :: (behind ++ rest)) →
        AcceptedAs limit allowPartial source' tree := fun t source' hk hspells => by
      refine acceptedAs_of_steps hw (fun q => hroom t q hk) hend hrest ?_
      simpa using hspells
    obtain ⟨t, tokens', hk, ht', halike⟩ := tokenize_putIn ht hat hfront hkind
    exact ⟨hput, hput t _ hk ⟨tokens', ht', halike⟩⟩

/-- The theorem at the source `[x,]`, without its comma and with a semicolon more. -/
theorem parseSource_trailing_array :
    ∃ tree, parseSource 1 false "[x,]" = .accepted tree ∧ AcceptedAs 1 false "[x]" tree ∧
      AcceptedAs 1 false "[x,;]" tree := by
  have ht : tokenize "[x,]" = .ok ⟨[⟨.openBracket, some "[", ⟨0, 1, 1⟩, 1⟩,
      ⟨.name, some "x", ⟨1, 1, 2⟩, 2⟩] ++ [⟨.comma, some ",", ⟨2, 1, 3⟩, 3⟩,
      ⟨.closeBracket, some "]", ⟨3, 1, 4⟩, 4⟩], ⟨.finish, none, ⟨4, 1, 5⟩, 4⟩⟩ := rfl
  have h : parseSource 1 false "[x,]" =
      .accepted ⟨.array [[⟨.name "x", ⟨1, 2⟩⟩]], ⟨0, 4⟩⟩ := by
    rw [parseSource, parseTokens, ht]
    cbv
  obtain ⟨hless, -, hmore⟩ := parseSource_trailing ht h
  have hspells : Spells "[x]" [⟨.openBracket, some "[", ⟨0, 1, 1⟩, 1⟩,
      ⟨.name, some "x", ⟨1, 1, 2⟩, 2⟩, ⟨.closeBracket, some "]", ⟨3, 1, 4⟩, 4⟩] :=
    ⟨_, rfl, .cons ⟨rfl, rfl⟩ (.cons ⟨rfl, rfl⟩ (.cons ⟨rfl, rfl⟩ .nil))⟩
  have hend : EndsWith [⟨.openBracket, some "[", ⟨0, 1, 1⟩, 1⟩, ⟨.name, some "x", ⟨1, 1, 2⟩, 2⟩]
      ⟨.name "x", ⟨1, 2⟩⟩ := ⟨List.cons_ne_nil _ _, rfl⟩
  have hnext : NotNext .semicolon [⟨.closeBracket, some "]", ⟨3, 1, 4⟩, 4⟩] := by
    rintro t ⟨⟩ ⟨⟩
  have hplace : Vacancy ⟨.array [[⟨.name "x", ⟨1, 2⟩⟩]], ⟨0, 4⟩⟩ .semicolon
      (_ ++ [⟨.comma, some ",", ⟨2, 1, 3⟩, 3⟩]) _ :=
    .rowComma (Tree.mem_preorder_iff.mpr (.inl rfl)) rfl rfl rfl hend rfl hnext
  have hput : putIn "[x,]" 3 ';' = "[x,;]" := rfl
  exact ⟨_, h, hless [_, _] _ _ [] "[x]" rfl rfl hspells,
    hput ▸ (hmore _ (_ ++ [_]) [_] rfl hplace).2⟩

end ArrayExpr
