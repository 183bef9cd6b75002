/-
Neighbours among the tokens of a derivation.

* `pairs`: the neighbours in a list; `pairs_append`: those of two lists in a row;
* `Derives.leads`, `Derives.leaves`: no list of items ends in front of a derivation, and
  its last token ends an operand;
* `Expr.opens`: a token opens the arguments of a call or the rows of an array of a tree;
* `Derives.atOnce`: **a bracket that is closed at once does so**; any other bracket holds
  an expression.
-/
import ArrayExpr.Proofs.Grammar.Spread
import ArrayExpr.Proofs.Grammar.Subtrees
import ArrayExpr.Proofs.Grammar.Unrolled

namespace ArrayExpr

/-! ### Neighbours -/

/-- The neighbours in a list. -/
def pairs {α : Type} (w : List α) : List (α × α) := w.zip w.tail

section Pairs

variable {α : Type}

@[simp] lemma pairs_nil : pairs ([] : List α) = [] := rfl

@[simp] lemma pairs_singleton (a : α) : pairs [a] = [] := rfl

@[simp] lemma pairs_cons_cons (a b : α) (w : List α) :
    pairs (a :: b :: w) = (a, b) :: pairs (b :: w) := rfl

/-- Where two lists meet there may be one pair more. -/
lemma pairs_append (v w : List α) :
    pairs (v ++ w) = pairs v ++ (v.getLast?.toList.zip w.head?.toList ++ pairs w) := by
  induction v with
  | nil => rfl
  | cons a v ih =>
      cases v with
      | nil => cases w <;> rfl
      | cons b v =>
          rw [List.cons_append, List.cons_append, pairs_cons_cons, ← List.cons_append, ih,
            pairs_cons_cons, List.getLast?_cons_cons]
          rfl

end Pairs

/-! ### First and last tokens -/

/-- What a list of items may end in front of. -/
def Kind.endsItems : Kind → Bool
  | closeParen | closeBracket | semicolon => true
  | _ => false

/-- What an item of a list may stand behind. -/
def Kind.beforeItem : Kind → Bool
  | comma | semicolon | openParen | openBracket => true
  | _ => false

/-- What an operand ends with. -/
def Kind.endsOperand : Kind → Bool
  | literal _ | name | closeParen | closeBracket => true
  | _ => false

lemma Kind.beforeItem_of_endsOperand {kind : Kind} (h : kind.endsOperand = true) :
    kind.beforeItem = false := by
  cases kind <;> simp_all [Kind.endsOperand, Kind.beforeItem]

lemma Kind.isOpening_of_endsOperand {kind : Kind} (h : kind.endsOperand = true) :
    kind.isOpening = false := by
  cases kind <;> simp_all [Kind.endsOperand, Kind.isOpening]

namespace Grammar

variable {l : Level} {u v w : List Token} {t o c : Token} {e : Expr}

/-- No list of items ends in front of a word. -/
def Leads (w : List Token) : Prop := ∃ t u, w = t :: u ∧ t.kind.endsItems = false

/-- The last token of a word ends an operand. -/
def Leaves (w : List Token) : Prop := ∃ u t, w = u ++ [t] ∧ t.kind.endsOperand = true

lemma Leads.append (h : Leads v) (w : List Token) : Leads (v ++ w) := by
  obtain ⟨t, u, rfl, ht⟩ := h
  exact ⟨t, u ++ w, rfl, ht⟩

lemma Leaves.prepend (h : Leaves w) (v : List Token) : Leaves (v ++ w) := by
  obtain ⟨u, t, rfl, ht⟩ := h
  exact ⟨v ++ u, t, (List.append_assoc _ _ _).symm, ht⟩

lemma leads_of_kind {kind : Kind} (ht : t.kind = kind) (h : kind.endsItems = false) :
    Leads (t :: w) := ⟨t, w, rfl, by rw [ht, h]⟩

/-- A derivation begins with an operand. -/
lemma Derives.leads (h : Derives l w e) : Leads w := by
  induction h with
  | value _ ih | comparand _ ih | term _ ih | factor _ ih | unsigned _ ih | bare _ ih => exact ih
  | assign _ _ _ ihv _ | compare _ _ _ _ ihv _ | add _ _ _ ihv _ | multiply _ _ _ ihv _
  | call _ _ _ _ _ ihv _ | index _ _ _ _ _ ihv _ | field _ _ _ ihv => exact ihv.append _
  | negate ht _ _ | literal ht | name ht | group ht _ _ _ | array ht _ _ _ _ _ =>
      exact leads_of_kind ht rfl

/-- A derivation ends with an operand. -/
lemma Derives.leaves (h : Derives l w e) : Leaves w := by
  induction h with
  | value _ ih | comparand _ ih | term _ ih | factor _ ih | unsigned _ ih | bare _ ih => exact ih
  | assign _ _ _ _ ihw | add _ _ _ _ ihw | multiply _ _ _ _ ihw =>
      exact (ihw.prepend [_]).prepend _
  | negate _ _ ihw => exact ihw.prepend [_]
  | @compare w first links _ hne _ _ _ ihl =>
      obtain ⟨before, x, rfl⟩ := (List.eq_nil_or_concat' links).resolve_left hne
      rw [List.flatMap_append, List.flatMap_singleton, Link.tokens]
      exact (((ihl x (by simp)).prepend [_]).prepend _).prepend w
  | call _ _ hc _ _ _ _ | index _ _ hc _ _ _ _ =>
      exact ⟨_, _, (List.append_assoc _ _ _).symm, by rw [hc]; rfl⟩
  | field _ _ ht _ =>
      exact ⟨_, _, by rw [← List.singleton_append, ← List.append_assoc], by rw [ht]; rfl⟩
  | literal ht | name ht => exact ⟨[], _, rfl, by rw [ht]; rfl⟩
  | group _ hc _ _ | array _ hc _ _ _ _ => exact ⟨_, _, rfl, by rw [hc]; rfl⟩

/-! ### Brackets closed at once -/

/-- A bracket of a word that is followed by the end of a list is one of `P`. -/
def AtOnce (P : Token → Prop) (w : List Token) : Prop :=
  ∀ q ∈ pairs w, q.1.kind.isOpening = true → q.2.kind.endsItems = true → P q.1

/-- A word that may stand between others: no list ends in front of it, and it does not end
with an opening bracket. -/
structure Piece (P : Token → Prop) (w : List Token) : Prop where
  leads : Leads w
  last : ∃ u t, w = u ++ [t] ∧ t.kind.isOpening = false
  atOnce : AtOnce P w

section AtOnce

variable {P Q : Token → Prop} {ws : List (List Token)} {separator : Kind}

lemma AtOnce.mono (h : AtOnce P w) (hPQ : ∀ t, P t → Q t) : AtOnce Q w :=
  fun q hq ho he => hPQ _ (h q hq ho he)

lemma atOnce_singleton (t : Token) : AtOnce P [t] := by simp [AtOnce]

/-- Where two words meet, a bracket may be closed at once. -/
private lemma AtOnce.append_of_meet (hv : AtOnce P v) (hw : AtOnce P w)
    (hmeet : ∀ a ∈ v.getLast?, ∀ b ∈ w.head?, a.kind.isOpening = true →
      b.kind.endsItems = true → P a) : AtOnce P (v ++ w) := by
  intro q hq ho he
  rw [pairs_append, List.mem_append, List.mem_append] at hq
  rcases hq with hq | hq | hq
  · exact hv q hq ho he
  · obtain ⟨ha, hb⟩ := List.of_mem_zip hq
    exact hmeet q.1 (by simpa using ha) q.2 (by simpa using hb) ho he
  · exact hw q hq ho he

/-- In front of a word that no list ends in front of, no bracket is closed. -/
lemma AtOnce.append (hv : AtOnce P v) (hw : AtOnce P w) (h : Leads w) : AtOnce P (v ++ w) := by
  refine hv.append_of_meet hw fun a _ b hb _ he => ?_
  obtain ⟨t, u, rfl, ht⟩ := h
  obtain rfl := Option.some.inj (Option.mem_def.mp hb)
  rw [ht] at he
  cases he

/-- Behind a word that does not end with a bracket none is closed. -/
lemma Piece.append (hv : Piece P v) (hw : AtOnce P w) : AtOnce P (v ++ w) := by
  refine hv.atOnce.append_of_meet hw fun a ha b _ ho _ => ?_
  obtain ⟨u, t, rfl, ht⟩ := hv.last
  obtain rfl : t = a := by simpa using ha
  rw [ht] at ho
  cases ho

/-- Words with separators between them. -/
lemma Listed.piece (h : Listed separator ws u) (hsep : separator.isOpening = false)
    (hws : ∀ w ∈ ws, Piece P w) : Piece P u := by
  induction h with
  | last w => exact hws w (by simp)
  | @trailing w t ht =>
      have hw := hws w (by simp)
      exact ⟨hw.leads.append _, ⟨w, t, rfl, by rw [ht, hsep]⟩, hw.append (atOnce_singleton t)⟩
  | @more w t ht ws u _ ih =>
      obtain ⟨hw, hws⟩ := List.forall_mem_cons.mp hws
      have hu := ih hws
      obtain ⟨v, b, hvb, hb⟩ := hu.last
      refine ⟨hw.leads.append _, ⟨w ++ t :: v, b, by simp [hvb], hb⟩, hw.append ?_⟩
      exact (atOnce_singleton t).append hu.atOnce hu.leads

/-- A bracket in which nothing stands is closed at once, and no other one. -/
lemma atOnce_bracket (hu : u = [] ∧ P o ∨ Piece P u) : AtOnce P (o :: u ++ [c]) := by
  rcases hu with ⟨rfl, ho⟩ | hu
  · intro q hq _ _
    obtain rfl := List.mem_singleton.mp hq
    exact ho
  · rw [List.cons_append]
    exact (atOnce_singleton o).append (hu.append (atOnce_singleton c)) (hu.leads.append _)

/-- Words with an operator between them. -/
lemma AtOnce.between (hv : AtOnce P v) (hw : AtOnce P w) (ht : t.kind.endsItems = false)
    (h : Leads w) : AtOnce P (v ++ t :: w) :=
  hv.append ((atOnce_singleton t).append hw h) ⟨t, w, rfl, ht⟩

/-- Words in a row behind a word. -/
lemma AtOnce.append_flatMap {α : Type} {words : α → List Token} {xs : List α} (hv : AtOnce P v)
    (h : ∀ x ∈ xs, AtOnce P (words x) ∧ Leads (words x)) : AtOnce P (v ++ xs.flatMap words) := by
  induction xs generalizing v with
  | nil => simpa using hv
  | cons x xs ih =>
      obtain ⟨⟨hx, hlead⟩, hxs⟩ := List.forall_mem_cons.mp h
      rw [List.flatMap_cons, ← List.append_assoc]
      exact ih (hv.append hx hlead) hxs

end AtOnce

end Grammar

/-! ### Brackets of calls and arrays -/

/-- A token stands in a tree and in none of its children. -/
def Expr.holds (e : Expr) (t : Token) : Bool :=
  e.span.covers t.span && !e.children.any (·.span.covers t.span)

/-- A token is the bracket that opens the arguments of a call or the rows of an array. -/
def Expr.isBracket (e : Expr) (t : Token) : Bool :=
  match e.node with
  | .call _ _ => t.kind = .openParen
  | .array _ => t.kind = .openBracket
  | _ => false

/-- A token opens the arguments of a call or the rows of an array of a tree. -/
def Expr.opens (tree : Expr) (t : Token) : Bool :=
  tree.preorder.any fun (e : Expr) => e.holds t && e.isBracket t

namespace Grammar

variable {l : Level} {u v w : List Token} {t o c : Token} {e child base step : Expr}

/-- What opens in a child opens in the tree. -/
lemma opens_of_child (hc : child ∈ e.children) (h : child.opens t = true) : e.opens t = true := by
  obtain ⟨n, hn, h⟩ := List.any_eq_true.mp h
  exact List.any_eq_true.mpr ⟨n, Tree.mem_preorder_iff.mpr (.inr ⟨child, hc, hn⟩), h⟩

lemma opens_self (hholds : e.holds t = true) (hkind : e.isBracket t = true) :
    e.opens t = true :=
  List.any_eq_true.mpr ⟨e, Tree.mem_preorder_iff.mpr (.inl rfl), by rw [hholds, hkind]; rfl⟩

/-- An access opens nothing itself, so that nothing is lost where it gets a step more. -/
lemma opens_withStep (h : base.opens t = true) : (withStep w base step).opens t = true := by
  obtain hchildren | ⟨⟨inner, steps, hnode⟩, hchildren⟩ := children_withStep w base step
  · exact opens_of_child (by simp [hchildren]) h
  · obtain ⟨n, hn, hopens⟩ := List.any_eq_true.mp h
    rcases Tree.mem_preorder_iff.mp hn with rfl | ⟨child, hchild, hn⟩
    · simp [Expr.isBracket, hnode] at hopens
    · have hopens : Expr.opens child t = true := List.any_eq_true.mpr ⟨n, hn, hopens⟩
      exact opens_of_child (by simp [hchildren, hchild]) hopens

lemma opens_step (h : step.opens t = true) : (withStep w base step).opens t = true := by
  obtain hchildren | ⟨-, hchildren⟩ := children_withStep w base step <;>
    exact opens_of_child (by simp [hchildren]) h

/-- What stands in a bracket, under a tree that has it for children. -/
lemma piece_phrases {args : List Phrase} (hs : Spread u)
    (hu : Listed .comma (args.map Phrase.tokens) u)
    (ha : ∀ a ∈ args, Derives .assignment a.tokens a.tree)
    (iha : ∀ a ∈ args, Spread a.tokens → AtOnce (a.tree.opens · = true) a.tokens)
    (hchild : ∀ a ∈ args, a.tree ∈ e.children) : Piece (e.opens · = true) u := by
  refine hu.piece rfl fun x hx => ?_
  obtain ⟨a, hmem, rfl⟩ := List.mem_map.mp hx
  obtain ⟨v, t, hvt, ht⟩ := (ha a hmem).leaves
  have hspread := hs.sublist (hu.infix_of_mem hx).sublist
  exact ⟨(ha a hmem).leads, ⟨v, t, hvt, Kind.isOpening_of_endsOperand ht⟩,
    (iha a hmem hspread).mono fun t => opens_of_child (hchild a hmem)⟩

/-- Two trees with a token between them. -/
lemma atOnce_sides {left right : Expr} (hs : Spread (v ++ t :: w))
    (hv : Spread v → AtOnce (left.opens · = true) v)
    (hw : Spread w → AtOnce (right.opens · = true) w) (hchildren : e.children = [left, right])
    (ht : t.kind.endsItems = false) (h : Leads w) : AtOnce (e.opens · = true) (v ++ t :: w) := by
  have hleft := hv (hs.sublist (List.sublist_append_left _ _))
  have hright := hw <| hs.sublist <|
    (List.sublist_cons_self t w).trans (List.sublist_append_right _ _)
  exact (hleft.mono fun t => opens_of_child (by simp [hchildren])).between
    (hright.mono fun t => opens_of_child (by simp [hchildren])) ht h

/-- **A bracket that is closed at once** opens the arguments of a call or the rows of an
array. -/
theorem Derives.atOnce (h : Derives l w e) (hs : Spread w) : AtOnce (e.opens · = true) w := by
  induction h with
  | value _ ih | comparand _ ih | term _ ih | factor _ ih | unsigned _ ih | bare _ ih =>
      exact ih hs
  | assign _ ht hw ihv ihw => exact atOnce_sides hs ihv ihw rfl (by rw [ht]; rfl) hw.leads
  | add _ ht hw ihv ihw => exact atOnce_sides hs ihv ihw rfl (by rw [ht.1]; rfl) hw.leads
  | multiply _ ht hw ihv ihw => exact atOnce_sides hs ihv ihw rfl (by rw [ht.1]; rfl) hw.leads
  | @compare w first links _ _ hop hl ihw ihl =>
      have hfirst := ihw (hs.sublist (List.sublist_append_left _ _))
      refine (hfirst.mono fun t => opens_of_child List.mem_cons_self).append_flatMap fun x hx => ?_
      have hlink : x.tokens <:+: links.flatMap Link.tokens :=
        List.infix_of_mem_flatten (List.mem_map_of_mem hx)
      have hx' : x.right.tokens.Sublist (w ++ links.flatMap Link.tokens) :=
        (List.sublist_cons_self x.token _).trans
          (hlink.sublist.trans (List.sublist_append_right _ _))
      have hchild : x.right.tree ∈ first :: (links.map Link.side).map (·.2) :=
        List.mem_cons_of_mem _ (List.mem_map.mpr ⟨x.side, List.mem_map_of_mem hx, rfl⟩)
      have hright := (ihl x hx (hs.sublist hx')).mono fun t => opens_of_child
        (e := node (w ++ links.flatMap Link.tokens) (.comparison first (links.map Link.side)))
        hchild
      exact ⟨(atOnce_singleton x.token).append hright (hl x hx).leads,
        leads_of_kind (hop x hx) rfl⟩
  | @negate t w e ht hw ih =>
      have hinner := ih (hs.sublist (List.sublist_cons_self t w))
      exact (atOnce_singleton t).append
        (hinner.mono fun t => opens_of_child List.mem_cons_self) hw.leads
  | @call v u o c callee args hv ho hc hu ha ihv iha =>
      have hcallee := ihv (hs.sublist (List.sublist_append_left _ _))
      have hu' : u.Sublist (v ++ (o :: u ++ [c])) :=
        (infix_bracket o c u).sublist.trans (List.sublist_append_right _ _)
      refine (hcallee.mono fun t => opens_of_child List.mem_cons_self).append
        (atOnce_bracket ?_) (leads_of_kind ho rfl)
      rcases hu with ⟨hargs, rfl⟩ | hu
      · obtain rfl := List.map_eq_nil_iff.mp hargs
        refine .inl ⟨rfl, opens_self ?_ (by simp [Expr.isBracket, node, ho])⟩
        have hown := hs.covers (t := o) (by simp)
        have hcallee : callee.span.covers o.span = false :=
          hv.span_eq ▸ Spread.not_covers (w := [c]) hs hv.ne_nil
        simp [Expr.holds, Tree.children, Node.children, node, hcallee] at hown ⊢
        exact hown
      · exact .inr (piece_phrases (hs.sublist hu') hu ha iha fun a h =>
          List.mem_cons_of_mem _ (List.mem_map_of_mem h))
  | @index v u o c base args hv ho hc hu ha ihv iha =>
      have hbase := ihv (hs.sublist (List.sublist_append_left _ _))
      have hu' : u.Sublist (v ++ (o :: u ++ [c])) :=
        (infix_bracket o c u).sublist.trans (List.sublist_append_right _ _)
      have hpiece := piece_phrases (e := node (o :: u ++ [c]) (.index (args.map Phrase.tree)))
        (hs.sublist hu') hu ha iha fun a h => List.mem_map_of_mem h
      exact (hbase.mono fun t => opens_withStep).append
        ((atOnce_bracket (.inr hpiece)).mono fun t => opens_step) (leads_of_kind ho rfl)
  | @field v d t base hv hd ht ihv =>
      have hbase := ihv (hs.sublist (List.sublist_append_left _ _))
      have hname : ∀ P, AtOnce P [d, t] := by
        intro P q hq ho _
        obtain rfl := List.mem_singleton.mp hq
        simp [Kind.isOpening, hd] at ho
      exact (hbase.mono fun t => opens_withStep).append (hname _) (leads_of_kind hd rfl)
  | literal | name => exact atOnce_singleton _
  | @group u o c inner ho hc hu ih =>
      have hinner := ih (hs.sublist (infix_bracket o c u).sublist)
      obtain ⟨v, t, rfl, ht⟩ := hu.leaves
      exact atOnce_bracket (.inr ⟨hu.leads, ⟨v, t, rfl, Kind.isOpening_of_endsOperand ht⟩,
        hinner.mono fun t => opens_of_child List.mem_cons_self⟩)
  | @array u o c rows ho hc hu hr ha iha =>
      refine atOnce_bracket ?_
      rcases hu with ⟨hrows, rfl⟩ | hu
      · obtain rfl := List.map_eq_nil_iff.mp hrows
        refine .inl ⟨rfl, opens_self ?_ (by simp [Expr.isBracket, node, ho])⟩
        have hown := hs.covers (t := o) (by simp)
        simp [Expr.holds, Tree.children, Node.children, node] at hown ⊢
        exact hown
      · refine .inr (hu.piece rfl fun x hx => ?_)
        obtain ⟨r, hmem, rfl⟩ := List.mem_map.mp hx
        have hrow := (hu.infix_of_mem hx).trans (infix_bracket o c u)
        exact piece_phrases (hs.sublist hrow.sublist) (hr r hmem) (ha r hmem) (iha r hmem)
          fun a h => List.mem_flatten.mpr ⟨r.trees, List.mem_map_of_mem hmem,
            List.mem_map_of_mem h⟩

end Grammar

end ArrayExpr
