/-
What a parse asks of a derivation beyond the grammar.

* `IsTarget`: what may stand on the left of `=`, and `isAssignable_iff`: the
  test for it;
* `TargetsValid`: every `=` of a tree has a target on its left;
* `Token.IsLongInteger`: an integer of too many digits;
* `Grammar.Fits`: targets, open brackets and integers together, with what the
  conditions say of each form of tree in terms of its parts.
-/
import ArrayExpr.Proofs.Expr.Preorder
import ArrayExpr.Proofs.Grammar.Bracket

namespace ArrayExpr

variable {ν σ : Type}

/-! ### Targets -/

/-- What may stand on the left of `=`: a name, an access, a target in
parentheses, or an array of one row of targets. -/
inductive IsTarget : Tree ν σ → Prop
  | name {s : String} {span : σ} : IsTarget ⟨.name s, span⟩
  | access {base : Tree ν σ} {steps : List (Tree ν σ)} {span : σ} :
      IsTarget ⟨.access base steps, span⟩
  | group {inner : Tree ν σ} {span : σ} (h : IsTarget inner) : IsTarget ⟨.group inner, span⟩
  | array {row : List (Tree ν σ)} {span : σ} (h : ∀ e ∈ row, IsTarget e) :
      IsTarget ⟨.array [row], span⟩

/-- The test for targets looks at the node and the tests of its children. -/
lemma Tree.isAssignable_eq (t : Tree ν σ) :
    t.isAssignable = (t.node.map id isAssignable).isAssignable := by
  conv => lhs; unfold isAssignable
  rw [fold_eq]
  rfl

/-- The test for targets is right. -/
lemma isAssignable_iff (t : Tree ν σ) : t.isAssignable = true ↔ IsTarget t := by
  induction t using Tree.induction_children with
  | step t ih =>
      rcases t with ⟨node, span⟩
      rw [Tree.isAssignable_eq]
      cases node with
      | name s => exact ⟨fun _ => .name, fun _ => rfl⟩
      | access base steps => exact ⟨fun _ => .access, fun _ => rfl⟩
      | group inner =>
          have h := ih inner (by simp [Tree.children, Node.children])
          refine ⟨fun ht => .group (h.mp ht), fun ht => ?_⟩
          cases ht with
          | group ht => exact h.mpr ht
      | array rows =>
          rcases rows with _ | ⟨row, _ | ⟨next, rows⟩⟩
          · refine ⟨fun ht => ?_, fun ht => by cases ht⟩
            simp [Node.map, Node.isAssignable] at ht
          · have h : ∀ e ∈ row, (e.isAssignable = true ↔ IsTarget e) := fun e he =>
              ih e (by simpa [Tree.children, Node.children] using he)
            simp only [Node.map, Node.isAssignable, List.map_cons, List.map_nil, List.all_map,
              Function.id_comp, List.all_eq_true]
            refine ⟨fun ht => .array fun e he => (h e he).mp (ht e he), fun ht => ?_⟩
            cases ht with
            | array ht => exact fun e he => (h e he).mpr (ht e he)
          · exact ⟨fun ht => by simp [Node.map, Node.isAssignable] at ht, fun ht => by cases ht⟩
      | _ => exact ⟨fun ht => by simp [Node.map, Node.isAssignable] at ht, fun ht => by cases ht⟩

/-- Every `=` in a tree has a target on its left. -/
def TargetsValid (t : Tree ν σ) : Prop :=
  ∀ n ∈ t.preorder, ∀ target value, n.node = .assign target value → IsTarget target

/-- The targets of a tree are those of its children, and its own. -/
lemma targetsValid_iff (t : Tree ν σ) :
    TargetsValid t ↔ (∀ target value, t.node = .assign target value → IsTarget target) ∧
      ∀ c ∈ t.children, TargetsValid c := by
  simp only [TargetsValid]
  rw [Tree.preorder_eq]
  simp only [List.forall_mem_cons, List.mem_flatMap, forall_exists_index, and_imp]
  exact and_congr_right fun _ => ⟨fun h c hc n hn => h n c hc hn, fun h n c hc hn => h c hc n hn⟩

/-! ### Long integers -/

/-- An integer of more digits than are read: a number without a point and an
exponent. -/
def Token.IsLongInteger (t : Token) : Prop :=
  t.kind = .literal .number ∧
    (∀ c ∈ (t.text.getD "").toList, c ≠ '.' ∧ c ≠ 'e' ∧ c ≠ 'E') ∧
    4300 < (t.text.getD "").length

instance (t : Token) : Decidable t.IsLongInteger :=
  -- Named, since a decision may also go through all characters there are.
  letI := List.decidableBAll (fun c => c ≠ '.' ∧ c ≠ 'e' ∧ c ≠ 'E') (t.text.getD "").toList
  inferInstanceAs (Decidable (t.kind = .literal .number ∧
    (∀ c ∈ (t.text.getD "").toList, c ≠ '.' ∧ c ≠ 'e' ∧ c ≠ 'E') ∧
    4300 < (t.text.getD "").length))

/-- A literal is refused exactly if it is a long integer. -/
lemma overlong?_eq_none_iff {t : Token} {kind : LiteralKind} (ht : t.kind = .literal kind) :
    Literal.overlong? ⟨kind, t.text.getD ""⟩ = none ↔ ¬ t.IsLongInteger := by
  have hint : Literal.isInteger (t.text.getD "").toList = true ↔
      ∀ c ∈ (t.text.getD "").toList, c ≠ '.' ∧ c ≠ 'e' ∧ c ≠ 'E' := by
    simp only [Literal.isInteger, Bool.not_eq_true', List.any_eq_false, Bool.or_eq_true,
      decide_eq_true_eq, not_or, and_assoc, ne_eq]
  have hlong : 4300 < (t.text.getD "").length ↔ maxDigits < (t.text.getD "").length := Iff.rfl
  rw [Literal.overlong?, Token.IsLongInteger, ht, Kind.literal.injEq, ← hint, hlong]
  by_cases h1 : kind = .number <;> by_cases h2 : Literal.isInteger (t.text.getD "").toList <;>
    by_cases h3 : maxDigits < (t.text.getD "").length <;> simp [h1, h2, h3]

namespace Grammar

variable {strict : Prop} {n : ℕ} {t o c : Token} {u v w : List Token} {ws : List (List Token)}
  {e : Expr}

/-- No more than `room` brackets are open at once in some tokens, and none of
them is a long integer; the latter is asked for only where the conditions are
strict. -/
structure InBounds (strict : Prop) (room : ℕ) (w : List Token) : Prop where
  depth : AtMostOpen room w
  short : strict → ∀ t ∈ w, ¬ t.IsLongInteger

/-- A tree over some tokens: the tokens are in bounds, and where the conditions
are strict every `=` has a target on its left. -/
structure Fits (strict : Prop) (room : ℕ) (w : List Token) (e : Expr) : Prop where
  targets : strict → TargetsValid e
  bounds : InBounds strict room w

/-! ### Bounds of joined words -/

lemma inBounds_nil : InBounds strict n [] := ⟨atMostOpen_nil, by simp⟩

/-- A balanced word leaves no bracket open for what stands behind it. -/
lemma inBounds_append (hv : Balanced v) :
    InBounds strict n (v ++ w) ↔ InBounds strict n v ∧ InBounds strict n w := by
  constructor
  · rintro ⟨hd, hs⟩
    rw [atMostOpen_append hv] at hd
    simp only [List.forall_mem_append] at hs
    exact ⟨⟨hd.1, fun h => (hs h).1⟩, hd.2, fun h => (hs h).2⟩
  · rintro ⟨⟨hd1, hs1⟩, hd2, hs2⟩
    exact ⟨(atMostOpen_append hv).mpr ⟨hd1, hd2⟩,
      fun h => List.forall_mem_append.mpr ⟨hs1 h, hs2 h⟩⟩

/-- A token that is neither a bracket nor a literal. -/
def IsNeutral (t : Token) : Prop := IsPlain t ∧ ∀ kind, t.kind ≠ .literal kind

/-- A token that is neither a bracket nor a literal is neutral. -/
lemma isNeutral_of_kind {kind : Kind} (ht : t.kind = kind)
    (h : kind.isOpening = false ∧ kind.isClosing = false) (hl : ∀ k, kind ≠ .literal k) :
    IsNeutral t :=
  ⟨isPlain_of_kind ht h, fun k => by rw [ht]; exact hl k⟩

/-- Only a literal is a long integer. -/
lemma not_isLongInteger {kind : Kind} (ht : t.kind = kind) (hk : ∀ k, kind ≠ .literal k) :
    ¬ t.IsLongInteger := fun h => hk .number (ht ▸ h.1)

/-- A neutral token is within all bounds. -/
lemma inBounds_neutral (ht : IsNeutral t) : InBounds strict n [t] :=
  ⟨atMostOpen_plain ht.1, fun _ x hx => by
    rw [List.mem_singleton.mp hx]
    exact not_isLongInteger rfl ht.2⟩

/-- It adds nothing to what stands behind it. -/
lemma inBounds_cons (ht : IsNeutral t) : InBounds strict n (t :: w) ↔ InBounds strict n w := by
  rw [← List.singleton_append, inBounds_append (Balanced.plain ht.1)]
  exact and_iff_right (inBounds_neutral ht)

/-- A pair of brackets takes the room of one. -/
lemma inBounds_bracket (strict : Prop) (n : ℕ) (ho : o.kind.isOpening = true)
    (hc : c.kind.isClosing = true) (hu : Balanced u) :
    InBounds strict n (o :: u ++ [c]) ↔ ∃ m, n = m + 1 ∧ InBounds strict m u := by
  have hmem : ∀ t, t ∈ o :: u ++ [c] ↔ t = o ∨ t = c ∨ t ∈ u := fun t => by
    simp only [List.cons_append, List.mem_cons, List.mem_append, List.not_mem_nil, or_false]
    tauto
  constructor
  · rintro ⟨hd, hs⟩
    cases n with
    | zero => exact absurd hd (not_atMostOpen_zero ho)
    | succ m =>
        exact ⟨m, rfl, (atMostOpen_bracket ho hc hu).mp hd,
          fun h t ht => hs h t ((hmem t).mpr (Or.inr (Or.inr ht)))⟩
  · rintro ⟨m, rfl, hd, hs⟩
    refine ⟨(atMostOpen_bracket ho hc hu).mpr hd, fun h t ht => ?_⟩
    rcases (hmem t).mp ht with rfl | rfl | ht
    · exact not_isLongInteger rfl fun k hk => by rw [hk] at ho; simp [Kind.isOpening] at ho
    · exact not_isLongInteger rfl fun k hk => by rw [hk] at hc; simp [Kind.isClosing] at hc
    · exact hs h t ht

/-- A list is within bounds if its words are. -/
lemma inBounds_listed {separator : Kind} (h : Listed separator ws u)
    (hsep : ∀ t : Token, t.kind = separator → IsNeutral t) (hws : ∀ w ∈ ws, Balanced w) :
    InBounds strict n u ↔ ∀ w ∈ ws, InBounds strict n w := by
  induction h with
  | last w => simp
  | trailing w ht =>
      rw [inBounds_append (hws w (by simp))]
      simp [inBounds_neutral (hsep _ ht)]
  | more w ht _ ih =>
      rw [inBounds_append (hws w (by simp)), inBounds_cons (hsep _ ht),
        ih fun x hx => hws x (by simp [hx]), List.forall_mem_cons]

/-- The same of a list that may be empty. -/
lemma inBounds_listedOrNone {separator : Kind} (h : ListedOrNone separator ws u)
    (hsep : ∀ t : Token, t.kind = separator → IsNeutral t) (hws : ∀ w ∈ ws, Balanced w) :
    InBounds strict n u ↔ ∀ w ∈ ws, InBounds strict n w := by
  rcases h with ⟨rfl, rfl⟩ | h
  · simp [inBounds_nil]
  · exact inBounds_listed h hsep hws

/-- The same of words in a row. -/
lemma inBounds_flatMap {α : Type} {xs : List α} {f : α → List Token}
    (hb : ∀ x ∈ xs, Balanced (f x)) :
    InBounds strict n (xs.flatMap f) ↔ ∀ x ∈ xs, InBounds strict n (f x) := by
  induction xs with
  | nil => simp [inBounds_nil]
  | cons x xs ih =>
      rw [List.flatMap_cons, inBounds_append (hb x (by simp)),
        ih fun y hy => hb y (by simp [hy]), List.forall_mem_cons]

/-! ### Conditions on trees in terms of their parts -/

variable {x : List Token} {left right target value base step inner callee first : Expr}
  {op : ArithOp} {args : List Phrase} {links : List (Link CompareOp)} {rows : List Row}

lemma fits_iff : Fits strict n w e ↔ (strict → TargetsValid e) ∧ InBounds strict n w :=
  ⟨fun h => ⟨h.targets, h.bounds⟩, fun h => ⟨h.1, h.2⟩⟩

/-- The targets of a node are those of its children, and its own if it is an
assignment. -/
lemma targetsValid_node (w : List Token) (m : Node Literal Expr) :
    TargetsValid (node w m) ↔ (∀ target value, m = .assign target value → IsTarget target) ∧
      ∀ c ∈ m.children, TargetsValid c := targetsValid_iff _

/-- A step more brings its own targets. -/
lemma targetsValid_withStep (w : List Token) (base step : Expr) :
    TargetsValid (withStep w base step) ↔ TargetsValid base ∧ TargetsValid step := by
  rcases base with ⟨m, span⟩
  rw [targetsValid_iff ⟨m, span⟩]
  cases m <;> simp [withStep, targetsValid_node, targetsValid_iff ⟨_, span⟩, Tree.children,
    Node.children, or_imp, forall_and, and_assoc]

/-- An assignment fits if its target is one and both sides fit. -/
lemma fits_assign (hv : Balanced v) (ht : t.kind = .assign) :
    Fits strict n (v ++ t :: w) (node x (.assign target value)) ↔
      (strict → IsTarget target) ∧ Fits strict n v target ∧ Fits strict n w value := by
  have hn : IsNeutral t := isNeutral_of_kind ht ⟨rfl, rfl⟩ (by simp)
  have hb : InBounds strict n (v ++ t :: w) ↔ InBounds strict n v ∧ InBounds strict n w := by
    rw [inBounds_append hv, inBounds_cons hn]
  have htv : TargetsValid (node x (.assign target value)) ↔
      IsTarget target ∧ TargetsValid target ∧ TargetsValid value := by
    simp [targetsValid_node, Node.children]
  simp only [fits_iff, htv, hb]
  rw [imp_and, imp_and, and_assoc, and_and_and_comm]

/-- An operator fits if both sides do. -/
lemma fits_arith (hv : Balanced v) (ht : IsNeutral t) :
    Fits strict n (v ++ t :: w) (node x (.arith left op right)) ↔
      Fits strict n v left ∧ Fits strict n w right := by
  have hb : InBounds strict n (v ++ t :: w) ↔ InBounds strict n v ∧ InBounds strict n w := by
    rw [inBounds_append hv, inBounds_cons ht]
  have htv : TargetsValid (node x (.arith left op right)) ↔
      TargetsValid left ∧ TargetsValid right := by
    simp [targetsValid_node, Node.children]
  simp only [fits_iff, htv, hb]
  rw [imp_and, and_and_and_comm]

/-- A comparison fits if its operands do. -/
lemma fits_comparison (hw : Balanced w) (hop : ∀ l ∈ links, l.token.kind = .compare l.op)
    (hb : ∀ l ∈ links, Balanced l.right.tokens) :
    Fits strict n (w ++ links.flatMap Link.tokens)
        (node x (.comparison first (links.map Link.side))) ↔
      Fits strict n w first ∧ ∀ l ∈ links, Fits strict n l.right.tokens l.right.tree := by
  have hn : ∀ l ∈ links, IsNeutral l.token := fun l hl =>
    isNeutral_of_kind (hop l hl) ⟨rfl, rfl⟩ (by simp)
  have hbal : ∀ l ∈ links, Balanced l.tokens := fun l hl => (hb l hl).cons (hn l hl).1
  have hlinks : InBounds strict n (links.flatMap Link.tokens) ↔
      ∀ l ∈ links, InBounds strict n l.right.tokens := by
    rw [inBounds_flatMap hbal]
    exact forall₂_congr fun l hl => inBounds_cons (hn l hl)
  have htv : TargetsValid (node x (.comparison first (links.map Link.side))) ↔
      TargetsValid first ∧ ∀ l ∈ links, TargetsValid l.right.tree := by
    simp [targetsValid_node, Node.children, Link.side]
  have hstrict : (strict → ∀ l ∈ links, TargetsValid l.right.tree) ↔
      ∀ l ∈ links, strict → TargetsValid l.right.tree :=
    ⟨fun h l hl hs => h hs l hl, fun h hs l hl => h l hl hs⟩
  simp only [fits_iff, htv, inBounds_append hw, hlinks, forall₂_and]
  rw [imp_and, and_and_and_comm, hstrict]

/-- A minus sign asks for nothing. -/
lemma fits_negate (ht : t.kind = .arith .minus) :
    Fits strict n (t :: w) (node x (.negate e)) ↔ Fits strict n w e := by
  have hn : IsNeutral t := isNeutral_of_kind ht ⟨rfl, rfl⟩ (by simp)
  have htv : TargetsValid (node x (.negate e)) ↔ TargetsValid e := by
    simp [targetsValid_node, Node.children]
  simp only [fits_iff, htv, inBounds_cons hn]

lemma isNeutral_comma (t : Token) (ht : t.kind = .comma) : IsNeutral t :=
  isNeutral_of_kind ht ⟨rfl, rfl⟩ (by simp)

lemma isNeutral_semicolon (t : Token) (ht : t.kind = .semicolon) : IsNeutral t :=
  isNeutral_of_kind ht ⟨rfl, rfl⟩ (by simp)

/-- The bounds of a list of phrases are the bounds of the phrases. -/
lemma inBounds_phrases (hu : ListedOrNone .comma (args.map Phrase.tokens) u)
    (hb : ∀ a ∈ args, Balanced a.tokens) :
    InBounds strict n u ↔ ∀ a ∈ args, InBounds strict n a.tokens := by
  rw [inBounds_listedOrNone hu isNeutral_comma (by simpa using hb)]
  simp

/-- Trees in brackets fit where they fit with the room of one bracket less. -/
private lemma fits_bracketed {P : Prop} {Q : ℕ → Prop} {α : Type} {xs : List α}
    {f : α → List Token} {k : α → Expr} (hP : P ↔ (strict → ∀ a ∈ xs, TargetsValid (k a)))
    (hQ : ∀ m, Q m ↔ ∀ a ∈ xs, InBounds strict m (f a)) :
    (P ∧ ∃ m, n = m + 1 ∧ Q m) ↔ ∃ m, n = m + 1 ∧ ∀ a ∈ xs, Fits strict m (f a) (k a) := by
  simp only [hP, hQ, fits_iff, forall₂_and]
  constructor
  · rintro ⟨h1, m, hm, h2⟩
    exact ⟨m, hm, fun a ha hs => h1 hs a ha, h2⟩
  · rintro ⟨m, hm, h1, h2⟩
    exact ⟨fun hs a ha => h1 a ha hs, m, hm, h2⟩

/-- The arguments of a call have one level of brackets less to go. -/
lemma fits_call (hv : Balanced v) (ho : o.kind = .openParen) (hc : c.kind = .closeParen)
    (hu : ListedOrNone .comma (args.map Phrase.tokens) u) (hb : ∀ a ∈ args, Balanced a.tokens) :
    Fits strict n (v ++ (o :: u ++ [c])) (node x (.call callee (args.map Phrase.tree))) ↔
      Fits strict n v callee ∧ ∃ m, n = m + 1 ∧ ∀ a ∈ args, Fits strict m a.tokens a.tree := by
  have hbu : Balanced u := hu.balanced ⟨rfl, rfl⟩ (by simpa using hb)
  have htv : TargetsValid (node x (.call callee (args.map Phrase.tree))) ↔
      TargetsValid callee ∧ ∀ a ∈ args, TargetsValid a.tree := by
    simp [targetsValid_node, Node.children]
  have hbr := inBounds_bracket strict n (by rw [ho]; rfl) (by rw [hc]; rfl) hbu
  rw [← fits_bracketed (Iff.rfl) fun m => inBounds_phrases hu hb, fits_iff, fits_iff, htv,
    inBounds_append hv, hbr, imp_and, and_and_and_comm]

/-- So have the subscripts of an index. -/
lemma fits_index (hv : Balanced v) (ho : o.kind = .openBracket) (hc : c.kind = .closeBracket)
    (hu : Listed .comma (args.map Phrase.tokens) u) (hb : ∀ a ∈ args, Balanced a.tokens) :
    Fits strict n (v ++ (o :: u ++ [c]))
        (withStep w base (node x (.index (args.map Phrase.tree)))) ↔
      Fits strict n v base ∧ ∃ m, n = m + 1 ∧ ∀ a ∈ args, Fits strict m a.tokens a.tree := by
  have hbu : Balanced u := hu.balanced ⟨rfl, rfl⟩ (by simpa using hb)
  have htv : TargetsValid (withStep w base (node x (.index (args.map Phrase.tree)))) ↔
      TargetsValid base ∧ ∀ a ∈ args, TargetsValid a.tree := by
    simp [targetsValid_withStep, targetsValid_node, Node.children]
  have hbr := inBounds_bracket strict n (by rw [ho]; rfl) (by rw [hc]; rfl) hbu
  rw [← fits_bracketed (Iff.rfl) fun m => inBounds_phrases (Or.inr hu) hb, fits_iff, fits_iff,
    htv, inBounds_append hv, hbr, imp_and, and_and_and_comm]

/-- A field asks for nothing. -/
lemma fits_field {s : String} (hv : Balanced v) (ho : o.kind = .dot) (ht : t.kind = .name) :
    Fits strict n (v ++ [o, t]) (withStep w base (node x (.field s))) ↔ Fits strict n v base := by
  have ho' : IsNeutral o := isNeutral_of_kind ho ⟨rfl, rfl⟩ (by simp)
  have ht' : IsNeutral t := isNeutral_of_kind ht ⟨rfl, rfl⟩ (by simp)
  have htv : TargetsValid (withStep w base (node x (.field s))) ↔ TargetsValid base := by
    simp [targetsValid_withStep, targetsValid_node, Node.children]
  rw [fits_iff, fits_iff, htv, inBounds_append hv, inBounds_cons ho',
    and_iff_left (inBounds_neutral ht')]

/-- An expression in parentheses has one level of brackets less to go. -/
lemma fits_group (ho : o.kind = .openParen) (hc : c.kind = .closeParen) (hu : Balanced u) :
    Fits strict n (o :: u ++ [c]) (node x (.group inner)) ↔
      ∃ m, n = m + 1 ∧ Fits strict m u inner := by
  have htv : TargetsValid (node x (.group inner)) ↔ TargetsValid inner := by
    simp [targetsValid_node, Node.children]
  have hbr := inBounds_bracket strict n (by rw [ho]; rfl) (by rw [hc]; rfl) hu
  simp only [fits_iff, htv, hbr]
  constructor
  · rintro ⟨h1, m, hm, h2⟩
    exact ⟨m, hm, h1, h2⟩
  · rintro ⟨m, hm, h1, h2⟩
    exact ⟨h1, m, hm, h2⟩

/-- So have the items of an array. -/
lemma fits_array (ho : o.kind = .openBracket) (hc : c.kind = .closeBracket)
    (hu : ListedOrNone .semicolon (rows.map Row.tokens) u)
    (hr : ∀ r ∈ rows, Listed .comma (r.items.map Phrase.tokens) r.tokens)
    (hb : ∀ r ∈ rows, ∀ a ∈ r.items, Balanced a.tokens) :
    Fits strict n (o :: u ++ [c]) (node x (.array (rows.map Row.trees))) ↔
      ∃ m, n = m + 1 ∧ ∀ r ∈ rows, ∀ a ∈ r.items, Fits strict m a.tokens a.tree := by
  have hrow : ∀ r ∈ rows, Balanced r.tokens := fun r h =>
    (hr r h).balanced ⟨rfl, rfl⟩ (by simpa using hb r h)
  have hbu : Balanced u := hu.balanced ⟨rfl, rfl⟩ (by simpa using hrow)
  have htv : TargetsValid (node x (.array (rows.map Row.trees))) ↔
      ∀ r ∈ rows, ∀ a ∈ r.items, TargetsValid a.tree := by
    simp only [targetsValid_node, Node.children, List.mem_flatten, List.mem_map, Row.trees]
    aesop
  have hbr := inBounds_bracket strict n (by rw [ho]; rfl) (by rw [hc]; rfl) hbu
  have hrows : ∀ m, InBounds strict m u ↔ ∀ r ∈ rows, ∀ a ∈ r.items, InBounds strict m a.tokens :=
    fun m => by
      rw [inBounds_listedOrNone hu isNeutral_semicolon (by simpa using hrow)]
      simp only [List.mem_map, forall_exists_index, and_imp, forall_apply_eq_imp_iff₂]
      exact forall₂_congr fun r h => inBounds_phrases (Or.inr (hr r h)) (hb r h)
  simp only [fits_iff, htv, hbr, hrows]
  constructor
  · rintro ⟨h1, m, hm, h2⟩
    exact ⟨m, hm, fun r h a ha => ⟨fun hs => h1 hs r h a ha, h2 r h a ha⟩⟩
  · rintro ⟨m, hm, h⟩
    exact ⟨fun hs r hr a ha => (h r hr a ha).1 hs, m, hm, fun r hr a ha => (h r hr a ha).2⟩

end Grammar

end ArrayExpr
