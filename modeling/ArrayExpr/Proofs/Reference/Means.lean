/-
Derivations by their outlines.

* `Reference.Means`: tokens derive from a nonterminal, and an outline is that
  of their tree; there is one lemma for each alternative of the grammar;
* `Reference.Several`: words with separators between them, each with an
  outline;
* `Reference.Pends`: tokens account for the operators that are pending, so
  that with an operand they make up a factor, a term, a comparison or a whole
  item (`Pends.whole`).
-/
import ArrayExpr.Proofs.Reference.Completeness

namespace ArrayExpr

namespace Reference

open Grammar

variable {l l' : Level} {t o c d : Token} {u v w : List Token} {x y : Outline}
  {os items : List Outline} {op : ArithOp} {p : Pending}

/-- The tokens derive from a nonterminal, and the outline is that of their
tree. -/
def Means (l : Level) (w : List Token) (x : Outline) : Prop :=
  ∃ e, Derives l w e ∧ Expr.outline e = x

/-- One nonterminal derives from another with the same tree. -/
lemma Means.lift (h : Means l w x) (hl : ∀ e, Derives l w e → Derives l' w e) : Means l' w x := by
  obtain ⟨e, he, rfl⟩ := h
  exact ⟨e, hl e he, rfl⟩

/-- An operand may have no suffixes. -/
lemma Means.bare (h : Means .operand w x) : Means .suffixed w x := h.lift fun _ => .bare

/-! ### Lists -/

/-- Words with separators between them, each with an outline. -/
def Several (separator : Kind) (P : List Token → Outline → Prop) (os : List Outline)
    (u : List Token) : Prop := ∃ ws, Listed separator ws u ∧ List.Forall₂ P ws os

/-- The same, or nothing. -/
def SeveralOrNone (separator : Kind) (P : List Token → Outline → Prop) (os : List Outline)
    (u : List Token) : Prop := os = [] ∧ u = [] ∨ Several separator P os u

/-- Words with a separator after each. -/
inductive Each (separator : Kind) : List (List Token) → List Token → Prop
  | nil : Each separator [] []
  | cons (w : List Token) {t : Token} (ht : t.kind = separator) {ws : List (List Token)}
      {u : List Token} (h : Each separator ws u) : Each separator (w :: ws) (w ++ t :: u)

section Each

variable {separator : Kind} {ws : List (List Token)} {P : List Token → Outline → Prop}

/-- One word more with its separator. -/
lemma Each.concat (h : Each separator ws u) (ht : t.kind = separator) :
    Each separator (ws ++ [w]) (u ++ (w ++ [t])) := by
  induction h with
  | nil => exact .cons w ht .nil
  | cons v hs _ ih => simpa using Each.cons v hs ih

/-- A last word without a separator makes a list. -/
lemma Each.listed_last (h : Each separator ws u) : Listed separator (ws ++ [w]) (u ++ w) := by
  induction h with
  | nil => exact .last w
  | cons v hs _ ih => simpa using Listed.more v hs ih

/-- Without it the last separator is a trailing one. -/
lemma Each.listed (h : Each separator ws u) (hne : ws ≠ []) : Listed separator ws u := by
  induction h with
  | nil => exact absurd rfl hne
  | @cons w t ht ws u h ih =>
      cases h with
      | nil => exact .trailing w ht
      | cons => exact .more w ht (ih (by simp))

/-- The items of a list so far, the last one first, each with the separator
after it. -/
def Pieces (separator : Kind) (P : List Token → Outline → Prop) (items : List Outline)
    (w : List Token) : Prop := ∃ ws, Each separator ws w ∧ List.Forall₂ P ws items.reverse

lemma Pieces.nil : Pieces separator P [] [] := ⟨[], .nil, .nil⟩

/-- An item ends with a separator. -/
lemma Pieces.push (h : Pieces separator P items w) (hu : P u x) (ht : t.kind = separator) :
    Pieces separator P (x :: items) (w ++ (u ++ [t])) := by
  obtain ⟨ws, hws, hitems⟩ := h
  refine ⟨ws ++ [u], hws.concat ht, ?_⟩
  rw [List.reverse_cons]
  exact List.rel_append hitems (.cons hu .nil)

/-- An item ends with its bracket. -/
lemma Pieces.last (h : Pieces separator P items w) (hu : P u x) :
    Several separator P (x :: items).reverse (w ++ u) := by
  obtain ⟨ws, hws, hitems⟩ := h
  refine ⟨ws ++ [u], hws.listed_last, ?_⟩
  rw [List.reverse_cons]
  exact List.rel_append hitems (.cons hu .nil)

/-- A bracket ends behind a separator. -/
lemma Pieces.several (h : Pieces separator P items w) (hne : items ≠ []) :
    Several separator P items.reverse w := by
  obtain ⟨ws, hws, hitems⟩ := h
  refine ⟨ws, hws.listed ?_, hitems⟩
  rintro rfl
  exact hne (List.reverse_eq_nil_iff.mp (List.forall₂_nil_left_iff.mp hitems))

/-- A bracket that may be empty ends where an item is wanted. -/
lemma Pieces.severalOrNone (h : Pieces separator P items w) :
    SeveralOrNone separator P items.reverse w := by
  cases items with
  | nil =>
      obtain ⟨ws, hws, hitems⟩ := h
      obtain rfl := List.forall₂_nil_right_iff.mp hitems
      cases hws
      exact Or.inl ⟨rfl, rfl⟩
  | cons x items => exact Or.inr (h.several (by simp))

end Each

/-! ### One alternative after another -/

/-- Words that derive have phrases. -/
lemma exists_phrases {ws : List (List Token)} (h : List.Forall₂ (Means l) ws os) :
    ∃ ps : List Phrase, ps.map Phrase.tokens = ws ∧
      (ps.map Phrase.tree).map Expr.outline = os ∧ ∀ a ∈ ps, Derives l a.tokens a.tree := by
  induction h with
  | nil => exact ⟨[], rfl, rfl, by simp⟩
  | @cons w x ws os h _ ih =>
      obtain ⟨e, he, rfl⟩ := h
      obtain ⟨ps, rfl, rfl, hps⟩ := ih
      exact ⟨⟨w, e⟩ :: ps, rfl, rfl, List.forall_mem_cons.mpr ⟨he, hps⟩⟩

lemma SeveralOrNone.exists_phrases (h : SeveralOrNone .comma (Means l) os u) :
    ∃ ps : List Phrase, ListedOrNone .comma (ps.map Phrase.tokens) u ∧
      (ps.map Phrase.tree).map Expr.outline = os ∧ ∀ a ∈ ps, Derives l a.tokens a.tree := by
  rcases h with ⟨rfl, rfl⟩ | ⟨ws, hws, hos⟩
  · exact ⟨[], Or.inl ⟨rfl, rfl⟩, rfl, by simp⟩
  · obtain ⟨ps, rfl, hos, hps⟩ := Reference.exists_phrases hos
    exact ⟨ps, Or.inr hws, hos, hps⟩

/-- A target with its value. -/
lemma means_assign (hv : Means .comparison v x) (ht : t.kind = .assign)
    (hw : Means .assignment w y) : Means .assignment (v ++ t :: w) (.branch "assign" [x, y]) := by
  obtain ⟨e, he, rfl⟩ := hv
  obtain ⟨f, hf, rfl⟩ := hw
  exact ⟨_, .assign he ht hf, outline_node _ _⟩

/-- A sum with one operand more. -/
lemma means_add (hv : Means .sum v x) (ht : t.kind.isSumOp op) (hw : Means .product w y) :
    Means .sum (v ++ t :: w) (.branch "binop" [x, op.outline, y]) := by
  obtain ⟨e, he, rfl⟩ := hv
  obtain ⟨f, hf, rfl⟩ := hw
  exact ⟨_, .add he ht hf, outline_node _ _⟩

/-- A product with one operand more. -/
lemma means_multiply (hv : Means .product v x) (ht : t.kind.isProductOp op)
    (hw : Means .signed w y) :
    Means .product (v ++ t :: w) (.branch "binop" [x, op.outline, y]) := by
  obtain ⟨e, he, rfl⟩ := hv
  obtain ⟨f, hf, rfl⟩ := hw
  exact ⟨_, .multiply he ht hf, outline_node _ _⟩

/-- A minus sign. -/
lemma means_negate (ht : t.kind = .arith .minus) (hw : Means .signed w x) :
    Means .signed (t :: w) (.branch "neg" [x]) := by
  obtain ⟨e, he, rfl⟩ := hw
  exact ⟨_, .negate ht he, outline_node _ _⟩

/-- A call, maybe of no arguments. -/
lemma means_call (hv : Means .suffixed v x) (ho : o.kind = .openParen) (hc : c.kind = .closeParen)
    (hu : SeveralOrNone .comma (Means .assignment) os u) :
    Means .suffixed (v ++ (o :: u ++ [c])) (.branch "call" [x, .branch "args" os]) := by
  obtain ⟨e, he, rfl⟩ := hv
  obtain ⟨ps, hps, rfl, ha⟩ := hu.exists_phrases
  exact ⟨_, .call he ho hc hps ha, outline_node _ _⟩

/-- An index of at least one subscript. -/
lemma means_index (hv : Means .suffixed v x) (ho : o.kind = .openBracket)
    (hc : c.kind = .closeBracket) (hu : Several .comma (Means .assignment) os u) :
    Means .suffixed (v ++ (o :: u ++ [c])) (extend x (.branch "index" os)) := by
  obtain ⟨e, he, rfl⟩ := hv
  obtain ⟨ws, hws, hos⟩ := hu
  obtain ⟨ps, rfl, rfl, hps⟩ := exists_phrases hos
  exact ⟨_, .index he ho hc hws hps, by rw [outline_withStep, outline_node]; rfl⟩

/-- A field. -/
lemma means_field (hv : Means .suffixed v x) (hd : d.kind = .dot) (ht : t.kind = .name) :
    Means .suffixed (v ++ [d, t]) (extend x (.branch "field" [leaf t])) := by
  obtain ⟨e, he, rfl⟩ := hv
  refine ⟨_, .field he hd ht, ?_⟩
  rw [outline_withStep, outline_node, leaf, ht]
  rfl

/-- A literal is its leaf. -/
lemma means_literal {kind : LiteralKind} (ht : t.kind = .literal kind) :
    Means .operand [t] (leaf t) := by
  refine ⟨_, .literal ht, ?_⟩
  rw [outline_node, leaf, ht]
  rfl

/-- A name is its leaf. -/
lemma means_name (ht : t.kind = .name) : Means .operand [t] (leaf t) := by
  refine ⟨_, .name ht, ?_⟩
  rw [outline_node, leaf, ht]
  rfl

/-- An expression in parentheses. -/
lemma means_group (ho : o.kind = .openParen) (hc : c.kind = .closeParen)
    (hu : Means .assignment u x) : Means .operand (o :: u ++ [c]) (.branch "group" [x]) := by
  obtain ⟨e, he, rfl⟩ := hu
  exact ⟨_, .group ho hc he, outline_node _ _⟩

/-- A row of an array with its outline. -/
def MeansRow (w : List Token) (x : Outline) : Prop :=
  ∃ os, x = .branch "row" os ∧ Several .comma (Means .assignment) os w

/-- Rows that derive have items. -/
lemma exists_rows {ws : List (List Token)} (h : List.Forall₂ MeansRow ws os) :
    ∃ rows : List Row, rows.map Row.tokens = ws ∧
      (rows.map Row.trees).map (fun row => .branch "row" (row.map Expr.outline)) = os ∧
      (∀ r ∈ rows, Listed .comma (r.items.map Phrase.tokens) r.tokens) ∧
      ∀ r ∈ rows, ∀ a ∈ r.items, Derives .assignment a.tokens a.tree := by
  induction h with
  | nil => exact ⟨[], rfl, rfl, by simp, by simp⟩
  | @cons w x ws os h _ ih =>
      obtain ⟨os, rfl, vs, hvs, hos⟩ := h
      obtain ⟨ps, rfl, rfl, hps⟩ := exists_phrases hos
      obtain ⟨rows, rfl, rfl, hl, ha⟩ := ih
      exact ⟨⟨w, ps⟩ :: rows, rfl, rfl, List.forall_mem_cons.mpr ⟨hvs, hl⟩,
        List.forall_mem_cons.mpr ⟨hps, ha⟩⟩

/-- An array of rows, maybe of none. -/
lemma means_array (ho : o.kind = .openBracket) (hc : c.kind = .closeBracket)
    (hu : SeveralOrNone .semicolon MeansRow os u) :
    Means .operand (o :: u ++ [c]) (.branch "array" os) := by
  have hrows : ∃ rows : List Row, ListedOrNone .semicolon (rows.map Row.tokens) u ∧
      (rows.map Row.trees).map (fun row => .branch "row" (row.map Expr.outline)) = os ∧
      (∀ r ∈ rows, Listed .comma (r.items.map Phrase.tokens) r.tokens) ∧
      ∀ r ∈ rows, ∀ a ∈ r.items, Derives .assignment a.tokens a.tree := by
    rcases hu with ⟨rfl, rfl⟩ | ⟨ws, hws, hos⟩
    · exact ⟨[], Or.inl ⟨rfl, rfl⟩, rfl, by simp, by simp⟩
    · obtain ⟨rows, rfl, h⟩ := exists_rows hos
      exact ⟨rows, Or.inr hws, h⟩
  obtain ⟨rows, hrows, rfl, hr, ha⟩ := hrows
  refine ⟨_, .array ho hc hrows hr ha, ?_⟩
  rw [outline_node, Node.map, Node.outline, List.map_map]
  rfl

/-! ### The operands of a comparison -/

/-- The operands and operators of a comparison that ends in an operand, the
last one first. -/
def Operands (chain : List Outline) (v : List Token) : Prop :=
  ∃ (first : Phrase) (links : List (Link CompareOp)), Derives .sum first.tokens first.tree ∧
    (∀ l ∈ links, l.token.kind.isCompareOp l.op) ∧
    (∀ l ∈ links, Derives .sum l.right.tokens l.right.tree) ∧
    v = first.tokens ++ links.flatMap Link.tokens ∧
    chain.reverse = Expr.outline first.tree :: linkOutlines links

/-- A single operand. -/
lemma Means.operands (h : Means .sum v x) : Operands [x] v := by
  obtain ⟨e, he, rfl⟩ := h
  exact ⟨⟨v, e⟩, [], he, by simp, by simp, by simp, rfl⟩

/-- One operand more behind its operator. -/
lemma Operands.link {chain : List Outline} {op : CompareOp} (h : Operands chain v)
    (ht : t.kind = .compare op) (hw : Means .sum w x) :
    Operands (x :: op.outline :: chain) (v ++ t :: w) := by
  obtain ⟨first, links, hfirst, hop, hl, rfl, hchain⟩ := h
  obtain ⟨e, he, rfl⟩ := hw
  refine ⟨first, links ++ [⟨t, op, ⟨w, e⟩⟩], hfirst, ?_, ?_, ?_, ?_⟩
  · exact List.forall_mem_append.mpr ⟨hop, List.forall_mem_singleton.mpr ht⟩
  · exact List.forall_mem_append.mpr ⟨hl, List.forall_mem_singleton.mpr he⟩
  · simp [Link.tokens]
  · simp [hchain, linkOutlines]

/-- Two operands and more are a comparison. -/
lemma Operands.comparison {chain : List Outline} (h : Operands (x :: y :: chain) v) :
    Means .comparison v (.branch "comparison" (x :: y :: chain).reverse) := by
  obtain ⟨first, links, hfirst, hop, hl, rfl, hchain⟩ := h
  have hne : links ≠ [] := by
    rintro rfl
    have hlen := congrArg List.length hchain
    simp [linkOutlines] at hlen
  refine ⟨_, .compare hfirst hne hop hl, ?_⟩
  rw [outline_node, hchain]
  simp [Node.map, Node.outline, linkOutlines, List.flatMap_map, Link.side]

/-! ### What is pending -/

/-- The left side of an operator with its operator, if there is one. -/
def LeftOf (l : Level) (isOp : Kind → ArithOp → Prop) (left : Option (Outline × Outline))
    (v : List Token) : Prop :=
  match left with
  | some (x, leaf) => ∃ u t op, v = u ++ [t] ∧ Means l u x ∧ isOp t.kind op ∧
      leaf = ArithOp.outline op
  | none => v = []

/-- The left side of a product, if there is one, with its right side. -/
lemma LeftOf.product {left : Option (Outline × Outline)}
    (h : LeftOf .product Kind.isProductOp left v) (hw : Means .signed w x) :
    Means .product (v ++ w) (Pending.combine left x) := by
  match left, h with
  | some (y, _), ⟨u, t, op, hv, hu, ht, rfl⟩ =>
    rw [hv, List.append_assoc]
    exact means_multiply hu ht hw
  | none, h =>
    rw [LeftOf] at h
    subst h
    exact hw.lift fun _ => .factor

/-- The left side of a sum, if there is one, with its right side. -/
lemma LeftOf.sum {left : Option (Outline × Outline)} (h : LeftOf .sum Kind.isSumOp left v)
    (hw : Means .product w x) : Means .sum (v ++ w) (Pending.combine left x) := by
  match left, h with
  | some (y, _), ⟨u, t, op, hv, hu, ht, rfl⟩ =>
    rw [hv, List.append_assoc]
    exact means_add hu ht hw
  | none, h =>
    rw [LeftOf] at h
    subst h
    exact hw.lift fun _ => .term

/-- So many minus signs. -/
def SignsOf (n : ℕ) (v : List Token) : Prop :=
  v.length = n ∧ ∀ t ∈ v, t.kind = .arith .minus

/-- An operand under the signs before it: by induction on the signs, the last
one binds first. -/
lemma SignsOf.signed {n : ℕ} (h : SignsOf n v) (hw : Means .suffixed w x) :
    Means .signed (v ++ w) (Pending.negated x n) := by
  obtain ⟨rfl, h⟩ := h
  induction v with
  | nil => exact hw.lift fun _ => .unsigned
  | cons t v ih =>
      obtain ⟨ht, hv⟩ := List.forall_mem_cons.mp h
      exact means_negate ht (ih hv)

/-- The operands of a comparison so far, with the operator after the last. -/
def ChainOf (chain : List Outline) (v : List Token) : Prop :=
  chain = [] ∧ v = [] ∨ ∃ chain' op u t, chain = CompareOp.outline op :: chain' ∧ v = u ++ [t] ∧
    Operands chain' u ∧ t.kind = .compare op

/-- The operands of a comparison with the last one. -/
lemma ChainOf.operands {chain : List Outline} (h : ChainOf chain v) (hw : Means .sum w x) :
    Operands (x :: chain) (v ++ w) := by
  rcases h with ⟨rfl, rfl⟩ | ⟨chain, op, u, t, rfl, rfl, hu, ht⟩
  · exact hw.operands
  · rw [List.append_assoc]
    exact hu.link ht hw

/-- They are a comparison unless the operand stands alone. -/
lemma ChainOf.comparison {chain : List Outline} (h : ChainOf chain v) (hw : Means .sum w x) :
    Means .comparison (v ++ w)
      (if chain.isEmpty then x else .branch "comparison" (x :: chain).reverse) := by
  have ho := h.operands hw
  rcases h with ⟨rfl, rfl⟩ | ⟨chain, op, u, t, rfl, -⟩
  · exact hw.lift fun _ => .comparand
  · exact ho.comparison

/-- The targets of an assignment, the last one first, each with the `=` after
it. -/
inductive TargetsOf : List Outline → List Token → Prop
  | nil : TargetsOf [] []
  | push {targets : List Outline} {v u : List Token} {x : Outline} {t : Token}
      (h : TargetsOf targets v) (hu : Means .comparison u x) (ht : t.kind = .assign) :
      TargetsOf (x :: targets) (v ++ (u ++ [t]))

/-- The value under all its targets: by induction on them, the last one is
assigned first. -/
lemma TargetsOf.assignment {targets : List Outline} (h : TargetsOf targets v)
    (hw : Means .assignment w x) :
    Means .assignment (v ++ w) (targets.foldl assignOutline x) := by
  induction h generalizing w x with
  | nil => exact hw
  | push _ hu ht ih =>
      have hrest := ih (means_assign hu ht hw)
      simpa [assignOutline] using hrest

/-- The tokens account for what is pending. -/
def Pends (p : Pending) (v : List Token) : Prop :=
  ∃ a b c d s, TargetsOf p.targets a ∧ ChainOf p.chain b ∧ LeftOf .sum Kind.isSumOp p.sum c ∧
    LeftOf .product Kind.isProductOp p.product d ∧ SignsOf p.signs s ∧
    v = a ++ (b ++ (c ++ (d ++ s)))

lemma SignsOf.zero : SignsOf 0 [] := ⟨rfl, by simp⟩

lemma Pends.nothing : Pends .nothing [] :=
  ⟨[], [], [], [], [], .nil, Or.inl ⟨rfl, rfl⟩, rfl, rfl, .zero, rfl⟩

/-- At the beginning of a side only the targets before it are pending. -/
lemma Pends.targets (h : Pends p v) (hc : p.chain = []) (hsum : p.sum = none)
    (hp : p.product = none) (hn : p.signs = 0) : TargetsOf p.targets v := by
  obtain ⟨a, b, c, d, s, ha, hb, hc', hd, hs, rfl⟩ := h
  rw [hc] at hb
  rw [hsum, LeftOf] at hc'
  rw [hp, LeftOf] at hd
  rw [hn, SignsOf, List.length_eq_zero_iff] at hs
  have hb : b = [] := by simpa [ChainOf] using hb
  rw [hb, hc', hd, hs.1]
  simpa using ha

/-- Where nothing is pending nothing was read. -/
lemma Pends.eq_nil (h : Pends p v) (hp : p.isNothing = true) : v = [] := by
  simp only [Pending.isNothing, Bool.and_eq_true, List.isEmpty_iff, Option.isNone_iff_eq_none,
    decide_eq_true_eq] at hp
  obtain ⟨⟨⟨⟨h1, h2⟩, h3⟩, h4⟩, h5⟩ := hp
  have ht := h.targets h2 h3 h4 h5
  rw [h1] at ht
  cases ht
  rfl

/-- A minus sign more. -/
lemma Pends.minus (h : Pends p v) (ht : t.kind = .arith .minus) :
    Pends { p with signs := p.signs + 1 } (v ++ [t]) := by
  obtain ⟨a, b, c, d, s, ha, hb, hc, hd, ⟨hn, hs⟩, rfl⟩ := h
  refine ⟨a, b, c, d, s ++ [t], ha, hb, hc, hd, ⟨by simp [hn], ?_⟩, by simp⟩
  exact List.forall_mem_append.mpr ⟨hs, List.forall_mem_singleton.mpr ht⟩

/-- An operator of a product takes the operand and the signs before it to its
left side. -/
lemma Pends.factor (h : Pends p v) (hw : Means .suffixed w x) (ht : t.kind.isProductOp op) :
    Pends (p.afterFactor x op.outline) (v ++ (w ++ [t])) := by
  obtain ⟨a, b, c, d, s, ha, hb, hc, hd, hs, rfl⟩ := h
  exact ⟨a, b, c, d ++ (s ++ w) ++ [t], [], ha, hb, hc,
    ⟨_, t, op, rfl, hd.product (hs.signed hw), ht, rfl⟩, .zero, by simp⟩

/-- An operator of a sum takes the product to its left side, too. -/
lemma Pends.term (h : Pends p v) (hw : Means .suffixed w x) (ht : t.kind.isSumOp op) :
    Pends (p.afterTerm x op.outline) (v ++ (w ++ [t])) := by
  obtain ⟨a, b, c, d, s, ha, hb, hc, hd, hs, rfl⟩ := h
  exact ⟨a, b, c ++ (d ++ (s ++ w)) ++ [t], [], [], ha, hb,
    ⟨_, t, op, rfl, hc.sum (hd.product (hs.signed hw)), ht, rfl⟩, rfl, .zero, by simp⟩

/-- An operator of a comparison takes the sum to the chain. -/
lemma Pends.comparand {op : CompareOp} (h : Pends p v) (hw : Means .suffixed w x)
    (ht : t.kind = .compare op) : Pends (p.afterComparand x op.outline) (v ++ (w ++ [t])) := by
  obtain ⟨a, b, c, d, s, ha, hb, hc, hd, hs, rfl⟩ := h
  have ho := hb.operands (hc.sum (hd.product (hs.signed hw)))
  exact ⟨a, b ++ (c ++ (d ++ (s ++ w))) ++ [t], [], [], [], ha,
    Or.inr ⟨_, op, _, t, rfl, rfl, ho, ht⟩, rfl, rfl, .zero, by simp⟩

/-- The comparison that ends with an operand, and the targets before it. -/
lemma Pends.compared (h : Pends p v) (hw : Means .suffixed w x) :
    ∃ a u, TargetsOf p.targets a ∧ Means .comparison u (p.compared x) ∧ v ++ w = a ++ u := by
  obtain ⟨a, b, c, d, s, ha, hb, hc, hd, hs, rfl⟩ := h
  exact ⟨a, _, ha, hb.comparison (hc.sum (hd.product (hs.signed hw))), by simp⟩

/-- A `=` takes the comparison to the targets. -/
lemma Pends.target (h : Pends p v) (hw : Means .suffixed w x) (ht : t.kind = .assign) :
    Pends (p.afterTarget x) (v ++ (w ++ [t])) := by
  obtain ⟨a, u, ha, hu, heq⟩ := h.compared hw
  refine ⟨a ++ (u ++ [t]), [], [], [], [], ha.push hu ht, Or.inl ⟨rfl, rfl⟩, rfl, rfl, .zero, ?_⟩
  rw [← List.append_assoc, heq]
  simp

/-- **The item that ends with an operand.** -/
lemma Pends.whole (h : Pends p v) (hw : Means .suffixed w x) :
    Means .assignment (v ++ w) (p.whole x) := by
  obtain ⟨a, u, ha, hu, heq⟩ := h.compared hw
  rw [heq]
  exact ha.assignment (hu.lift fun _ => .value)

end Reference

end ArrayExpr
