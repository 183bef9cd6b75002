/-
The reference machine takes every derivation.

* `Reference.Settles`: how the operators that are pending and the operand in
  hand make up the outline of what was read;
* `Reference.Runs`: in front of a word the machine reads it, keeps the brackets
  around it, and settles for an outline;
* `Derives.runs`: it does so for every derivation that fits, and settles for
  the outline of the tree.
-/
import ArrayExpr.Proofs.Reference.Run
import ArrayExpr.Proofs.Grammar.Unrolled

namespace ArrayExpr

namespace Reference

open Grammar

/-! ### Outlines of nodes -/

/-- The outline of a node from those of its children. -/
lemma outline_node (w : List Token) (n : Node Literal Expr) :
    Expr.outline (node w n) = (n.map id Expr.outline).outline Literal.outline := by
  rw [Expr.outline_eq]
  rfl

/-- A step more extends the outline. -/
lemma outline_withStep (w : List Token) (base step : Expr) :
    Expr.outline (withStep w base step) = extend (Expr.outline base) (Expr.outline step) := by
  rcases base with ⟨m, span⟩
  cases m with
  | access inner steps =>
      simp [withStep, node, Expr.outline_eq ⟨_, _⟩, Node.map, Node.outline, extend]
  | literal l =>
      simp [withStep, node, Expr.outline_eq ⟨_, _⟩, Node.map, Node.outline, extend,
        Literal.outline]
  | name l =>
      simp [withStep, node, Expr.outline_eq ⟨_, _⟩, Node.map, Node.outline, extend, nameOutline]
  | _ => simp [withStep, node, Expr.outline_eq ⟨_, _⟩, Node.map, Node.outline, extend]

/-- A target with the value assigned to it. -/
def assignOutline (value target : Outline) : Outline := .branch "assign" [target, value]

/-! ### What is pending -/

/-- Nothing stands before a word at its own level. -/
def Clean : Level → Pending → Prop
  | .operand, _ | .suffixed, _ | .signed, _ => True
  | .product, p => p.product = none ∧ p.signs = 0
  | .sum, p => p.sum = none ∧ p.product = none ∧ p.signs = 0
  | .comparison, p | .assignment, p =>
    p.chain = [] ∧ p.sum = none ∧ p.product = none ∧ p.signs = 0

/-- With `p` before a word, `p'` and the operand `x` after it, the outline of
the word is `o`. -/
def Settles : Level → Pending → Outline → Pending → Outline → Prop
  | .operand, p, x, p', o | .suffixed, p, x, p', o => p' = p ∧ x = o
  | .signed, p, x, p', o => ∃ k, p' = { p with signs := p.signs + k } ∧ Pending.negated x k = o
  | .product, p, x, p', o =>
    p'.targets = p.targets ∧ p'.chain = p.chain ∧ p'.sum = p.sum ∧ p'.factor x = o
  | .sum, p, x, p', o => p'.targets = p.targets ∧ p'.chain = p.chain ∧ p'.term x = o
  | .comparison, p, x, p', o => p'.targets = p.targets ∧ p'.compared x = o
  | .assignment, p, x, p', o => p'.whole x = p.targets.foldl assignOutline o

/-- In front of a word, with brackets around it that leave room for `n` more,
the machine reads it, keeps the brackets, and settles for an outline. -/
def Runs (strict : Prop) (limit : ℕ) (l : Level) (n : ℕ) (w : List Token) (o : Outline) : Prop :=
  ∀ p brackets, (strict → brackets.length + n ≤ limit) → Clean l p →
    ∃ x p', Steps strict limit (.want p brackets) w (.hold x p' brackets) ∧ Settles l p x p' o

/-- A word is read as a whole. -/
def RunsWhole (strict : Prop) (limit n : ℕ) (w : List Token) (o : Outline) : Prop :=
  ∀ brackets, (strict → brackets.length + n ≤ limit) →
    ∃ x p', Steps strict limit (.want .nothing brackets) w (.hold x p' brackets) ∧ p'.whole x = o

variable {strict : Prop} {limit n : ℕ} {l : Level} {t c : Token} {u v w : List Token}
  {ws : List (List Token)} {o : Outline} {os : List Outline} {e : Expr} {br : List Bracket}

/-- What is read at the loosest level is read as a whole. -/
lemma Runs.whole (h : Runs strict limit .assignment n w o) : RunsWhole strict limit n w o := by
  intro br hbr
  obtain ⟨x, p', hs, hset⟩ := h .nothing br hbr ⟨rfl, rfl, rfl, rfl⟩
  exact ⟨x, p', hs, hset⟩

/-! ### Single tokens -/

/-- A token that opens no bracket and assigns nothing is admitted unless it is
too long. -/
lemma admits_of_short {q : State} (ho : t.kind.isOpening = false) (ha : t.kind ≠ .assign)
    (hl : strict → ¬ t.IsLongInteger) : Admits strict limit q t where
  depth := fun _ h => by
    rw [ho] at h
    cases h
  target := fun _ h => absurd h ha
  short := hl

/-- So is every token of a kind that is none of these. -/
lemma admits_plain {kind : Kind} {q : State} (ht : t.kind = kind) (ho : kind.isOpening = false)
    (ha : kind ≠ .assign) (hl : ∀ k, kind ≠ .literal k) : Admits strict limit q t :=
  admits_of_short (ht ▸ ho) (ht ▸ ha) fun _ => not_isLongInteger ht hl

/-- A bracket is admitted where there is room for it. -/
lemma admits_opening {q : State} (ht : t.kind.isOpening = true)
    (h : strict → q.brackets.length < limit) : Admits strict limit q t where
  depth := fun hs _ => h hs
  target := fun _ ha => by
    rw [ha] at ht
    cases ht
  short := fun _ hl => by
    rw [hl.1] at ht
    cases ht

/-- The kinds that end an item. -/
def EndsItem (kind : Kind) : Prop :=
  kind = .closeParen ∨ kind = .closeBracket ∨ kind = .comma ∨ kind = .semicolon

/-- What ends an item is always admitted. -/
lemma EndsItem.admits {q : State} (h : EndsItem t.kind) : Admits strict limit q t := by
  rcases h with h | h | h | h <;> exact admits_plain h rfl (by simp) (by simp)

/-- Behind an operand it ends the item that is pending. -/
lemma EndsItem.step_hold (h : EndsItem t.kind) (x : Outline) (p : Pending) (br : List Bracket) :
    stepUsual (.hold x p br) t = endItem t.kind (p.whole x) br := by
  rcases h with h | h | h | h <;> simp [stepHold, h]

/-- Where an item is wanted it ends the bracket, or an empty row. -/
lemma EndsItem.step_want (h : EndsItem t.kind) (br : List Bracket) :
    stepUsual (.want .nothing br) t = endEmpty t.kind br := by
  rcases h with h | h | h | h <;> simp [stepWant, h, Pending.isNothing, Pending.nothing]

/-! ### Lists -/

/-- An item is read with the token that ends it. -/
lemma RunsWhole.ended {q : State} (h : RunsWhole strict limit n w o)
    (hbr : strict → br.length + n ≤ limit) (ht : EndsItem t.kind)
    (hq : endItem t.kind o br = some q) : Steps strict limit (.want .nothing br) (w ++ [t]) q := by
  obtain ⟨x, p', hs, hx⟩ := h br hbr
  exact hs.append (steps_one ht.admits (by rw [ht.step_hold, hx, hq]))

/-- **A list of items is read item by item.** `mk` keeps the items of the
bracket, the last one first; `fin` is the state behind the token `c` that ends
the list. -/
lemma steps_list (mk : List Outline → Bracket) (fin : List Outline → State)
    (items : List Outline)
    (hcomma : ∀ o items, endItem .comma o (mk items :: br) =
      some (.want .nothing (mk (o :: items) :: br)))
    (hclose : ∀ o items, endItem c.kind o (mk items :: br) = some (fin (o :: items)))
    (hempty : ∀ o items, endEmpty c.kind (mk (o :: items) :: br) = some (fin (o :: items)))
    (hc : EndsItem c.kind) (hbr : strict → br.length + (n + 1) ≤ limit)
    (h : Listed .comma ws u) (hws : List.Forall₂ (RunsWhole strict limit n) ws os) :
    Steps strict limit (.want .nothing (mk items :: br)) (u ++ [c])
      (fin (os.reverse ++ items)) := by
  have hin : ∀ items, strict → (mk items :: br).length + n ≤ limit := fun items hs => by
    have := hbr hs
    rw [List.length_cons]
    omega
  have hct : ∀ t : Token, t.kind = .comma → EndsItem t.kind := fun t ht =>
    Or.inr (Or.inr (Or.inl ht))
  induction h generalizing os items with
  | last w =>
      obtain ⟨o, os, ho, hos, rfl⟩ := List.forall₂_cons_left_iff.mp hws
      obtain rfl := List.forall₂_nil_left_iff.mp hos
      exact ho.ended (hin items) hc (hclose o items)
  | @trailing w t ht =>
      obtain ⟨o, os, ho, hos, rfl⟩ := List.forall₂_cons_left_iff.mp hws
      obtain rfl := List.forall₂_nil_left_iff.mp hos
      have hitem := ho.ended (hin items) (hct t ht) (by rw [ht]; exact hcomma o items)
      have hlast : stepUsual (.want .nothing (mk (o :: items) :: br)) c =
          some (fin (o :: items)) := by
        rw [hc.step_want, hempty]
      exact hitem.append (steps_one hc.admits hlast)
  | @more w t ht ws u _ ih =>
      obtain ⟨o, os, ho, hos, rfl⟩ := List.forall₂_cons_left_iff.mp hws
      have hitem := ho.ended (hin items) (hct t ht) (by rw [ht]; exact hcomma o items)
      have hrest : Steps strict limit (.want .nothing (mk (o :: items) :: br)) (u ++ [c])
          (fin (os.reverse ++ o :: items)) := ih _ hos
      simpa using hitem.append hrest

/-- The outlines of the items of a row. -/
def RunsRow (strict : Prop) (limit n : ℕ) (w : List Token) (items : List Outline) : Prop :=
  ∃ vs, Listed .comma vs w ∧ List.Forall₂ (RunsWhole strict limit n) vs items

lemma RunsRow.ne_nil {items : List Outline} (h : RunsRow strict limit n w items) : items ≠ [] := by
  obtain ⟨vs, hvs, hitems⟩ := h
  rintro rfl
  exact hvs.ne_nil (List.forall₂_nil_right_iff.mp hitems)

/-- A row is read with the token that ends it. -/
lemma RunsRow.ended {items : List Outline} (h : RunsRow strict limit n w items) (outer : Pending)
    (rows : List Outline) (fin : List Outline → State)
    (hbr : strict → br.length + (n + 1) ≤ limit)
    (ht : t.kind = .closeBracket ∨ t.kind = .semicolon)
    (hclose : ∀ o items, endItem t.kind o (.array outer rows items :: br) = some (fin (o :: items)))
    (hempty : ∀ o items,
      endEmpty t.kind (.array outer rows (o :: items) :: br) = some (fin (o :: items))) :
    Steps strict limit (.want .nothing (.array outer rows [] :: br)) (w ++ [t])
      (fin items.reverse) := by
  obtain ⟨vs, hvs, hitems⟩ := h
  have hc : EndsItem t.kind := by
    rcases ht with h | h
    · exact Or.inr (Or.inl h)
    · exact Or.inr (Or.inr (Or.inr h))
  have hs := steps_list (.array outer rows) fin [] (fun o items => by simp [endItem]) hclose hempty
    hc hbr hvs hitems
  rwa [List.append_nil] at hs

lemma closeRow_reverse {rows items : List Outline} (h : items ≠ []) :
    closeRow rows items.reverse = .branch "row" items :: rows := by
  simp [closeRow, h]

/-- **The rows of an array are read one after another.** -/
lemma steps_rows {outer : Pending} (rows : List Outline) {rs : List (List Outline)}
    (hbr : strict → br.length + (n + 1) ≤ limit) (hc : c.kind = .closeBracket)
    (h : Listed .semicolon ws u) (hws : List.Forall₂ (RunsRow strict limit n) ws rs) :
    Steps strict limit (.want .nothing (.array outer rows [] :: br)) (u ++ [c])
      (.hold (.branch "array" (rows.reverse ++ rs.map (.branch "row"))) outer br) := by
  have hce : EndsItem c.kind := Or.inr (Or.inl hc)
  -- a row with the semicolon after it
  have hrow : ∀ {rows w r} {t : Token}, RunsRow strict limit n w r → t.kind = .semicolon →
      Steps strict limit (.want .nothing (.array outer rows [] :: br)) (w ++ [t])
        (.want .nothing (.array outer (.branch "row" r :: rows) [] :: br)) := by
    intro rows w r t hr ht
    have hs := hr.ended outer rows
      (fun items => .want .nothing (.array outer (closeRow rows items) [] :: br)) hbr (Or.inr ht)
      (fun o items => by simp [endItem, ht]) (fun o items => by simp [endEmpty, ht])
    rwa [closeRow_reverse hr.ne_nil] at hs
  induction h generalizing rs rows with
  | last w =>
      obtain ⟨r, rs, hr, hrs, rfl⟩ := List.forall₂_cons_left_iff.mp hws
      obtain rfl := List.forall₂_nil_left_iff.mp hrs
      have hs := hr.ended outer rows (fun items => .hold (arrayOutline rows items) outer br) hbr
        (Or.inl hc) (fun o items => by simp [endItem, hc]) (fun o items => by simp [endEmpty, hc])
      simpa [arrayOutline, closeRow_reverse hr.ne_nil] using hs
  | @trailing w t ht =>
      obtain ⟨r, rs, hr, hrs, rfl⟩ := List.forall₂_cons_left_iff.mp hws
      obtain rfl := List.forall₂_nil_left_iff.mp hrs
      refine (hrow hr ht).append (steps_one hce.admits ?_)
      rw [hce.step_want, hc]
      simp [endEmpty, arrayOutline, closeRow]
  | @more w t ht ws u _ ih =>
      obtain ⟨r, rs, hr, hrs, rfl⟩ := List.forall₂_cons_left_iff.mp hws
      simpa using (hrow hr ht).append (ih (.branch "row" r :: rows) hrs)

/-! ### Derivations -/

/-- Words that are read as wholes, with the outlines of their trees. -/
lemma runsWhole_phrases {args : List Phrase}
    (ha : ∀ a ∈ args, RunsWhole strict limit n a.tokens (Expr.outline a.tree)) :
    List.Forall₂ (RunsWhole strict limit n) (args.map Phrase.tokens)
      ((args.map Phrase.tree).map Expr.outline) := by
  rw [List.map_map, List.forall₂_map_left_iff, List.forall₂_map_right_iff, List.forall₂_same]
  exact ha

/-- Rows whose items are read as wholes, with the outlines of their trees. -/
lemma runsRow_rows {rows : List Row}
    (hr : ∀ r ∈ rows, Listed .comma (r.items.map Phrase.tokens) r.tokens)
    (ha : ∀ r ∈ rows, ∀ a ∈ r.items,
      RunsWhole strict limit n a.tokens (Expr.outline a.tree)) :
    List.Forall₂ (RunsRow strict limit n) (rows.map Row.tokens)
      ((rows.map Row.trees).map fun row => row.map Expr.outline) := by
  rw [List.map_map, List.forall₂_map_left_iff, List.forall₂_map_right_iff, List.forall₂_same]
  exact fun r h => ⟨_, hr r h, runsWhole_phrases (ha r h)⟩

/-- A minus sign is kept until its operand is there. -/
lemma runs_negate (ht : t.kind = .arith .minus) (h : Runs strict limit .signed n w o) :
    Runs strict limit .signed n (t :: w) (.branch "neg" [o]) := by
  intro p br hbr _
  obtain ⟨x, p', hs, k, rfl, rfl⟩ := h { p with signs := p.signs + 1 } br hbr trivial
  have hstep : stepUsual (.want p br) t = some (.want { p with signs := p.signs + 1 } br) := by
    simp [stepWant, ht]
  refine ⟨x, _, .cons (admits_plain ht rfl (by simp) (by simp)) hstep hs, k + 1, ?_, rfl⟩
  simp only [Pending.mk.injEq, true_and]
  omega

/-- No sign is pending. -/
lemma runs_unsigned (h : Runs strict limit .suffixed n w o) : Runs strict limit .signed n w o := by
  intro p br hbr hp
  obtain ⟨x, p', hs, rfl, rfl⟩ := h p br hbr hp
  exact ⟨x, p', hs, 0, rfl, rfl⟩

/-- A factor alone is a product. -/
lemma runs_factor (h : Runs strict limit .signed n w o) : Runs strict limit .product n w o := by
  intro p br hbr ⟨hp, hsigns⟩
  obtain ⟨x, p', hs, k, rfl, rfl⟩ := h p br hbr trivial
  exact ⟨x, _, hs, rfl, rfl, rfl, by simp [Pending.factor, hp, hsigns, Pending.combine]⟩

/-- The left side is kept with its operator until the right side is there. -/
lemma runs_multiply {left right : Outline} {op : ArithOp} (ht : t.kind.isProductOp op)
    (hv : Runs strict limit .product n v left) (hw : Runs strict limit .signed n w right) :
    Runs strict limit .product n (v ++ t :: w) (.branch "binop" [left, op.outline, right]) := by
  intro p br hbr hclean
  obtain ⟨x, p₁, hs, h1, h2, h3, h4⟩ := hv p br hbr hclean
  have hstep : stepUsual (.hold x p₁ br) t = some (.want (p₁.afterFactor x op.outline) br) := by
    rcases ht with ⟨hk, rfl | rfl⟩ <;> simp [stepHold, hk, leaf_usual_arith hk]
  obtain ⟨y, p', hs', k, rfl, rfl⟩ := hw (p₁.afterFactor x op.outline) br hbr trivial
  have hk := ht.1
  refine ⟨y, _, hs.append (.cons (admits_plain hk rfl (by simp) (by simp)) hstep hs'),
    h1, h2, h3, ?_⟩
  simp [Pending.factor, Pending.afterFactor, Pending.combine, ← h4]

/-- A product alone is a sum. -/
lemma runs_term (h : Runs strict limit .product n w o) : Runs strict limit .sum n w o := by
  intro p br hbr ⟨hsum, hp⟩
  obtain ⟨x, p', hs, h1, h2, h3, h4⟩ := h p br hbr hp
  exact ⟨x, p', hs, h1, h2, by simp [Pending.term, h3, hsum, h4, Pending.combine]⟩

/-- The same of an operator of a sum. -/
lemma runs_add {left right : Outline} {op : ArithOp} (ht : t.kind.isSumOp op)
    (hv : Runs strict limit .sum n v left) (hw : Runs strict limit .product n w right) :
    Runs strict limit .sum n (v ++ t :: w) (.branch "binop" [left, op.outline, right]) := by
  intro p br hbr hclean
  obtain ⟨x, p₁, hs, h1, h2, h3⟩ := hv p br hbr hclean
  have hstep : stepUsual (.hold x p₁ br) t = some (.want (p₁.afterTerm x op.outline) br) := by
    rcases ht with ⟨hk, rfl | rfl⟩ <;> simp [stepHold, hk, leaf_usual_arith hk]
  obtain ⟨y, p', hs', h4, h5, h6, h7⟩ := hw (p₁.afterTerm x op.outline) br hbr ⟨rfl, rfl⟩
  have hk := ht.1
  refine ⟨y, p', hs.append (.cons (admits_plain hk rfl (by simp) (by simp)) hstep hs'),
    h4.trans h1, h5.trans h2, ?_⟩
  rw [Pending.term, h6, h7, ← h3]
  rfl

/-- A sum alone is a comparison. -/
lemma runs_comparand (h : Runs strict limit .sum n w o) : Runs strict limit .comparison n w o := by
  intro p br hbr ⟨hchain, hp⟩
  obtain ⟨x, p', hs, h1, h2, h3⟩ := h p br hbr hp
  exact ⟨x, p', hs, h1, by simp [Pending.compared, h2, hchain, h3]⟩

/-- The operators and operands of a chain of comparisons, as they are listed in
its outline. -/
def linkOutlines (links : List (Link CompareOp)) : List Outline :=
  links.flatMap fun l => [l.op.outline, Expr.outline l.right.tree]

/-- Links are read one after another onto the chain of what is pending. -/
lemma steps_links {links : List (Link CompareOp)} (hbr : strict → br.length + n ≤ limit)
    (hop : ∀ l ∈ links, l.token.kind.isCompareOp l.op)
    (hl : ∀ l ∈ links,
      Runs strict limit .sum n l.right.tokens (Expr.outline l.right.tree))
    (x : Outline) (p : Pending) :
    ∃ y p', Steps strict limit (.hold x p br) (links.flatMap Link.tokens) (.hold y p' br) ∧
      p'.targets = p.targets ∧
      (p'.term y :: p'.chain).reverse = (p.term x :: p.chain).reverse ++ linkOutlines links := by
  induction links generalizing x p with
  | nil => exact ⟨x, p, .nil _, rfl, by simp [linkOutlines]⟩
  | cons l links ih =>
      obtain ⟨hop, hops⟩ := List.forall_mem_cons.mp hop
      obtain ⟨hl, hls⟩ := List.forall_mem_cons.mp hl
      have hk : l.token.kind = .compare l.op := hop
      have hstep : stepUsual (.hold x p br) l.token =
          some (.want (p.afterComparand x l.op.outline) br) := by
        simp [stepHold, hk, leaf_usual_compare hk]
      obtain ⟨y, p₁, hs, h1, h2, h3⟩ := hl (p.afterComparand x l.op.outline) br hbr ⟨rfl, rfl, rfl⟩
      obtain ⟨z, p', hs', h4, h5⟩ := ih hops hls y p₁
      refine ⟨z, p', ?_, h4.trans h1, ?_⟩
      · rw [List.flatMap_cons, Link.tokens]
        exact (Steps.cons (admits_plain hk rfl (by simp) (by simp)) hstep hs).append hs'
      · rw [h5, h3, h2]
        simp [Pending.afterComparand, linkOutlines]

/-- The operands are kept in a chain until the last one is there. -/
lemma runs_compare {first : Outline} {links : List (Link CompareOp)} (hne : links ≠ [])
    (hw : Runs strict limit .sum n w first) (hop : ∀ l ∈ links, l.token.kind.isCompareOp l.op)
    (hl : ∀ l ∈ links, Runs strict limit .sum n l.right.tokens (Expr.outline l.right.tree)) :
    Runs strict limit .comparison n (w ++ links.flatMap Link.tokens)
      (.branch "comparison" (first :: linkOutlines links)) := by
  intro p br hbr ⟨hchain, hp⟩
  obtain ⟨x, p₁, hs, h1, h2, h3⟩ := hw p br hbr hp
  obtain ⟨y, p', hs', h4, h5⟩ := steps_links hbr hop hl x p₁
  refine ⟨y, p', hs.append hs', h4.trans h1, ?_⟩
  rw [h2, hchain, h3, List.reverse_singleton, List.singleton_append] at h5
  have hc : p'.chain ≠ [] := by
    intro hc
    rw [hc] at h5
    cases links with
    | nil => exact hne rfl
    | cons l links => simp [linkOutlines] at h5
  rw [Pending.compared, if_neg (by simpa using hc), h5]

/-- A comparison alone is an assignment. -/
lemma runs_value (h : Runs strict limit .comparison n w o) :
    Runs strict limit .assignment n w o := by
  intro p br hbr hp
  obtain ⟨x, p', hs, h1, h2⟩ := h p br hbr hp
  refine ⟨x, p', hs, ?_⟩
  rw [Settles, Pending.whole, h1, h2]
  rfl

/-- The target is kept until its value is there. -/
lemma runs_assign {target value : Outline} (ht : t.kind = .assign)
    (htarget : strict → target.IsTarget) (hv : Runs strict limit .comparison n v target)
    (hw : Runs strict limit .assignment n w value) :
    Runs strict limit .assignment n (v ++ t :: w) (.branch "assign" [target, value]) := by
  intro p br hbr hp
  obtain ⟨x, p₁, hs, h1, h2⟩ := hv p br hbr hp
  have hstep : stepUsual (.hold x p₁ br) t = some (.want (p₁.afterTarget x) br) := by
    simp [stepHold, ht]
  have hadmits : Admits strict limit (.hold x p₁ br) t := by
    refine ⟨fun _ h => by simp [ht, Kind.isOpening] at h, fun hstrict _ y p' br' hq => ?_,
      fun _ => not_isLongInteger ht (by simp)⟩
    obtain ⟨rfl, rfl, -⟩ := State.hold.inj hq
    rw [h2]
    exact htarget hstrict
  obtain ⟨y, p', hs', h3⟩ := hw (p₁.afterTarget x) br hbr ⟨rfl, rfl, rfl, rfl⟩
  refine ⟨y, p', hs.append (.cons hadmits hstep hs'), ?_⟩
  rw [Settles] at h3 ⊢
  rw [h3, Pending.afterTarget, h1, h2]
  rfl

/-- Under brackets that leave room for one more, an opening bracket is
admitted. -/
lemma admits_bracket {q : State} (hq : q.brackets = br) (hbr : strict → br.length + (n + 1) ≤ limit)
    (ht : t.kind.isOpening = true) : Admits strict limit q t := by
  refine admits_opening ht fun hs => ?_
  have := hbr hs
  rw [hq]
  omega

/-- The arguments of a call are read. -/
lemma steps_call {x : Outline} {p : Pending} {o c : Token} (ho : o.kind = .openParen)
    (hc : c.kind = .closeParen) (hbr : strict → br.length + (n + 1) ≤ limit)
    (hu : ListedOrNone .comma ws u) (hws : List.Forall₂ (RunsWhole strict limit n) ws os) :
    Steps strict limit (.hold x p br) (o :: u ++ [c])
      (.hold (.branch "call" [x, .branch "args" os]) p br) := by
  have hopen : stepUsual (.hold x p br) o = some (.want .nothing (.args p x [] :: br)) := by
    simp [stepHold, ho]
  have hadmits : Admits strict limit (.hold x p br) o :=
    admits_bracket rfl hbr (by rw [ho]; rfl)
  have hce : EndsItem c.kind := Or.inl hc
  refine .cons hadmits hopen ?_
  rcases hu with ⟨rfl, rfl⟩ | hu
  · obtain rfl := List.forall₂_nil_left_iff.mp hws
    refine steps_one hce.admits ?_
    rw [hce.step_want, hc]
    simp [endEmpty, callOutline]
  · have hlist := steps_list (.args p x) (fun items => .hold (callOutline x items) p br) []
      (fun o items => by simp [endItem]) (fun o items => by simp [endItem, hc])
      (fun o items => by simp [endEmpty, hc]) hce hbr hu hws
    simpa [callOutline] using hlist

/-- A call takes the operand in hand as its callee. -/
lemma runs_call {callee : Outline} {o c : Token} (ho : o.kind = .openParen)
    (hc : c.kind = .closeParen) (hv : Runs strict limit .suffixed (n + 1) v callee)
    (hu : ListedOrNone .comma ws u) (hws : List.Forall₂ (RunsWhole strict limit n) ws os) :
    Runs strict limit .suffixed (n + 1) (v ++ (o :: u ++ [c]))
      (.branch "call" [callee, .branch "args" os]) := by
  intro p br hbr _
  obtain ⟨x, p', hs, rfl, rfl⟩ := hv p br hbr trivial
  exact ⟨_, p', hs.append (steps_call ho hc hbr hu hws), rfl, rfl⟩

/-- An index is put behind the operand in hand. -/
lemma runs_index {base : Outline} {o c : Token} (ho : o.kind = .openBracket)
    (hc : c.kind = .closeBracket) (hv : Runs strict limit .suffixed (n + 1) v base)
    (hu : Listed .comma ws u) (hws : List.Forall₂ (RunsWhole strict limit n) ws os) :
    Runs strict limit .suffixed (n + 1) (v ++ (o :: u ++ [c]))
      (extend base (.branch "index" os)) := by
  intro p br hbr _
  obtain ⟨x, p', hs, rfl, rfl⟩ := hv p br hbr trivial
  have hopen : stepUsual (.hold x p' br) o = some (.want .nothing (.subscripts p' x [] :: br)) := by
    simp [stepHold, ho]
  have hadmits : Admits strict limit (.hold x p' br) o :=
    admits_bracket rfl hbr (by rw [ho]; rfl)
  have hlist := steps_list (.subscripts p' x) (fun items => .hold (indexOutline x items) p' br) []
    (fun o items => by simp [endItem]) (fun o items => by simp [endItem, hc])
    (fun o items => by simp [endEmpty, hc]) (Or.inr (Or.inl hc)) hbr hu hws
  rw [List.append_nil, indexOutline, List.reverse_reverse] at hlist
  exact ⟨_, p', hs.append (.cons hadmits hopen hlist), rfl, rfl⟩

/-- So is a field. -/
lemma runs_field {base : Outline} {d : Token} (hd : d.kind = .dot) (ht : t.kind = .name)
    (hv : Runs strict limit .suffixed n v base) :
    Runs strict limit .suffixed n (v ++ [d, t])
      (extend base (.branch "field" [nameOutline (t.text.getD "")])) := by
  intro p br hbr _
  obtain ⟨x, p', hs, rfl, rfl⟩ := hv p br hbr trivial
  have hdot : stepUsual (.hold x p' br) d = some (.field x p' br) := by simp [stepHold, hd]
  have hname : stepUsual (.field x p' br) t =
      some (.hold (extend x (.branch "field" [leaf t])) p' br) := by simp [ht, fieldOutline]
  have hsuffix : Steps strict limit (.hold x p' br) [d, t]
      (.hold (extend x (.branch "field" [leaf t])) p' br) :=
    .cons (admits_plain hd rfl (by simp) (by simp)) hdot
      (steps_one (admits_plain ht rfl (by simp) (by simp)) hname)
  refine ⟨_, p', hs.append hsuffix, rfl, ?_⟩
  rw [leaf, ht]
  rfl

/-- A single token is held as an operand. -/
lemma runs_operand {o : Outline} (ho : t.kind.isOpening = false) (ha : t.kind ≠ .assign)
    (hl : strict → ¬ t.IsLongInteger) (h : ∀ p br, stepUsual (.want p br) t = some (.hold o p br)) :
    Runs strict limit .operand n [t] o :=
  fun p br _ _ => ⟨o, p, steps_one (admits_of_short ho ha hl) (h p br), rfl, rfl⟩

/-- What was pending is kept outside the parenthesis. -/
lemma runs_group {inner : Outline} {o c : Token} (ho : o.kind = .openParen)
    (hc : c.kind = .closeParen) (hu : RunsWhole strict limit n u inner) :
    Runs strict limit .operand (n + 1) (o :: u ++ [c]) (.branch "group" [inner]) := by
  intro p br hbr _
  have hopen : stepUsual (.want p br) o = some (.want .nothing (.group p :: br)) := by
    simp [stepWant, ho]
  have hroom : strict → (Bracket.group p :: br).length + n ≤ limit := fun hs => by
    have := hbr hs
    rw [List.length_cons]
    omega
  have hinside : Steps strict limit (.want .nothing (.group p :: br)) (u ++ [c])
      (.hold (.branch "group" [inner]) p br) :=
    hu.ended hroom (Or.inl hc) (by simp [endItem, hc])
  exact ⟨_, p, .cons (admits_bracket rfl hbr (by rw [ho]; rfl)) hopen hinside, rfl, rfl⟩

/-- The rows of an array are read. -/
lemma steps_array {p : Pending} {o c : Token} {rs : List (List Outline)}
    (ho : o.kind = .openBracket) (hc : c.kind = .closeBracket)
    (hbr : strict → br.length + (n + 1) ≤ limit) (hu : ListedOrNone .semicolon ws u)
    (hws : List.Forall₂ (RunsRow strict limit n) ws rs) :
    Steps strict limit (.want p br) (o :: u ++ [c])
      (.hold (.branch "array" (rs.map (.branch "row"))) p br) := by
  have hopen : stepUsual (.want p br) o = some (.want .nothing (.array p [] [] :: br)) := by
    simp [stepWant, ho]
  have hce : EndsItem c.kind := Or.inr (Or.inl hc)
  refine .cons (admits_bracket rfl hbr (by rw [ho]; rfl)) hopen ?_
  rcases hu with ⟨rfl, rfl⟩ | hu
  · obtain rfl := List.forall₂_nil_left_iff.mp hws
    refine steps_one hce.admits ?_
    rw [hce.step_want, hc]
    simp [endEmpty, arrayOutline, closeRow]
  · simpa using steps_rows [] hbr hc hu hws

/-- **The machine reads every derivation that fits**, and settles for the
outline of its tree. -/
theorem runs_of_derives (h : Derives l w e) (hf : Fits strict n w e) :
    Runs strict limit l n w (Expr.outline e) := by
  induction h generalizing n with
  | value _ ih => exact runs_value (ih hf)
  | comparand _ ih => exact runs_comparand (ih hf)
  | term _ ih => exact runs_term (ih hf)
  | factor _ ih => exact runs_factor (ih hf)
  | unsigned _ ih => exact runs_unsigned (ih hf)
  | bare _ ih => exact ih hf
  | assign hv ht _ ihv ihw =>
      obtain ⟨htarget, hfv, hfw⟩ := (fits_assign hv.balanced ht).mp hf
      exact runs_assign ht (fun hs => (isTarget_outline_iff _).mpr (htarget hs)) (ihv hfv) (ihw hfw)
  | @compare w first links hw hne hop hl ihw ihl =>
      obtain ⟨hfw, hfl⟩ := (fits_comparison hw.balanced hop fun l h => (hl l h).balanced).mp hf
      have hlinks : linkOutlines links = ((links.map Link.side).map fun link =>
          (link.1, Expr.outline link.2)).flatMap fun link => [link.1.outline, link.2] := by
        simp [linkOutlines, List.flatMap_map, Link.side]
      rw [outline_node, Node.map, Node.outline, ← hlinks]
      exact runs_compare hne (ihw hfw) hop fun l h => ihl l h (hfl l h)
  | add hv ht _ ihv ihw =>
      obtain ⟨hfv, hfw⟩ := (fits_arith hv.balanced (isNeutral_arith ht.1)).mp hf
      exact runs_add ht (ihv hfv) (ihw hfw)
  | multiply hv ht _ ihv ihw =>
      obtain ⟨hfv, hfw⟩ := (fits_arith hv.balanced (isNeutral_arith ht.1)).mp hf
      exact runs_multiply ht (ihv hfv) (ihw hfw)
  | negate ht _ ih => exact runs_negate ht (ih ((fits_negate ht).mp hf))
  | call hv ho hc hu ha ihv iha =>
      obtain ⟨hfv, m, rfl, hfa⟩ :=
        (fits_call hv.balanced ho hc hu fun a h => (ha a h).balanced).mp hf
      rw [outline_node]
      exact runs_call ho hc (ihv hfv) hu (runsWhole_phrases fun a h => (iha a h (hfa a h)).whole)
  | index hv ho hc hu ha ihv iha =>
      obtain ⟨hfv, m, rfl, hfa⟩ :=
        (fits_index hv.balanced ho hc hu fun a h => (ha a h).balanced).mp hf
      rw [outline_withStep, outline_node]
      exact runs_index ho hc (ihv hfv) hu (runsWhole_phrases fun a h => (iha a h (hfa a h)).whole)
  | field hv hd ht ihv =>
      rw [outline_withStep]
      exact runs_field hd ht (ihv ((fits_field hv.balanced hd ht).mp hf))
  | @literal t kind ht =>
      refine runs_operand (by rw [ht]; rfl) (by simp [ht])
        (fun hs => hf.bounds.short hs t (by simp)) fun p br => ?_
      simp only [stepUsual_want, stepWant, ht, leaf]
      rfl
  | @name t ht =>
      refine runs_operand (by rw [ht]; rfl) (by simp [ht])
        (fun _ => not_isLongInteger ht (by simp)) fun p br => ?_
      simp only [stepUsual_want, stepWant, ht, leaf]
      rfl
  | group ho hc hu ih =>
      obtain ⟨m, rfl, hm⟩ := (fits_group ho hc hu.balanced).mp hf
      exact runs_group ho hc (ih hm).whole
  | @array u o c rows ho hc hu hr ha ih =>
      obtain ⟨m, rfl, hm⟩ := (fits_array ho hc hu hr fun r h a h' => (ha r h a h').balanced).mp hf
      have hrows := runsRow_rows hr fun r h a h' => (ih r h a h' (hm r h a h')).whole
      rw [outline_node]
      exact fun p br hbr _ => ⟨_, p, steps_array ho hc hbr hu hrows, rfl, rfl⟩

/-- A derivation is read as a whole, if nothing is asked of it. -/
lemma runsWhole_of_derives (h : Derives .assignment w e) :
    RunsWhole False limit n w (Expr.outline e) :=
  fun br _ => (runs_of_derives h h.within.2).whole br False.elim

end Reference

end ArrayExpr
