/-
Trees in two layouts.

* `Tree.relabel`: a tree with its spans replaced; what does not look at spans
  stays as it is, and the walk meets the same nodes;
* `Layouts.Trees`: trees that differ only in their spans, which correspond;
* `Layouts.Trees.group` and those after it: every way to make a tree from trees
  keeps them related.
-/
import ArrayExpr.Proofs.Layout.Basic
import ArrayExpr.Parser.Expression
import ArrayExpr.Expr.Walk
import ArrayExpr.Expr.Shape

namespace ArrayExpr

namespace Tree

variable {ν σ τ : Type}

/-- A tree with its spans replaced. -/
def relabel (f : σ → τ) (t : Tree ν σ) : Tree ν τ := t.fold fun n s => ⟨n, f s⟩

/-- Spans are replaced node by node. -/
lemma relabel_eq (f : σ → τ) (t : Tree ν σ) :
    t.relabel f = ⟨t.node.map id (relabel f), f t.span⟩ := by
  conv => lhs; unfold relabel
  rw [fold_eq]
  rfl

@[simp] lemma relabel_span (f : σ → τ) (t : Tree ν σ) : (t.relabel f).span = f t.span := by
  rw [relabel_eq]

/-- The children are those of the tree, relabelled. -/
@[simp] lemma children_relabel (f : σ → τ) (t : Tree ν σ) :
    (t.relabel f).children = t.children.map (relabel f) := by
  rw [relabel_eq, children, Node.children_map]
  rfl

/-- Two maps of the children of a node in a row. -/
lemma map_map_node {χ χ' χ'' : Type} (g : χ → χ') (k : χ' → χ'') (n : Node ν χ) :
    (n.map id g).map id k = n.map id (k ∘ g) := by
  cases n <;> simp [Node.map]

/-- Replacements that agree on the children of a node give the same node. -/
lemma map_congr_node {χ χ' : Type} {g k : χ → χ'} {n : Node ν χ}
    (h : ∀ c ∈ n.children, g c = k c) : n.map id g = n.map id k := by
  cases n with
  | array rows =>
      refine congrArg Node.array (List.map_congr_left fun row hrow => ?_)
      exact List.map_congr_left fun c hc => h c (List.mem_flatten.mpr ⟨row, hrow, hc⟩)
  | comparison first links =>
      simp only [Node.children, List.mem_cons, forall_eq_or_imp, List.mem_map] at h
      rw [Node.map, Node.map, h.1]
      exact congrArg (Node.comparison _) (List.map_congr_left fun link hlink =>
        congrArg (Prod.mk link.1) (h.2 link.2 ⟨link, hlink, rfl⟩))
  | _ => simp_all [Node.map, Node.children]

/-- A fold that does not look at spans is the same after they are replaced. -/
lemma fold_relabel {β : Type} (g : Node ν β → β) (f : σ → τ) (t : Tree ν σ) :
    (t.relabel f).fold (fun n _ => g n) = t.fold fun n _ => g n := by
  induction t using induction_children with
  | step t ih =>
    rw [fold_eq, relabel_eq, fold_eq _ t, map_map_node]
    exact congrArg g (map_congr_node ih)

/-- The walk over a tree with its spans replaced meets the same nodes. -/
lemma walkFrom_relabel (f : σ → τ) (stack visited : List (Tree ν σ)) :
    walkFrom (stack.map (relabel f)) (visited.map (relabel f)) =
      (walkFrom stack visited).map (relabel f) := by
  induction stack, visited using walkFrom.induct with
  | case1 visited => simp [walkFrom]
  | case2 visited t rest ih =>
      rw [List.map_cons, walkFrom, walkFrom, ← ih, children_relabel, List.map_append,
        List.map_cons]

/-- A walk meets the same nodes under other spans. -/
lemma walk_relabel (f : σ → τ) (t : Tree ν σ) :
    (t.relabel f).walk = t.walk.map (relabel f) :=
  walkFrom_relabel f [t] []

end Tree

namespace Layouts

/-- Corresponding spans, as labels of a tree. -/
abbrev SpanPair (L : Layouts) : Type := {p : Span × Span // L.Spans p.1 p.2}

/-- A tree with corresponding spans, as the first layout has it. -/
def firstOf {L : Layouts} (t : Tree Literal L.SpanPair) : Expr := t.relabel fun p => p.val.1

/-- A tree with corresponding spans, as the second layout has it. -/
def secondOf {L : Layouts} (t : Tree Literal L.SpanPair) : Expr := t.relabel fun p => p.val.2

variable (L : Layouts)

/-- One tree in both layouts. -/
def Trees (e e' : Expr) : Prop :=
  ∃ t : Tree Literal L.SpanPair, firstOf t = e ∧ secondOf t = e'

variable {L} {e e' f f' : Expr} {es es' : List Expr} {sp sp' : Span}

/-! ### What related trees have in common -/

/-- Trees with matched spans have matched spans at their roots. -/
lemma Trees.spans (h : L.Trees e e') : L.Spans e.span e'.span := by
  obtain ⟨t, rfl, rfl⟩ := h
  rw [firstOf, secondOf, Tree.relabel_span, Tree.relabel_span]
  exact t.span.property

/-- They have one shape. -/
lemma Trees.shape_eq (h : L.Trees e e') : e.shape = e'.shape := by
  obtain ⟨t, rfl, rfl⟩ := h
  exact (Tree.fold_relabel _ _ t).trans (Tree.fold_relabel _ _ t).symm

/-- One of them is a target if the other is. -/
lemma Trees.isAssignable_eq (h : L.Trees e e') : e.isAssignable = e'.isAssignable := by
  obtain ⟨t, rfl, rfl⟩ := h
  exact (Tree.fold_relabel _ _ t).trans (Tree.fold_relabel _ _ t).symm

/-- The walks over related trees meet related nodes. -/
lemma Trees.walk (h : L.Trees e e') : List.Forall₂ L.Trees e.walk e'.walk := by
  obtain ⟨t, rfl, rfl⟩ := h
  rw [firstOf, secondOf, Tree.walk_relabel, Tree.walk_relabel, List.forall₂_map_left_iff,
    List.forall₂_map_right_iff, List.forall₂_same]
  exact fun n _ => ⟨n, rfl, rfl⟩

/-! ### Trees from trees -/

/-- A form over trees in both layouts. -/
lemma trees_node (n : Node Literal (Tree Literal L.SpanPair)) (hs : L.Spans sp sp') :
    L.Trees ⟨n.map id firstOf, sp⟩ ⟨n.map id secondOf, sp'⟩ :=
  ⟨⟨n, ⟨(sp, sp'), hs⟩⟩, Tree.relabel_eq _ _, Tree.relabel_eq _ _⟩

/-- Lists of related trees are one list of trees in both layouts. -/
lemma exists_list (h : List.Forall₂ L.Trees es es') :
    ∃ ts : List (Tree Literal L.SpanPair), ts.map firstOf = es ∧ ts.map secondOf = es' := by
  induction h with
  | nil => exact ⟨[], rfl, rfl⟩
  | cons h _ ih =>
      obtain ⟨t, rfl, rfl⟩ := h
      obtain ⟨ts, rfl, rfl⟩ := ih
      exact ⟨t :: ts, rfl, rfl⟩

/-- Rows of matched trees come from rows of trees with pairs of spans. -/
lemma exists_rows {rows rows' : List (List Expr)}
    (h : List.Forall₂ (List.Forall₂ L.Trees) rows rows') :
    ∃ ts : List (List (Tree Literal L.SpanPair)),
      ts.map (·.map firstOf) = rows ∧ ts.map (·.map secondOf) = rows' := by
  induction h with
  | nil => exact ⟨[], rfl, rfl⟩
  | cons h _ ih =>
      obtain ⟨t, rfl, rfl⟩ := exists_list h
      obtain ⟨ts, rfl, rfl⟩ := ih
      exact ⟨t :: ts, rfl, rfl⟩

/-- A literal with matched spans. -/
lemma trees_literal (l : Literal) (hs : L.Spans sp sp') :
    L.Trees ⟨.literal l, sp⟩ ⟨.literal l, sp'⟩ :=
  trees_node (.literal l) hs

/-- A name with matched spans. -/
lemma trees_name (s : String) (hs : L.Spans sp sp') : L.Trees ⟨.name s, sp⟩ ⟨.name s, sp'⟩ :=
  trees_node (.name s) hs

/-- A field with matched spans. -/
lemma trees_field (s : String) (hs : L.Spans sp sp') : L.Trees ⟨.field s, sp⟩ ⟨.field s, sp'⟩ :=
  trees_node (.field s) hs

/-- An expression in parentheses. -/
lemma Trees.group (h : L.Trees e e') (hs : L.Spans sp sp') :
    L.Trees ⟨.group e, sp⟩ ⟨.group e', sp'⟩ := by
  obtain ⟨t, rfl, rfl⟩ := h
  exact trees_node (.group t) hs

/-- An array of matched rows. -/
lemma trees_array {rows rows' : List (List Expr)}
    (h : List.Forall₂ (List.Forall₂ L.Trees) rows rows') (hs : L.Spans sp sp') :
    L.Trees ⟨.array rows, sp⟩ ⟨.array rows', sp'⟩ := by
  obtain ⟨ts, rfl, rfl⟩ := exists_rows h
  exact trees_node (.array ts) hs

/-- Matched subscripts. -/
lemma trees_index (h : List.Forall₂ L.Trees es es') (hs : L.Spans sp sp') :
    L.Trees ⟨.index es, sp⟩ ⟨.index es', sp'⟩ := by
  obtain ⟨ts, rfl, rfl⟩ := exists_list h
  exact trees_node (.index ts) hs

/-- A call of matched trees. -/
lemma Trees.call (h : L.Trees e e') (hargs : List.Forall₂ L.Trees es es') (hs : L.Spans sp sp') :
    L.Trees ⟨.call e es, sp⟩ ⟨.call e' es', sp'⟩ := by
  obtain ⟨t, rfl, rfl⟩ := h
  obtain ⟨ts, rfl, rfl⟩ := exists_list hargs
  exact trees_node (.call t ts) hs

/-- An access with matched steps. -/
lemma Trees.accessTo (h : L.Trees e e') (hsteps : List.Forall₂ L.Trees es es')
    (hs : L.Spans sp sp') : L.Trees ⟨.access e es, sp⟩ ⟨.access e' es', sp'⟩ := by
  obtain ⟨t, rfl, rfl⟩ := h
  obtain ⟨ts, rfl, rfl⟩ := exists_list hsteps
  exact trees_node (.access t ts) hs

/-! ### Suffixes -/

variable (L)

/-- One suffix in both layouts. -/
inductive Suffixes : Suffix → Suffix → Prop
  | call {args args' : List Expr} {sp sp' : Span} (hargs : List.Forall₂ L.Trees args args')
      (hs : L.Spans sp sp') : Suffixes (.call args sp) (.call args' sp')
  | step {e e' : Expr} (h : L.Trees e e') : Suffixes (.step e) (.step e')

variable {L}

/-- Its span is joined from those of its parts. -/
lemma Trees.access (h : L.Trees e e') (hsteps : List.Forall₂ L.Trees es es') :
    L.Trees (Suffix.access e es) (Suffix.access e' es') := by
  cases hsteps with
  | nil => exact h
  | cons hlast hbefore =>
      exact h.accessTo (List.rel_reverse (hbefore.cons hlast)) (h.spans.through hlast.spans)

/-- An operand with related suffixes. -/
lemma Trees.attach {suffixes suffixes' : List Suffix}
    (hall : List.Forall₂ L.Suffixes suffixes suffixes') (h : L.Trees e e')
    (hsteps : List.Forall₂ L.Trees es es') :
    L.Trees (Suffix.attach e es suffixes) (Suffix.attach e' es' suffixes') := by
  induction hall generalizing e e' es es' with
  | nil => exact h.access hsteps
  | cons hfirst _ ih =>
      have hcallee := h.access hsteps
      cases hfirst with
      | call hargs hs => exact ih (hcallee.call hargs (hcallee.spans.through hs)) .nil
      | step hstep => exact ih h (hsteps.cons hstep)

/-! ### Operators -/

variable (L)

/-- Links with the same operator and related operands. -/
def Links {ω : Type} (l l' : ω × Expr) : Prop := l.1 = l'.1 ∧ L.Trees l.2 l'.2

/-- Spans that start with one token. -/
def Starts (sp sp' : Span) : Prop := L.Offsets sp.start sp'.start

variable {L}

/-- A minus sign with the operand behind it. -/
lemma Trees.negateFrom (hs : L.Starts sp sp') (h : L.Trees e e') :
    L.Trees (Expr.negateFrom sp e) (Expr.negateFrom sp' e') := by
  obtain ⟨t, rfl, rfl⟩ := h
  exact trees_node (.negate t) (Spans.from_offsets hs (Trees.spans ⟨t, rfl, rfl⟩))

/-- The signs of an operand, from the last one on. -/
lemma Trees.negateAll {signs signs' : List Span} (hs : List.Forall₂ L.Starts signs signs')
    (h : L.Trees e e') :
    L.Trees (signs.foldr Expr.negateFrom e) (signs'.foldr Expr.negateFrom e') := by
  induction hs with
  | nil => exact h
  | cons hsign _ ih => exact ih.negateFrom hsign

/-- An operator between two operands. -/
lemma Trees.arithWith {l l' : ArithOp × Expr} (h : L.Trees e e') (hl : L.Links l l') :
    L.Trees (Expr.arithWith e l) (Expr.arithWith e' l') := by
  have hs := h.spans.through hl.2.spans
  obtain ⟨op, f⟩ := l
  obtain ⟨op', f'⟩ := l'
  obtain ⟨rfl, t', rfl, rfl⟩ := hl
  obtain ⟨t, rfl, rfl⟩ := h
  exact trees_node (.arith t op t') hs

/-- A chain of operators, from the left. -/
lemma Trees.arithAll {ls ls' : List (ArithOp × Expr)} (hls : List.Forall₂ L.Links ls ls')
    (h : L.Trees e e') : L.Trees (ls.foldl Expr.arithWith e) (ls'.foldl Expr.arithWith e') := by
  induction hls generalizing e e' with
  | nil => exact h
  | cons hl _ ih => exact ih (h.arithWith hl)

/-- Links of matched trees come from links with pairs of spans. -/
lemma exists_links {ω : Type} {ls ls' : List (ω × Expr)} (h : List.Forall₂ L.Links ls ls') :
    ∃ ts : List (ω × Tree Literal L.SpanPair),
      ts.map (fun l => (l.1, firstOf l.2)) = ls ∧ ts.map (fun l => (l.1, secondOf l.2)) = ls' := by
  induction h with
  | nil => exact ⟨[], rfl, rfl⟩
  | @cons l l' _ _ h _ ih =>
      obtain ⟨op, f⟩ := l
      obtain ⟨op', f'⟩ := l'
      obtain ⟨rfl, t, rfl, rfl⟩ := h
      obtain ⟨ts, rfl, rfl⟩ := ih
      exact ⟨(op, t) :: ts, rfl, rfl⟩

/-- A comparison of matched operands. -/
lemma Trees.compareWith {ls ls' : List (CompareOp × Expr)} (h : L.Trees e e')
    (hls : List.Forall₂ L.Links ls ls') :
    L.Trees (Expr.compareWith e ls) (Expr.compareWith e' ls') := by
  obtain ⟨ts, rfl, rfl⟩ := exists_links hls
  rw [Expr.compareWith, Expr.compareWith, List.getLast?_map, List.getLast?_map]
  cases hlast : ts.getLast? with
  | none => exact h
  | some last =>
      have hs := h.spans.through (Trees.spans ⟨last.2, rfl, rfl⟩)
      obtain ⟨t, rfl, rfl⟩ := h
      exact trees_node (.comparison t ts) hs

/-- A target with its value. -/
lemma Trees.assignTo (h : L.Trees e e') (hf : L.Trees f f') :
    L.Trees (Expr.assignTo e f) (Expr.assignTo e' f') := by
  have hs := h.spans.through hf.spans
  obtain ⟨t, rfl, rfl⟩ := h
  obtain ⟨t', rfl, rfl⟩ := hf
  exact trees_node (.assign t t') hs

/-- The targets of a value, from the last one on. -/
lemma Trees.assignAll (h : L.Trees e e') (hes : List.Forall₂ L.Trees es es') :
    L.Trees (Expr.assignAll e es) (Expr.assignAll e' es') := by
  induction hes generalizing e e' with
  | nil => exact h
  | cons hsecond _ ih => exact h.assignTo (ih hsecond)

end Layouts

end ArrayExpr
