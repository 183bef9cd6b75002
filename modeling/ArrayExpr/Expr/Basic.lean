/-
Expressions.

* `Tree`: a form with its children and a span, over any type of literals and
  of spans;
* `Expr`: the trees of sources, with the span of their tokens at every node;
* `Tree.fold`: replaces every node, children first;
* `Tree.isAssignable`: whether a tree may stand on the left of `=`;
* `Tree.induction_children`: a property that passes from the children of every
  tree to the tree holds of all trees.
-/
import ArrayExpr.Expr.Node

namespace ArrayExpr

/-- A tree with literals in `ν` and a span in `σ` at every node. A tree without
spans has `σ = Unit`. -/
structure Tree (ν σ : Type) where
  node : Node ν (Tree ν σ)
  span : σ
deriving Repr

/-- An expression of a source. -/
abbrev Expr : Type := Tree Literal Span

namespace Tree

/-- The children in source order. -/
def children (t : Tree ν σ) : List (Tree ν σ) := t.node.children

/-! ### Folds -/

mutual

/-- Replaces every node of a tree, children first. -/
def fold (f : Node ν β → σ → β) : Tree ν σ → β
  | ⟨node, span⟩ => f (foldNode f node) span

/-- The children of a node replaced. -/
def foldNode (f : Node ν β → σ → β) : Node ν (Tree ν σ) → Node ν β
  | .literal l => .literal l
  | .name s => .name s
  | .array rows => .array (foldRows f rows)
  | .group inner => .group (inner.fold f)
  | .call callee args => .call (callee.fold f) (foldList f args)
  | .index args => .index (foldList f args)
  | .field s => .field s
  | .access base steps => .access (base.fold f) (foldList f steps)
  | .negate operand => .negate (operand.fold f)
  | .arith left op right => .arith (left.fold f) op (right.fold f)
  | .comparison first links => .comparison (first.fold f) (foldLinks f links)
  | .assign target value => .assign (target.fold f) (value.fold f)

/-- A list of trees replaced. -/
def foldList (f : Node ν β → σ → β) : List (Tree ν σ) → List β
  | [] => []
  | t :: ts => t.fold f :: foldList f ts

/-- The rows of an array replaced. -/
def foldRows (f : Node ν β → σ → β) : List (List (Tree ν σ)) → List (List β)
  | [] => []
  | row :: rows => foldList f row :: foldRows f rows

/-- The links of a comparison replaced. -/
def foldLinks (f : Node ν β → σ → β) : List (CompareOp × Tree ν σ) → List (CompareOp × β)
  | [] => []
  | (op, t) :: links => (op, t.fold f) :: foldLinks f links

end

theorem foldList_eq (f : Node ν β → σ → β) (ts : List (Tree ν σ)) :
    foldList f ts = ts.map (fold f) := by
  induction ts with
  | nil => rfl
  | cons t ts ih => rw [foldList, ih, List.map_cons]

theorem foldRows_eq (f : Node ν β → σ → β) (rows : List (List (Tree ν σ))) :
    foldRows f rows = rows.map (·.map (fold f)) := by
  induction rows with
  | nil => rfl
  | cons row rows ih => rw [foldRows, ih, foldList_eq, List.map_cons]

theorem foldLinks_eq (f : Node ν β → σ → β) (links : List (CompareOp × Tree ν σ)) :
    foldLinks f links = links.map fun link => (link.1, link.2.fold f) := by
  induction links with
  | nil => rfl
  | cons link links ih => rw [foldLinks, ih, List.map_cons]

theorem foldNode_eq (f : Node ν β → σ → β) (n : Node ν (Tree ν σ)) :
    foldNode f n = n.map id (fold f) := by
  cases n <;> simp [foldNode, Node.map, foldList_eq, foldRows_eq, foldLinks_eq]

/-- A fold replaces the node over its replaced children. -/
theorem fold_eq (f : Node ν β → σ → β) (t : Tree ν σ) :
    t.fold f = f (t.node.map id (fold f)) t.span := by
  cases t; rw [fold, foldNode_eq]

/-! ### Induction -/

/-- The children of a tree are smaller than it. -/
theorem sizeOf_lt_of_mem_children {c t : Tree ν σ} (h : c ∈ t.children) :
    sizeOf c < sizeOf t := by
  rcases t with ⟨node, span⟩
  cases node <;> simp only [children, Node.children, List.mem_cons, List.not_mem_nil,
    List.mem_flatten, List.mem_map, or_false] at h <;>
    simp only [mk.sizeOf_spec, Node.array.sizeOf_spec, Node.group.sizeOf_spec,
      Node.call.sizeOf_spec, Node.index.sizeOf_spec, Node.access.sizeOf_spec,
      Node.negate.sizeOf_spec, Node.arith.sizeOf_spec, Node.comparison.sizeOf_spec,
      Node.assign.sizeOf_spec]
  case array rows =>
    obtain ⟨row, hrow, hc⟩ := h
    have := List.sizeOf_lt_of_mem hrow
    have := List.sizeOf_lt_of_mem hc
    omega
  case comparison first links =>
    rcases h with rfl | ⟨⟨op, t⟩, hlink, rfl⟩
    · omega
    · have := List.sizeOf_lt_of_mem hlink
      simp only [Prod.mk.sizeOf_spec] at this
      simp only
      omega
  case call callee args =>
    rcases h with rfl | h
    · omega
    · have := List.sizeOf_lt_of_mem h
      omega
  case access base steps =>
    rcases h with rfl | h
    · omega
    · have := List.sizeOf_lt_of_mem h
      omega
  case index args =>
    have := List.sizeOf_lt_of_mem h
    omega
  all_goals rcases h with rfl | rfl <;> omega

/-- A property that passes from the children of every tree to the tree holds of
all trees. -/
theorem induction_children {P : Tree ν σ → Prop}
    (step : ∀ t : Tree ν σ, (∀ c ∈ t.children, P c) → P t) (t : Tree ν σ) : P t :=
  step t fun c _ => induction_children step c
termination_by sizeOf t
decreasing_by exact sizeOf_lt_of_mem_children ‹_›

/-! ### Targets -/

/-- Whether a tree may stand on the left of `=`. -/
def isAssignable (t : Tree ν σ) : Bool := t.fold fun n _ => n.isAssignable

end Tree

end ArrayExpr
