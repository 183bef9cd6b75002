/-
The shapes of outlines.

* `Tree.Shapes`: a function from trees to outlines that gives each form its shape, one
  equation for each form;
* `Tree.outline_eq`: the outline of a tree in terms of its node;
* `Tree.shapes_iff`: outlining is **the only function with these shapes**.
-/
import ArrayExpr.Expr.Outline
import ArrayExpr.Proofs.Layout.Tree

namespace ArrayExpr

namespace Tree

variable {ν σ : Type}

/-- A function that shows every form of a tree in its shape, and what is below the same
way. -/
structure Shapes (lit : ν → Outline) (f : Tree ν σ → Outline) : Prop where
  literal : ∀ l span, f ⟨.literal l, span⟩ = lit l
  name : ∀ s span, f ⟨.name s, span⟩ = .leaf "IDENT" s
  array : ∀ rows span, f ⟨.array rows, span⟩ =
    .branch "array" (rows.map fun row => .branch "row" (row.map f))
  group : ∀ inner span, f ⟨.group inner, span⟩ = .branch "group" [f inner]
  call : ∀ callee args span, f ⟨.call callee args, span⟩ =
    .branch "call" [f callee, .branch "args" (args.map f)]
  index : ∀ args span, f ⟨.index args, span⟩ = .branch "index" (args.map f)
  field : ∀ s span, f ⟨.field s, span⟩ = .branch "field" [.leaf "IDENT" s]
  access : ∀ base steps span, f ⟨.access base steps, span⟩ =
    .branch "postfix" (f base :: steps.map f)
  negate : ∀ operand span, f ⟨.negate operand, span⟩ = .branch "neg" [f operand]
  arith : ∀ left op right span, f ⟨.arith left op right, span⟩ =
    .branch "binop" [f left, .leaf op.label op.symbol, f right]
  comparison : ∀ first links span, f ⟨.comparison first links, span⟩ =
    .branch "comparison"
      (f first :: links.flatMap fun link => [.leaf link.1.label link.1.symbol, f link.2])
  assign : ∀ target value span, f ⟨.assign target value, span⟩ =
    .branch "assign" [f target, f value]

/-- The outline of a tree in terms of its node. -/
lemma outline_eq (lit : ν → Outline) (t : Tree ν σ) :
    t.outline lit = (t.node.map id (outline lit)).outline lit := by
  conv => lhs; unfold outline
  rw [fold_eq]
  rfl

variable {lit : ν → Outline} {f : Tree ν σ → Outline}

/-- The shapes are those of a node with its children replaced. -/
lemma Shapes.eq_node (h : Shapes lit f) (t : Tree ν σ) : f t = (t.node.map id f).outline lit := by
  obtain ⟨node, span⟩ := t
  cases node with
  | literal l => exact h.literal l span
  | name s => exact h.name s span
  | array rows => rw [h.array, Node.map, Node.outline, List.map_map]; rfl
  | group inner => exact h.group inner span
  | call callee args => exact h.call callee args span
  | index args => exact h.index args span
  | field s => exact h.field s span
  | access base steps => exact h.access base steps span
  | negate operand => exact h.negate operand span
  | arith left op right => exact h.arith left op right span
  | comparison first links =>
      rw [h.comparison, Node.map, Node.outline, List.flatMap_map]
      rfl
  | assign target value => exact h.assign target value span

lemma shapes_outline (lit : ν → Outline) : Shapes lit (outline lit : Tree ν σ → Outline) := by
  constructor
  all_goals intros
  all_goals rw [outline_eq]
  all_goals simp [Node.map, Node.outline, nameOutline, Kind.label, ArithOp.outline,
    CompareOp.outline, List.flatMap_map]

/-- **Outlining is the only function with these shapes.** The induction is over the
tree: where two such functions agree on the children they agree on the node. -/
theorem shapes_iff : Shapes lit f ↔ f = outline lit := by
  refine ⟨fun h => funext fun t => ?_, fun h => h ▸ shapes_outline lit⟩
  induction t using induction_children with
  | step t ih => rw [h.eq_node t, map_congr_node ih, ← outline_eq]

end Tree

end ArrayExpr
