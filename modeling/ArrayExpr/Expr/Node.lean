/-
One level of an expression.

* `Node`: the forms of expressions over any type of children, so that the same
  forms serve trees, shared graphs and folds;
* `Node.children`: the children in source order;
* `Node.map`: the same form over other children;
* `Node.isAssignable`: whether a form may stand on the left of `=`.
-/
import ArrayExpr.Literal

namespace ArrayExpr

/-- One level of an expression with literals in `ν` and children in `χ`. The
steps of an `access` are `index` and `field` nodes. -/
inductive Node (ν χ : Type) where
  | literal (literal : ν)
  | name (name : String)
  | array (rows : List (List χ))
  | group (inner : χ)
  | call (callee : χ) (args : List χ)
  | index (args : List χ)
  | field (name : String)
  | access (base : χ) (steps : List χ)
  | negate (operand : χ)
  | arith (left : χ) (op : ArithOp) (right : χ)
  | comparison (first : χ) (links : List (CompareOp × χ))
  | assign (target value : χ)
deriving DecidableEq, Repr

namespace Node

/-- The children in source order. -/
def children : Node ν χ → List χ
  | literal _ | name _ | field _ => []
  | array rows => rows.flatten
  | group inner => [inner]
  | call callee args => callee :: args
  | index args => args
  | access base steps => base :: steps
  | negate operand => [operand]
  | arith left _ right => [left, right]
  | comparison first links => first :: links.map (·.2)
  | assign target value => [target, value]

/-- The same form with literals and children replaced. -/
def map (f : ν → ν') (g : χ → χ') : Node ν χ → Node ν' χ'
  | literal l => .literal (f l)
  | name s => .name s
  | array rows => .array (rows.map (·.map g))
  | group inner => .group (g inner)
  | call callee args => .call (g callee) (args.map g)
  | index args => .index (args.map g)
  | field s => .field s
  | access base steps => .access (g base) (steps.map g)
  | negate operand => .negate (g operand)
  | arith left op right => .arith (g left) op (g right)
  | comparison first links => .comparison (g first) (links.map fun link => (link.1, g link.2))
  | assign target value => .assign (g target) (g value)

@[simp] theorem children_map (f : ν → ν') (g : χ → χ') (n : Node ν χ) :
    (n.map f g).children = n.children.map g := by
  cases n <;> simp [map, children, List.map_flatten]

/-- Whether a form may be assigned to, given which of its children may: a name
and an access may, brackets around a target may, and so may an array of one
row of targets. -/
def isAssignable : Node ν Bool → Bool
  | name _ | access _ _ => true
  | group inner => inner
  | array [row] => row.all id
  | _ => false

end Node

end ArrayExpr
