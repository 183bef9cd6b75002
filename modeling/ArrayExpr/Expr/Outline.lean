/-
Outlines of expressions.

* `Node.outline`: one node, given the outlines of its children;
* `Tree.outline`: a whole tree, given the outlines of its literals;
* `Expr.outline`: a whole expression.

Literals and names are leaves with their text in the source; every other form
is a branch, with its operators as leaves between the operands.
-/
import ArrayExpr.Outline
import ArrayExpr.Expr.Basic

namespace ArrayExpr

/-- The leaf of an arithmetic operator. -/
def ArithOp.outline (op : ArithOp) : Outline := .leaf op.label op.symbol

/-- The leaf of a comparison operator. -/
def CompareOp.outline (op : CompareOp) : Outline := .leaf op.label op.symbol

/-- The leaf of a literal. -/
def Literal.outline (l : Literal) : Outline := .leaf l.kind.label l.text

/-- The leaf of a name. -/
def nameOutline (name : String) : Outline := .leaf Kind.name.label name

/-- The outline of a node, given the outlines of literals and of its
children. -/
def Node.outline (literalOutline : ν → Outline) : Node ν Outline → Outline
  | literal l => literalOutline l
  | name s => nameOutline s
  | array rows => .branch "array" (rows.map (.branch "row"))
  | group inner => .branch "group" [inner]
  | call callee args => .branch "call" [callee, .branch "args" args]
  | index args => .branch "index" args
  | field s => .branch "field" [nameOutline s]
  | access base steps => .branch "postfix" (base :: steps)
  | negate operand => .branch "neg" [operand]
  | arith left op right => .branch "binop" [left, op.outline, right]
  | comparison first links =>
    .branch "comparison" (first :: links.flatMap fun link => [link.1.outline, link.2])
  | assign target value => .branch "assign" [target, value]

/-- The outline of a tree, given the outlines of literals. -/
def Tree.outline (literalOutline : ν → Outline) (t : Tree ν σ) : Outline :=
  t.fold fun n _ => n.outline literalOutline

/-- The outline of an expression. -/
def Expr.outline (e : Expr) : Outline := Tree.outline Literal.outline e

end ArrayExpr
