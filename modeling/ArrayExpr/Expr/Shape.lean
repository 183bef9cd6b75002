/-
Shapes of expressions: what is left without layout.

* `Rose`: trees with a label at each node, with decidable equality;
* `Expr.shape`: the forms of an expression with the keys of its literals, and
  no spans;
* `Expr.same`: equality of expressions apart from layout.
-/
import ArrayExpr.Expr.Basic

namespace ArrayExpr

/-- A tree with a label at each node. -/
inductive Rose (α : Type) where
  | node (label : α) (parts : List (Rose α))
deriving Repr

namespace Rose

mutual

/-- Decides whether two trees are equal. -/
def decEq [DecidableEq α] : (s t : Rose α) → Decidable (s = t)
  | node a ss, node b ts =>
    if h : a = b then
      match decEqList ss ts with
      | .isTrue h' => .isTrue (by rw [h, h'])
      | .isFalse h' => .isFalse fun e => h' (by injection e)
    else .isFalse fun e => h (by injection e)

/-- Decides whether two lists of trees are equal. -/
def decEqList [DecidableEq α] : (ss ts : List (Rose α)) → Decidable (ss = ts)
  | [], [] => .isTrue rfl
  | [], _ :: _ => .isFalse (by simp)
  | _ :: _, [] => .isFalse (by simp)
  | s :: ss, t :: ts =>
    match decEq s t with
    | .isTrue h =>
      match decEqList ss ts with
      | .isTrue h' => .isTrue (by rw [h, h'])
      | .isFalse h' => .isFalse fun e => h' (by injection e)
    | .isFalse h => .isFalse fun e => h (by injection e)

end

instance [DecidableEq α] : DecidableEq (Rose α) := decEq

end Rose

/-- Shapes: at each node the form with its rows, operators and literal keys,
but without the children, which stand below. -/
abbrev Shape : Type := Rose (Node ValueKey Unit)

/-- What two literals are compared by. It tells their kinds apart. -/
def Literal.key (l : Literal) : ValueKey := l.value.key

/-- The form of a node without its children. -/
def Node.form (n : Node Literal χ) : Node ValueKey Unit := n.map Literal.key fun _ => ()

namespace Expr

/-- The shape of an expression. -/
def shape (e : Expr) : Shape := e.fold fun n _ => .node n.form n.children

/-- Equality of expressions apart from spans. -/
def same (a b : Expr) : Bool := a.shape = b.shape

end Expr

end ArrayExpr
