/-
Expressions inside any number of brackets.

* `Parser.expr`: an expression, with room for a given number of brackets
  inside each other;
* `Scope.ofRoom`: the scope with that room;
* `Scope.within`: the scope below a number of open brackets.

The room is what the recursion goes down on: between two brackets all rules
are loops over the tokens.
-/
import ArrayExpr.Parser.Operator

namespace ArrayExpr

/-- An expression, with room for `room` brackets inside each other. -/
def Parser.expr (limit : Int) : (room : Nat) → Rule Expr
  | 0 => assignment ⟨limit, none⟩
  | room + 1 => assignment ⟨limit, some (expr limit room)⟩

namespace Scope

/-- The scope with room for `room` brackets inside each other. -/
def ofRoom (limit : Int) : (room : Nat) → Scope
  | 0 => ⟨limit, none⟩
  | room + 1 => ⟨limit, some (Parser.expr limit room)⟩

/-- The scope under a limit where `depth` brackets are open. -/
def within (limit depth : Int) : Scope := ofRoom limit (limit - depth).toNat

end Scope

/-- An expression is an assignment in the scope that has its room. -/
theorem Parser.expr_eq (limit : Int) (room : Nat) :
    Parser.expr limit room = Parser.assignment (Scope.ofRoom limit room) := by
  cases room <;> rfl

end ArrayExpr
