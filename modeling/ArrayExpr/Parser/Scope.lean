/-
Scopes: what a rule of the grammar knows about the brackets around it.

* `Scope`: the nesting limit, and the rule for expressions inside one bracket
  more, if the limit leaves room for it;
* `Scope.descend`: the way into a bracket;
* `Scope.bracketed`: an opening bracket, what stands inside, and the bracket
  that closes it.
-/
import ArrayExpr.Rule.SeparatedList
import ArrayExpr.Rule.Choice
import ArrayExpr.Expr.Basic

namespace ArrayExpr

/-- What a rule knows about the brackets around it. -/
structure Scope where
  /-- how many brackets may be open at once, as messages quote it -/
  limit : Int
  /-- expressions inside one bracket more; none where the limit is reached -/
  inner : Option (Rule Expr)

namespace Scope

open Rule

/-- Enters a bracket whose opening token has just been read. -/
def descend (scope : Scope) : Rule (Rule Expr) :=
  match scope.inner with
  | some expr => return expr
  | none => fail fun s => .ofKind .nestingTooDeep s (.nesting scope.limit)

/-- A bracket with what stands inside it, and the span of the whole. -/
def bracketed (scope : Scope) (opening closing : Kind) (inside : Rule Expr → Rule α) :
    Rule (α × Span) :=
  spanned do
    let opener ← token opening none none
    let expr ← scope.descend
    let a ← inside expr
    let _ ← token closing none (some opener)
    return a

end Scope

end ArrayExpr
