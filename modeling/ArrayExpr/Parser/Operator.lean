/-
Operators, from the tightest to the loosest.

* `Parser.signed`: minus signs before an operand with its suffixes;
* `Parser.product`, `Parser.sum`: arithmetic, grouped from the left;
* `Parser.comparison`: a chain of comparisons, one flat node;
* `Parser.assignment`: targets and a value with `=` between them, grouped from
  the right.

Every operand is read once; what follows it decides how it is used.
-/
import ArrayExpr.Parser.Suffix

namespace ArrayExpr

/-! ### Tokens that are operators -/

/-- The operator of a sum. -/
def Kind.sumOp? : Kind → Option ArithOp
  | .arith .plus => some .plus
  | .arith .minus => some .minus
  | _ => none

/-- The operator of a product. -/
def Kind.productOp? : Kind → Option ArithOp
  | .arith .times => some .times
  | .arith .divide => some .divide
  | _ => none

/-- The operator of a comparison. -/
def Kind.compareOp? : Kind → Option CompareOp
  | .compare op => some op
  | _ => none

/-! ### Nodes from operands -/

namespace Expr

/-- An operand after a minus sign. -/
def negateFrom (sign : Span) (operand : Expr) : Expr :=
  ⟨.negate operand, sign.through operand.span⟩

/-- An operator with the operands on both sides. -/
def arithWith (left : Expr) (link : ArithOp × Expr) : Expr :=
  ⟨.arith left link.1 link.2, left.span.through link.2.span⟩

/-- A chain of comparisons; without links the first operand itself. -/
def compareWith (first : Expr) (links : List (CompareOp × Expr)) : Expr :=
  match links.getLast? with
  | none => first
  | some last => ⟨.comparison first links, first.span.through last.2.span⟩

/-- A target with the value assigned to it. -/
def assignTo (target value : Expr) : Expr :=
  ⟨.assign target value, target.span.through value.span⟩

/-- Targets from left to right and the value, of which `first` is the first:
each target takes the assignment to its right. -/
def assignAll (first : Expr) : List Expr → Expr
  | [] => first
  | second :: others => assignTo first (assignAll second others)

end Expr

namespace Parser

open Rule

/-! ### Rules -/

/-- An operator that `op?` knows, and the operand after it. -/
def link? (op? : Kind → Option ω) (operand : Rule Expr) : Rule (Option (ω × Expr)) := do
  match op? (← current).kind with
  | none => return none
  | some op =>
    advance
    return some (op, ← operand)

/-- The minus sign ahead. -/
def sign? : Rule (Option Span) := do
  if (← current).kind = .arith .minus then
    let sign := (← stream).position
    advance
    return some sign
  else
    return none

/-- Minus signs and what they stand before. -/
def signed (scope : Scope) : Rule Expr := do
  visit "unary_expr"
  let signs ← many sign?
  let operand ← suffixed scope
  return signs.foldr Expr.negateFrom operand

/-- Factors with `*` and `/` between them. -/
def product (scope : Scope) : Rule Expr := do
  visit "product_expr"
  let first ← signed scope
  let links ← many (link? Kind.productOp? (signed scope))
  return links.foldl Expr.arithWith first

/-- Terms with `+` and `-` between them. -/
def sum (scope : Scope) : Rule Expr := do
  visit "sum_expr"
  let first ← product scope
  let links ← many (link? Kind.sumOp? (product scope))
  return links.foldl Expr.arithWith first

/-- Sums with comparisons between them. -/
def comparison (scope : Scope) : Rule Expr := do
  visit "cmp_expr"
  let first ← sum scope
  let links ← many (link? Kind.compareOp? (sum scope))
  return Expr.compareWith first links

/-- One side of an assignment, with its first token. -/
def side (scope : Scope) : Rule (Token × Expr) := do
  let first ← current
  let expr ← comparison scope
  return (first, expr)

/-- What messages call the targets of an assignment. -/
def targetDescription : String := "a name, index, field or [targets] before '='"

/-- A side that no value can be assigned to. -/
def badTarget (side : Token × Expr) : Failure :=
  ⟨.invalidAssignmentTarget, side.2.span.start, .named targetDescription, some side.1, none⟩

/-- Where `=` follows a side, that side must be a target, and another side
comes after the `=`. -/
def furtherSide (scope : Scope) (before : Token × Expr) :
    Rule (Option (Expr × (Token × Expr))) := do
  if (← current).kind = .assign then
    if before.2.isAssignable then
      advance
      let next ← side scope
      return some (next.2, next)
    else
      fail fun _ => badTarget before
  else
    return none

/-- Sides with `=` between them; all but the last are targets. -/
def assignment (scope : Scope) : Rule Expr := do
  visit "assign_expr"
  let first ← side scope
  let others ← collect (furtherSide scope) first
  return Expr.assignAll first.2 others

end Parser

end ArrayExpr
