/-
Operands: what an expression is made of before suffixes and operators.

* `Parser.literal`, `Parser.name`, `Parser.group`, `Parser.array`: the four
  kinds of operands;
* `Parser.arrayRow`: one row of an array;
* `Parser.operand`: any of them; where none starts, an expression was expected.
-/
import ArrayExpr.Parser.Scope

namespace ArrayExpr

namespace Parser

open Rule

/-- A literal. An integer of too many digits is refused. -/
def literal : Rule Expr := do
  match (← current).kind with
  | .literal kind =>
    let (text, span) ← spanned do
      let token ← current
      advance
      return token.text.getD ""
    let l : Literal := ⟨kind, text⟩
    match l.overlong? with
    | some digits => overlong digits
    | none => return ⟨.literal l, span⟩
  | _ => fail fun s => .unexpected s (.named "literal")

/-- A name. -/
def name : Rule Expr := do
  if (← current).kind = .name then
    let (text, span) ← spanned do
      let token ← current
      advance
      return token.text.getD ""
    return ⟨.name text, span⟩
  else
    fail fun s => .unexpected s (.named "identifier")

/-- An expression in parentheses. -/
def group (scope : Scope) : Rule Expr := do
  let (inner, span) ← scope.bracketed .openParen .closeParen fun expr => expr
  return ⟨.group inner, span⟩

/-- The items of a row: at least one, with commas between them. -/
def rowItems (expr : Rule Expr) : Rule (List Expr) :=
  separatedList "row_items" ⟨true, false⟩ .comma expr

/-- One row of an array. -/
def arrayRow (expr : Rule Expr) : Rule (List Expr) := do
  visit "array_row"
  rowItems expr

/-- An array: rows with semicolons between them, in square brackets. -/
def array (scope : Scope) : Rule Expr := do
  visit "array_literal"
  let (rows, span) ← scope.bracketed .openBracket .closeBracket fun expr =>
    separatedList "array_rows" ⟨true, true⟩ .semicolon (arrayRow expr)
  return ⟨.array rows, span⟩

/-- The operands by name, in the order in which they are tried. -/
def operandChoice (scope : Scope) : Rule Expr :=
  choice ("literal", literal)
    [("identifier", name),
     ("parenthesized expression", group scope),
     ("array literal", array scope)]

/-- An operand. -/
def operand (scope : Scope) : Rule Expr := do
  visit "primary_expr"
  called "expression" (operandChoice scope)

end Parser

end ArrayExpr
