/-
Suffixes: calls, subscripts and fields after an operand.

* `Parser.callSuffix`, `Parser.indexSuffix`, `Parser.fieldSuffix`: one suffix;
* `Suffix.attach`: an operand with its suffixes; a call takes all to its left,
  and the index and field suffixes between calls form one access;
* `Parser.suffixed`: an operand with all suffixes that follow it.
-/
import ArrayExpr.Parser.Operand

namespace ArrayExpr

/-- A suffix: a call with the span of its parentheses, or a step of an
access. -/
inductive Suffix where
  | call (args : List Expr) (span : Span)
  | step (step : Expr)
deriving Repr

namespace Suffix

/-- An operand with the steps that follow it, the last one first. Without
steps it is left as it is. -/
def access (base : Expr) : List Expr → Expr
  | [] => base
  | last :: before =>
    ⟨.access base (last :: before).reverse, base.span.through last.span⟩

/-- An operand with the steps that follow it so far, the last one first, and
the suffixes that come after them. -/
def attach (base : Expr) (steps : List Expr) : List Suffix → Expr
  | [] => access base steps
  | call args span :: rest =>
    let callee := access base steps
    attach ⟨.call callee args, callee.span.through span⟩ [] rest
  | step s :: rest => attach base (s :: steps) rest

end Suffix

namespace Parser

open Rule

/-- The arguments of a call in their parentheses. -/
def callSuffix (scope : Scope) : Rule (List Expr × Span) := do
  visit "call_suffix"
  scope.bracketed .openParen .closeParen fun expr =>
    separatedList "call_args" ⟨true, true⟩ .comma expr

/-- Subscripts in square brackets, at least one. -/
def indexSuffix (scope : Scope) : Rule Expr := do
  visit "index_suffix"
  let (args, span) ← scope.bracketed .openBracket .closeBracket fun expr =>
    separatedList "subscripts" ⟨true, false⟩ .comma expr
  return ⟨.index args, span⟩

/-- A dot and the name of a field. -/
def fieldSuffix : Rule Expr := do
  let (field, span) ← spanned do
    let _ ← token .dot none none
    token .name (some "field name after '.'") none
  return ⟨.field (field.text.getD ""), span⟩

/-- The suffix ahead, if there is one. -/
def suffix? (scope : Scope) : Rule (Option Suffix) := do
  match (← current).kind with
  | .openParen =>
    let (args, span) ← callSuffix scope
    return some (.call args span)
  | .openBracket => return some (.step (← indexSuffix scope))
  | .dot => return some (.step (← fieldSuffix))
  | _ => return none

/-- An operand with all its suffixes. -/
def suffixed (scope : Scope) : Rule Expr := do
  visit "postfix_expr"
  let base ← operand scope
  let suffixes ← many (suffix? scope)
  return Suffix.attach base [] suffixes

end Parser

end ArrayExpr
