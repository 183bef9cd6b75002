/-
The rules of the grammar, with their calls counted.

* `Parser.Counting.literal`, `Parser.Counting.name` up to
  `Parser.Counting.assignment`: the rules, each told its context and how to read an
  expression in a context with less room;
* `Parser.Counting.expr`: an expression in a context.

Every rule counts its calls where its context says, and hands that context, or the
one inside a bracket, to the rules that it calls.
-/
import ArrayExpr.Rule.Counting
import ArrayExpr.Parser.Operator

namespace ArrayExpr

namespace Parser.Counting

open CountingRule

variable (ctx : Context) (inside : ctx.Inner → CountingRule Expr)

/-! ### Operands -/

/-- A literal. An integer of too many digits is refused. -/
def literal : CountingRule Expr := do
  match (← current).kind with
  | .literal kind =>
    let (text, span) ← spanned do
      let token ← current
      advance
      return token.text.getD ""
    let l : Literal := ⟨kind, text⟩
    match l.overlong? with
    | some digits => overlong digits
    | none => return ⟨.literal l, span⟩
  | _ => fail fun s => .unexpected s (.named "literal")

/-- A name. -/
def name : CountingRule Expr := do
  if (← current).kind = .name then
    let (text, span) ← spanned do
      let token ← current
      advance
      return token.text.getD ""
    return ⟨.name text, span⟩
  else
    fail fun s => .unexpected s (.named "identifier")

/-- An expression in parentheses. -/
def group : CountingRule Expr := do
  let (inner, span) ← bracketed ctx .openParen .closeParen inside
  return ⟨.group inner, span⟩

/-- One row of an array. Its items are listed in the context of the row. -/
def arrayRow (ctx : Context) (item : CountingRule Expr) : CountingRule (List Expr) := do
  hit ctx "array_row"
  separatedList ctx "row_items" ⟨true, false⟩ .comma item

/-- An array: rows with semicolons between them, in square brackets. -/
def array : CountingRule Expr := do
  hit ctx "array_literal"
  let (rows, span) ← bracketed ctx .openBracket .closeBracket fun inner =>
    separatedList inner.1 "array_rows" ⟨true, true⟩ .semicolon (arrayRow inner.1 (inside inner))
  return ⟨.array rows, span⟩

/-- The operands by name, in the order in which they are tried. -/
def operandChoice : CountingRule Expr :=
  choice ("literal", literal)
    [("identifier", name),
     ("parenthesized expression", group ctx inside),
     ("array literal", array ctx inside)]

/-- An operand. -/
def operand : CountingRule Expr := do
  hit ctx "primary_expr"
  called "expression" (operandChoice ctx inside)

/-! ### Suffixes -/

/-- The arguments of a call in their parentheses. -/
def callSuffix : CountingRule (List Expr × Span) := do
  hit ctx "call_suffix"
  bracketed ctx .openParen .closeParen fun inner =>
    separatedList inner.1 "call_args" ⟨true, true⟩ .comma (inside inner)

/-- Subscripts in square brackets, at least one. -/
def indexSuffix : CountingRule Expr := do
  hit ctx "index_suffix"
  let (args, span) ← bracketed ctx .openBracket .closeBracket fun inner =>
    separatedList inner.1 "subscripts" ⟨true, false⟩ .comma (inside inner)
  return ⟨.index args, span⟩

/-- A dot and the name of a field. -/
def fieldSuffix : CountingRule Expr := do
  let (field, span) ← spanned do
    let _ ← token .dot none none
    token .name (some "field name after '.'") none
  return ⟨.field (field.text.getD ""), span⟩

/-- The suffix ahead, if there is one. -/
def suffix? : CountingRule (Option Suffix) := do
  match (← current).kind with
  | .openParen =>
    let (args, span) ← callSuffix ctx inside
    return some (.call args span)
  | .openBracket => return some (.step (← indexSuffix ctx inside))
  | .dot => return some (.step (← fieldSuffix))
  | _ => return none

/-- An operand with all its suffixes. -/
def suffixed : CountingRule Expr := do
  hit ctx "postfix_expr"
  let base ← operand ctx inside
  let suffixes ← many (suffix? ctx inside)
  return Suffix.attach base [] suffixes

/-! ### Operators -/

/-- An operator that `op?` knows, and the operand after it. -/
def link? (op? : Kind → Option ω) (operand : CountingRule Expr) :
    CountingRule (Option (ω × Expr)) := do
  match op? (← current).kind with
  | none => return none
  | some op =>
    advance
    return some (op, ← operand)

/-- The minus sign ahead. -/
def sign? : CountingRule (Option Span) := do
  if (← current).kind = .arith .minus then
    let sign := (← stream).position
    advance
    return some sign
  else
    return none

/-- Minus signs and what they stand before. -/
def signed : CountingRule Expr := do
  hit ctx "unary_expr"
  let signs ← many sign?
  let operand ← suffixed ctx inside
  return signs.foldr Expr.negateFrom operand

/-- Factors with `*` and `/` between them. -/
def product : CountingRule Expr := do
  hit ctx "product_expr"
  let first ← signed ctx inside
  let links ← many (link? Kind.productOp? (signed ctx inside))
  return links.foldl Expr.arithWith first

/-- Terms with `+` and `-` between them. -/
def sum : CountingRule Expr := do
  hit ctx "sum_expr"
  let first ← product ctx inside
  let links ← many (link? Kind.sumOp? (product ctx inside))
  return links.foldl Expr.arithWith first

/-- Sums with comparisons between them. -/
def comparison : CountingRule Expr := do
  hit ctx "cmp_expr"
  let first ← sum ctx inside
  let links ← many (link? Kind.compareOp? (sum ctx inside))
  return Expr.compareWith first links

/-- One side of an assignment, with its first token. -/
def side : CountingRule (Token × Expr) := do
  let first ← current
  let value ← comparison ctx inside
  return (first, value)

/-- Where `=` follows a side, that side must be a target, and another side
comes after the `=`. -/
def furtherSide (before : Token × Expr) : CountingRule (Option (Expr × (Token × Expr))) := do
  if (← current).kind = .assign then
    if before.2.isAssignable then
      advance
      let next ← side ctx inside
      return some (next.2, next)
    else
      fail fun _ => badTarget before
  else
    return none

/-- Sides with `=` between them; all but the last are targets. -/
def assignment : CountingRule Expr := do
  hit ctx "assign_expr"
  let first ← side ctx inside
  let others ← collect (furtherSide ctx inside) first
  return Expr.assignAll first.2 others

/-! ### Expressions -/

/-- An expression. What stands inside a bracket is read in the context inside it,
which has less room. -/
def expr (ctx : Context) : CountingRule Expr :=
  assignment ctx fun inner => expr inner.1
termination_by ctx.room
decreasing_by exact inner.2

end Parser.Counting

end ArrayExpr
