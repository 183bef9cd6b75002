/-
The rules of the grammar that count, beside those that keep a log.

* `Inside`: what is read inside a bracket counts as the plain rule for expressions
  there;
* `counts_operand`, `counts_suffixed` and those after them: one lemma for each rule of
  the grammar;
* `counts_expr`: in every context the rule for expressions ends as the plain one does,
  whatever the counts are, and adds the log of that one to the counts of its context.
-/
import ArrayExpr.Parser.Counting
import ArrayExpr.Proofs.Rule.Counting

namespace ArrayExpr

namespace Parser.Counting

open CountingRule

variable {ω : Type} {ctx : Context} {inside : ctx.Inner → CountingRule Expr}

/-- What is read inside a bracket counts as the plain rule for expressions there. -/
def Inside (ctx : Context) (inside : ctx.Inner → CountingRule Expr) : Prop :=
  ∀ hroom, (inside ⟨ctx.deeper, hroom⟩).Counts (Parser.expr ctx.limit ctx.deeper.room)
    ctx.deeper.counter

/-! ### Operands -/

/-- The text of a token with its span: no call of a rule. -/
lemma counts_text {number : ℕ} : (spanned (do
      let token ← current
      advance
      return token.text.getD "")).Counts (Rule.spanned (do
      let token ← Rule.current
      Rule.advance
      return token.text.getD "")) number :=
  (counts_current.bind fun _ => counts_advance.bind fun _ => counts_pure _).spanned

/-- A literal counts one call of its own, under the number that the rule was given. -/
lemma counts_literal {number : ℕ} : literal.Counts Parser.literal number := by
  refine counts_current.bind fun t => ?_
  cases t.kind with
  | literal kind =>
      refine counts_text.bind fun x => ?_
      dsimp only
      cases Literal.overlong? ⟨kind, x.1⟩ with
      | some digits => exact counts_overlong _
      | none => exact counts_pure _
  | _ => exact counts_fail _

/-- So does a name. -/
lemma counts_name {number : ℕ} : name.Counts Parser.name number := by
  refine counts_current.bind fun t => ?_
  split_ifs
  · exact counts_text.bind fun _ => counts_pure _
  · exact counts_fail _

/-- The expression in parentheses counts under the number of the descended context. -/
lemma counts_group (h : Inside ctx inside) :
    (group ctx inside).Counts (Parser.group ctx.scope) ctx.counter := by
  have hbracket : (bracketed ctx .openParen .closeParen inside).Counts
      (ctx.scope.bracketed .openParen .closeParen fun e => e) ctx.counter :=
    counts_bracketed _ _ h
  exact hbracket.bind fun _ => counts_pure _

/-- A row counts itself and its list. -/
lemma counts_arrayRow {item : CountingRule Expr} {plain : Rule Expr}
    (h : item.Counts plain ctx.counter) :
    (arrayRow ctx item).Counts (Parser.arrayRow plain) ctx.counter :=
  (counts_hit _ _).bind fun _ => h.separatedList _ _ _

/-- An array counts itself; its rows count under the number of the descended context. -/
lemma counts_array (h : Inside ctx inside) :
    (array ctx inside).Counts (Parser.array ctx.scope) ctx.counter :=
  (counts_hit _ _).bind fun _ =>
    (counts_bracketed _ _ fun hroom => (counts_arrayRow (h hroom)).separatedList _ _ _).bind
      fun _ => counts_pure _

/-- An operand counts its alternatives, those that fail included. -/
lemma counts_operand (h : Inside ctx inside) :
    (operand ctx inside).Counts (Parser.operand ctx.scope) ctx.counter := by
  have hchoice : (operandChoice ctx inside).Counts (Parser.operandChoice ctx.scope) ctx.counter :=
    counts_choice ⟨rfl, counts_literal⟩ (.cons ⟨rfl, counts_name⟩ (.cons ⟨rfl, counts_group h⟩
      (.cons ⟨rfl, counts_array h⟩ .nil)))
  exact (counts_hit _ _).bind fun _ => hchoice.called _

/-! ### Suffixes -/

/-- The arguments of a call stand in a descended context. -/
lemma counts_callSuffix (h : Inside ctx inside) :
    (callSuffix ctx inside).Counts (Parser.callSuffix ctx.scope) ctx.counter :=
  (counts_hit _ _).bind fun _ =>
    counts_bracketed _ _ fun hroom => (h hroom).separatedList _ _ _

/-- So do the subscripts of an index. -/
lemma counts_indexSuffix (h : Inside ctx inside) :
    (indexSuffix ctx inside).Counts (Parser.indexSuffix ctx.scope) ctx.counter :=
  (counts_hit _ _).bind fun _ =>
    (counts_bracketed _ _ fun hroom => (h hroom).separatedList _ _ _).bind fun _ => counts_pure _

/-- A field counts one call. -/
lemma counts_fieldSuffix {number : ℕ} : fieldSuffix.Counts Parser.fieldSuffix number :=
  ((counts_token _ _ _).bind fun _ => counts_token _ _ _).spanned.bind fun _ => counts_pure _

/-- A suffix, by the token that it starts with. -/
lemma counts_suffix? (h : Inside ctx inside) :
    (suffix? ctx inside).Counts (Parser.suffix? ctx.scope) ctx.counter := by
  refine counts_current.bind fun t => ?_
  cases t.kind with
  | openParen => exact (counts_callSuffix h).bind fun _ => counts_pure _
  | openBracket => exact (counts_indexSuffix h).bind fun _ => counts_pure _
  | dot => exact counts_fieldSuffix.bind fun _ => counts_pure _
  | _ => exact counts_pure _

/-- An operand with its suffixes, one round after another. -/
lemma counts_suffixed (h : Inside ctx inside) :
    (suffixed ctx inside).Counts (Parser.suffixed ctx.scope) ctx.counter :=
  (counts_hit _ _).bind fun _ => (counts_operand h).bind fun _ =>
    (counts_suffix? h).many.bind fun _ => counts_pure _

/-! ### Operators -/

/-- An operator with the operand behind it. -/
lemma counts_link? {r : CountingRule Expr} {plain : Rule Expr} {number : ℕ}
    (op? : Kind → Option ω) (h : r.Counts plain number) :
    (link? op? r).Counts (Parser.link? op? plain) number := by
  refine counts_current.bind fun t => ?_
  cases op? t.kind with
  | none => exact counts_pure _
  | some op => exact counts_advance.bind fun _ => h.bind fun _ => counts_pure _

/-- Operands with operators between them. -/
lemma counts_chain {r : CountingRule Expr} {plain : Rule Expr} (name : String)
    (op? : Kind → Option ω) (h : r.Counts plain ctx.counter)
    (k : Expr → List (ω × Expr) → Expr) :
    CountingRule.Counts (do
      hit ctx name
      let first ← r
      let links ← many (link? op? r)
      return k first links) (do
      Rule.visit name
      let first ← plain
      let links ← Rule.many (Parser.link? op? plain)
      return k first links) ctx.counter :=
  (counts_hit _ _).bind fun _ => h.bind fun _ =>
    (counts_link? op? h).many.bind fun _ => counts_pure _

/-- A minus sign is counted where one stands. -/
lemma counts_sign? {number : ℕ} : sign?.Counts Parser.sign? number := by
  refine counts_current.bind fun t => ?_
  split_ifs
  · exact counts_stream.bind fun _ => counts_advance.bind fun _ => counts_pure _
  · exact counts_pure _

/-- An operand under minus signs. -/
lemma counts_signed (h : Inside ctx inside) :
    (signed ctx inside).Counts (Parser.signed ctx.scope) ctx.counter :=
  (counts_hit _ _).bind fun _ => counts_sign?.many.bind fun _ =>
    (counts_suffixed h).bind fun _ => counts_pure _

/-- The operands of a product. -/
lemma counts_product (h : Inside ctx inside) :
    (product ctx inside).Counts (Parser.product ctx.scope) ctx.counter :=
  counts_chain _ _ (counts_signed h) _

/-- The operands of a sum. -/
lemma counts_sum (h : Inside ctx inside) :
    (sum ctx inside).Counts (Parser.sum ctx.scope) ctx.counter :=
  counts_chain _ _ (counts_product h) _

/-- The operands of a comparison. -/
lemma counts_comparison (h : Inside ctx inside) :
    (comparison ctx inside).Counts (Parser.comparison ctx.scope) ctx.counter :=
  counts_chain _ _ (counts_sum h) _

/-- A side of an assignment with the operator that was looked at. -/
lemma counts_side (h : Inside ctx inside) :
    (side ctx inside).Counts (Parser.side ctx.scope) ctx.counter :=
  counts_current.bind fun _ => (counts_comparison h).bind fun _ => counts_pure _

/-- A side behind a `=`; the failure at a bad target counts nothing. -/
lemma counts_furtherSide (h : Inside ctx inside) (before : Token × Expr) :
    (furtherSide ctx inside before).Counts (Parser.furtherSide ctx.scope before) ctx.counter :=
  counts_current.bind fun t => by
    split_ifs
    · exact counts_advance.bind fun _ => (counts_side h).bind fun _ => counts_pure _
    · exact counts_fail _
    · exact counts_pure _

/-- The sides of an assignment. -/
lemma counts_assignment (h : Inside ctx inside) :
    (assignment ctx inside).Counts (Parser.assignment ctx.scope) ctx.counter :=
  (counts_hit _ _).bind fun _ => (counts_side h).bind fun _ =>
    (counts_collect (counts_furtherSide h) _).bind fun _ => counts_pure _

/-! ### Expressions -/

/-- **The counts decide nothing, and every context counts where it should.** In every
context an expression ends as the plain rule does, and adds the log of that rule to the
counts under the number of the context. The induction is on the room, which the
context inside a bracket has less of. -/
theorem counts_expr (ctx : Context) :
    (expr ctx).Counts (Parser.expr ctx.limit ctx.room) ctx.counter := by
  rw [expr, Parser.expr_eq]
  exact counts_assignment fun hroom => counts_expr ctx.deeper
termination_by ctx.room
decreasing_by exact hroom

end Parser.Counting

end ArrayExpr
