/-
Rules written down.

* `RuleTerm`: the ways to make a rule from rules;
* `RuleTerm.check`: whether every choice has an alternative;
* `RuleTerm.rule`: the rule that a term stands for, in the scope below a number
  of open brackets.
-/
import ArrayExpr.Parser.Expression

namespace ArrayExpr

/-- The rules of the grammar by name. -/
inductive GrammarRule where
  | expr | assignment | comparison | sum | product | signed | suffixed
  | callSuffix | indexSuffix | fieldSuffix
  | operand | literal | name | group | array | arrayRow
deriving DecidableEq, Repr

/-- What a rule gives. -/
inductive RuleValue where
  | token (token : Token)
  | span (span : Span)
  | expr (expr : Expr)
  | tuple (values : List RuleValue)
deriving Repr

/-- A rule written down. -/
inductive RuleTerm where
  /-- one token; the opener is given by its number -/
  | token (kind : Kind) (expected : Option String) (opener : Option Nat)
  | choice (alternatives : List (String × RuleTerm))
  | list (name : String) (style : ListStyle) (separator : Kind) (item : RuleTerm)
  | grammar (rule : GrammarRule)
  /-- fails at the token `skip` places ahead -/
  | fail (kind : Option ErrorKind) (expected : String) (skip : Nat)
  | visit (name : String) (rule : RuleTerm)
  | descend (rule : RuleTerm)
  | seq (rules : List RuleTerm)
deriving Repr

namespace RuleTerm

/-- The wording for a choice without alternatives. -/
def emptyChoiceMessage : String := "choice() needs at least one alternative"

mutual

/-- Whether every choice in a term has an alternative. -/
def check : RuleTerm → Bool
  | token _ _ _ | grammar _ | fail _ _ _ => true
  | choice alternatives => !alternatives.isEmpty && checkNamed alternatives
  | list _ _ _ item => item.check
  | visit _ rule => rule.check
  | descend rule => rule.check
  | seq rules => checkAll rules

/-- Whether every choice in some terms has an alternative. -/
def checkAll : List RuleTerm → Bool
  | [] => true
  | rule :: rules => rule.check && checkAll rules

/-- Whether every choice in some named terms has an alternative. -/
def checkNamed : List (String × RuleTerm) → Bool
  | [] => true
  | (_, rule) :: rules => rule.check && checkNamed rules

end

/-- The rule of the grammar with a name, in a scope. -/
def grammarRule (scope : Scope) : GrammarRule → Rule RuleValue
  | .expr | .assignment => RuleValue.expr <$> Parser.assignment scope
  | .comparison => RuleValue.expr <$> Parser.comparison scope
  | .sum => RuleValue.expr <$> Parser.sum scope
  | .product => RuleValue.expr <$> Parser.product scope
  | .signed => RuleValue.expr <$> Parser.signed scope
  | .suffixed => RuleValue.expr <$> Parser.suffixed scope
  | .callSuffix => do
    let (args, span) ← Parser.callSuffix scope
    return .tuple [.tuple (args.map .expr), .span span]
  | .indexSuffix => RuleValue.expr <$> Parser.indexSuffix scope
  | .fieldSuffix => RuleValue.expr <$> Parser.fieldSuffix
  | .operand => RuleValue.expr <$> Parser.operand scope
  | .literal => RuleValue.expr <$> Parser.literal
  | .name => RuleValue.expr <$> Parser.name
  | .group => RuleValue.expr <$> Parser.group scope
  | .array => RuleValue.expr <$> Parser.array scope
  | .arrayRow => do
    let items ← Parser.arrayRow (Parser.assignment scope)
    return .tuple (items.map .expr)

/-- A choice without alternatives stands for no rule; it fails at once. -/
def chosen : List (String × Rule RuleValue) → Rule RuleValue
  | [] => Rule.fail fun s => .unexpected s (.named "")
  | first :: others => Rule.choice first others

mutual

/-- The rule that a term stands for, over the tokens `tokens`. -/
def rule (tokens : List Token) (limit depth : Int) : RuleTerm → Rule RuleValue
  | token kind expected opener =>
    RuleValue.token <$> Rule.token kind expected (opener.bind (tokens[·]?))
  | choice alternatives => chosen (namedRules tokens limit depth alternatives)
  | list name style separator item => do
    let values ← Rule.separatedList name style separator (rule tokens limit depth item)
    return .tuple values
  | grammar named => grammarRule (.within limit depth) named
  | fail kind expected skip =>
    Rule.fail fun s =>
      let s := s.advanceBy skip
      match kind with
      | some kind => .ofKind kind s (.named expected)
      | none => .unexpected s (.named expected)
  | visit name inner => do
    Rule.visit name
    rule tokens limit depth inner
  | descend inner => do
    let _ ← (Scope.within limit depth).descend
    rule tokens limit (depth + 1) inner
  | seq inner => RuleValue.tuple <$> rulesInTurn tokens limit depth inner

/-- The values of rules one after another. -/
def rulesInTurn (tokens : List Token) (limit depth : Int) : List RuleTerm → Rule (List RuleValue)
  | [] => return []
  | first :: others => do
    let value ← rule tokens limit depth first
    return value :: (← rulesInTurn tokens limit depth others)

/-- The rules that named terms stand for. -/
def namedRules (tokens : List Token) (limit depth : Int) :
    List (String × RuleTerm) → List (String × Rule RuleValue)
  | [] => []
  | (name, first) :: others =>
    (name, rule tokens limit depth first) :: namedRules tokens limit depth others

end

/-- Runs a term in front of the token with number `skip`. -/
def run (term : RuleTerm) (tokens : Tokens) (skip : Nat) (limit depth : Int) : Run RuleValue :=
  term.rule tokens.toList limit depth ((TokenStream.ofTokens tokens).advanceBy skip)

end RuleTerm

end ArrayExpr
