/-
Tokens.

* `Kind`: what a token is; literals, arithmetic and comparison operators are
  families of their own, so that a rule that has met one holds its operator;
* `Kind.label`: the name of a kind in outlines and token listings;
* `Kind.describe`: how a message names a kind;
* `Token`: a kind with its text and place.
-/
import ArrayExpr.Text.Place
import ArrayExpr.Text.Span
import ArrayExpr.Text.Quoted

namespace ArrayExpr

/-- The kinds of literals. -/
inductive LiteralKind where
  | number | string | true | false | nil
deriving DecidableEq, Repr

/-- The arithmetic operators. -/
inductive ArithOp where
  | plus | minus | times | divide
deriving DecidableEq, Repr

/-- The comparison operators. -/
inductive CompareOp where
  | equal | notEqual | less | lessEqual | greater | greaterEqual
deriving DecidableEq, Repr

/-- The kinds of tokens. The last one, `finish`, stands at the end of a text. -/
inductive Kind where
  | literal (kind : LiteralKind)
  | name
  | arith (op : ArithOp)
  | compare (op : CompareOp)
  | assign
  | openParen | closeParen
  | openBracket | closeBracket
  | dot | comma | semicolon
  | finish
deriving DecidableEq, Repr

/-! ### Names and symbols -/

/-- The name of a kind of literal in outlines. -/
def LiteralKind.label : LiteralKind → String
  | .number => "NUMBER"
  | .string => "STRING"
  | .true => "TRUE"
  | .false => "FALSE"
  | .nil => "NIL"

namespace ArithOp

/-- The text of an operator. -/
def symbol : ArithOp → String
  | .plus => "+"
  | .minus => "-"
  | .times => "*"
  | .divide => "/"

/-- The name of an operator in outlines. -/
def label : ArithOp → String
  | .plus => "PLUS"
  | .minus => "MINUS"
  | .times => "STAR"
  | .divide => "SLASH"

end ArithOp

namespace CompareOp

/-- The text of an operator. -/
def symbol : CompareOp → String
  | .equal => "=="
  | .notEqual => "!="
  | .less => "<"
  | .lessEqual => "<="
  | .greater => ">"
  | .greaterEqual => ">="

/-- The name of an operator in outlines. -/
def label : CompareOp → String
  | .equal => "EQ"
  | .notEqual => "NEQ"
  | .less => "LT"
  | .lessEqual => "LTE"
  | .greater => "GT"
  | .greaterEqual => "GTE"

end CompareOp

namespace Kind

/-- The name of a kind in outlines and token listings. -/
def label : Kind → String
  | literal kind => kind.label
  | name => "IDENT"
  | arith op => op.label
  | compare op => op.label
  | assign => "ASSIGN"
  | openParen => "LPAR"
  | closeParen => "RPAR"
  | openBracket => "LSQB"
  | closeBracket => "RSQB"
  | dot => "DOT"
  | comma => "COMMA"
  | semicolon => "SEMI"
  | finish => "EOF"

/-- The text of a kind that is always written the same way, without the
words. -/
def symbol? : Kind → Option String
  | arith op => some op.symbol
  | compare op => some op.symbol
  | assign => some "="
  | openParen => some "("
  | closeParen => some ")"
  | openBracket => some "["
  | closeBracket => some "]"
  | dot => some "."
  | comma => some ","
  | semicolon => some ";"
  | literal _ | name | finish => none

/-- How a message names a kind: the quoted symbol, or a word. -/
def describe (kind : Kind) : String :=
  match kind.symbol? with
  | some symbol => s!"'{symbol}'"
  | none => if kind = finish then "end of input" else kind.label.toLower

/-- All kinds. -/
def all : List Kind :=
  [.literal .number, .literal .string, .name, .literal .true, .literal .false, .literal .nil,
   .arith .plus, .arith .minus, .arith .times, .arith .divide,
   .compare .equal, .compare .notEqual, .compare .less, .compare .lessEqual,
   .compare .greater, .compare .greaterEqual,
   .assign, .openParen, .closeParen, .openBracket, .closeBracket, .dot, .comma, .semicolon,
   .finish]

/-- The kind with a given name. -/
def ofLabel? (label : String) : Option Kind :=
  all.find? (·.label = label)

end Kind

/-! ### Tokens -/

/-- A token: its kind, its text (none at the end of input), the place of its
first character and the offset after its last one. -/
structure Token where
  kind : Kind
  text : Option String
  start : Place
  stop : Nat
deriving DecidableEq, Repr

namespace Token

/-- The stretch of the source that a token takes. -/
def span (t : Token) : Span := ⟨t.start.offset, t.stop⟩

/-- A one-line listing of a kind with a text, a line and a column. Line and
column may be any numbers. -/
def listingOf (kind : Kind) (text : Option String) (line column : Int) : String :=
  let text := match text with
    | some text => quoted text
    | none => "None"
  s!"Tok({kind.label}, {text}, {line}:{column})"

/-- A one-line listing of a token. -/
def listing (t : Token) : String := listingOf t.kind t.text t.start.line t.start.column

end Token

/-- The tokens of a text: the proper ones in order, and the closing one. -/
structure Tokens where
  items : List Token
  finish : Token
deriving DecidableEq, Repr

/-- All tokens in order, the closing one last. -/
def Tokens.toList (tokens : Tokens) : List Token := tokens.items ++ [tokens.finish]

end ArrayExpr
