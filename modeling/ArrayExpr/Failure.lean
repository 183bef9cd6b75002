/-
Failures and errors of parsing.

* `ErrorKind`: the kinds of errors, with their wording;
* `Expectation`: what should have stood at the place of an error;
* `Failure`: a rule refused its input; `Failure.unexpected` refuses the token ahead;
* `Failure.declinesAt`: the input does not start the rule, nothing was read;
* `ParseError`: an error as it is reported, with the source for its line and
  column; `ParseError.message` is its wording.
-/
import ArrayExpr.TokenStream
import ArrayExpr.Scanner.Basic

namespace ArrayExpr

/-- The kinds of errors. -/
inductive ErrorKind where
  | unexpectedToken
  | unterminatedBracket
  | invalidAssignmentTarget
  | unexpectedEndOfInput
  | trailingInput
  | nestingTooDeep
  | invalidToken
deriving DecidableEq, Repr

namespace ErrorKind

/-- The wording of a kind. -/
def text : ErrorKind → String
  | unexpectedToken => "unexpected token"
  | unterminatedBracket => "unterminated bracket"
  | invalidAssignmentTarget => "invalid assignment target"
  | unexpectedEndOfInput => "unexpected end of input"
  | trailingInput => "trailing input"
  | nestingTooDeep => "nesting too deep"
  | invalidToken => "invalid token"

/-- Whether a failure of this kind leaves room for another rule. -/
def isRecoverable (kind : ErrorKind) : Bool :=
  kind = unexpectedToken || kind = unexpectedEndOfInput

end ErrorKind

/-- What should have stood at the place of an error. -/
inductive Expectation where
  /-- something that has a name -/
  | named (what : String)
  /-- something that closes a bracket which is still open -/
  | closing (what : String) (opener : Token)
  /-- at most `limit` brackets inside each other -/
  | nesting (limit : Int)
deriving DecidableEq, Repr

/-- The wording of an expectation. -/
def Expectation.text : Expectation → String
  | named what => what
  | closing what opener =>
    let symbol := opener.text.getD "None"
    s!"{what} to close '{symbol}' from line {opener.start.line}, col {opener.start.column}"
  | nesting limit => s!"at most {limit} levels of nesting"

/-! ### Failures of a rule -/

/-- A rule refused its input: where the problem was found, what was expected
there, the token found (none at the end of input), and the name of the
alternative that was being tried. -/
structure Failure where
  kind : ErrorKind
  offset : Nat
  expected : Expectation
  found : Option Token
  alternative : Option String
deriving DecidableEq, Repr

namespace Failure

/-- A failure of a given kind at the token ahead. -/
def ofKind (kind : ErrorKind) (s : TokenStream) (expected : Expectation) : Failure :=
  ⟨kind, s.offset, expected, s.peek?, none⟩

/-- The token ahead, or the end of input, is not what was expected. -/
def unexpected (s : TokenStream) (expected : Expectation) : Failure :=
  ofKind (if s.atEnd then .unexpectedEndOfInput else .unexpectedToken) s expected

/-- Whether another rule may be tried. -/
def isRecoverable (f : Failure) : Bool := f.kind.isRecoverable

/-- Whether the rule stopped where it began: the input does not start it. -/
def declinesAt (f : Failure) (s : TokenStream) : Bool :=
  f.isRecoverable && f.offset = s.offset

/-- The failure with the name of the alternative that was tried, unless it has
one from further inside. An empty name counts as none. -/
def inAlternative (f : Failure) (name : String) : Failure :=
  match f.alternative with
  | some inner => if inner = "" then { f with alternative := some name } else f
  | none => { f with alternative := some name }

/-- The failure further into the input, the first one of two at the same
offset. -/
def furthest (f g : Failure) : Failure := if f.offset < g.offset then g else f

end Failure

/-! ### Errors as they are reported -/

/-- An error in a source. -/
structure ParseError where
  kind : ErrorKind
  offset : Nat
  expected : Expectation
  source : List Char
  found : Option String
  alternative : Option String
  detail : Option String
deriving DecidableEq, Repr

namespace ParseError

/-- The line of an error, from one. -/
def line (e : ParseError) : Nat := (lineColumn e.source e.offset).1

/-- The column of an error, from one. -/
def column (e : ParseError) : Nat := (lineColumn e.source e.offset).2

/-- A remark in brackets, left out if it is missing or empty. -/
def remark (before : String) (text : Option String) : String :=
  match text with
  | some text => if text = "" then "" else s!" ({before}{text})"
  | none => ""

/-- The wording of an error. -/
def message (e : ParseError) : String :=
  let found := match e.found with
    | some found => quoted found
    | none => "end of input"
  s!"{e.kind.text}: expected {e.expected.text}, got {found}"
    ++ remark "while parsing " e.alternative ++ remark "" e.detail
    ++ s!" at line {e.line}, col {e.column}"

/-- The error of a failed rule: it quotes the source at the token found. -/
def ofFailure (f : Failure) (source : List Char) : ParseError :=
  ⟨f.kind, f.offset, f.expected, source,
    f.found.map fun t => String.ofList (t.span.text source), f.alternative, none⟩

/-- The error of a text that has no tokens: it quotes the character where the
token began. -/
def ofScanError (e : ScanError) (source : List Char) : ParseError :=
  ⟨.invalidToken, e.place.offset, .named "a valid token", source,
    source[e.place.offset]?.map String.singleton, none, some e.problem.message⟩

end ParseError

end ArrayExpr
