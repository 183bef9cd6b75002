/-
The scanner.

* `Scanner`: the characters ahead, the place reached, the place where the
  current token begins, and the tokens emitted so far;
* `Scanner.advance`: moves on, past the end of the text too, where every
  character is the sentinel `'\x00'`;
* `Scanner.scanToken`: layout, a comment, or one token;
* `Scanner.scanAll`: the whole text;
* `tokenize`: the tokens of a text, or the place where none could be read.

A scan that is refused keeps the state in which it stopped, so a scanner can
go on from there.
-/
import ArrayExpr.Scanner.Lexeme

namespace ArrayExpr

/-! ### Refusals -/

/-- Why no token could be read. -/
inductive ScanProblem where
  | unterminatedString
  | invalidNumberSuffix
  | unexpectedCharacter (c : Char)
deriving DecidableEq, Repr

/-- The wording of a problem. -/
def ScanProblem.message : ScanProblem → String
  | unterminatedString => "Unterminated string"
  | invalidNumberSuffix => "Invalid number suffix"
  | unexpectedCharacter c => s!"Unexpected character '{c}'"

/-- A problem, with the place where the token began. -/
structure ScanError where
  problem : ScanProblem
  place : Place
deriving DecidableEq, Repr

/-- The wording of an error with its place. -/
def ScanError.message (e : ScanError) : String :=
  s!"{e.problem.message} at line {e.place.line}, col {e.place.column}"

/-! ### State -/

/-- A scanner in the middle of a text. -/
structure Scanner where
  /-- the characters not yet passed -/
  ahead : List Char
  /-- the place of the first of them -/
  here : Place
  /-- where the token being read begins -/
  start : Place
  /-- the tokens read so far, the newest first -/
  emitted : List Token
deriving Repr

/-- A scanner after a scan, and why the scan was refused if it was. -/
structure Scanned where
  scanner : Scanner
  refused : Option ScanError
deriving Repr

namespace Scanner

/-- The scanner at the start of a text. -/
def ofSource (source : List Char) : Scanner := ⟨source, .origin, .origin, []⟩

/-- The character `n` places ahead, the sentinel past the end. -/
def peek (s : Scanner) (n : Nat) : Char := s.ahead[n]?.getD '\x00'

/-- The next `n` characters, filled up with the sentinel past the end. -/
def upcoming (s : Scanner) (n : Nat) : List Char := (s.ahead.take n).rightpad n '\x00'

/-- The scanner after the next `n` characters. -/
def advance (s : Scanner) (n : Nat) : Scanner :=
  { s with ahead := s.ahead.drop n, here := s.here.after (s.upcoming n) }

/-- Begins a token here. -/
def mark (s : Scanner) : Scanner := { s with start := s.here }

/-- The token from the last mark up to here. -/
def token (s : Scanner) (kind : Kind) (text : Option String) : Token :=
  ⟨kind, text, s.start, s.here.offset⟩

/-- Adds a token that ends here. -/
def emit (s : Scanner) (kind : Kind) (text : Option String) : Scanner :=
  { s with emitted := s.token kind text :: s.emitted }

/-- The outcome of a scan that went well. -/
def accepted (s : Scanner) : Scanned := ⟨s, none⟩

/-- The outcome of a scan that met a problem in the token begun at the last
mark. -/
def refuse (s : Scanner) (problem : ScanProblem) : Scanned := ⟨s, some ⟨problem, s.start⟩⟩

/-! ### Scans -/

/-- Passes layout. -/
def skipLayout (s : Scanner) : Scanner :=
  s.advance (s.ahead.takeWhile Lexeme.isLayout).length

/-- Whether layout stands here. -/
def atLayout (s : Scanner) : Bool := Lexeme.isLayout (s.peek 0)

/-- Passes the rest of a comment. -/
def skipComment (s : Scanner) : Scanner :=
  s.advance (s.ahead.takeWhile fun c => !Lexeme.endsComment c).length

/-- Reads a string whose opening quote, whatever it is, stands here. -/
def scanString (s : Scanner) : Scanned :=
  let quote := s.peek 0
  let inside := s.advance 1
  let body := Lexeme.stringBody quote inside.ahead
  let closing := inside.advance body.length
  if closing.ahead.isEmpty then closing.refuse .unterminatedString
  else
    ((closing.advance 1).emit (.literal .string)
      (String.ofList (quote :: body ++ [quote]))).accepted

/-- Reads a number. A letter may not follow it. -/
def scanNumber (s : Scanner) : Scanned :=
  let text := Lexeme.number s.ahead
  let s := s.advance text.length
  if Lexeme.isWordStart (s.peek 0) then s.refuse .invalidNumberSuffix
  else (s.emit (.literal .number) (String.ofList text)).accepted

/-- Reads a word. -/
def scanWord (s : Scanner) : Scanned :=
  let text := Lexeme.word s.ahead
  ((s.advance text.length).emit (Lexeme.wordKind text) (String.ofList text)).accepted

/-- Reads an operator. -/
def scanOperator (s : Scanner) : Scanned :=
  match Lexeme.operator? s.ahead with
  | some (text, kind) => ((s.advance text.length).emit kind (String.ofList text)).accepted
  | none => s.refuse (.unexpectedCharacter (s.peek 0))

/-- Reads what stands here: layout, a comment or a token. -/
def scanToken (s : Scanner) : Scanned :=
  if s.atLayout then s.skipLayout.accepted
  else if s.peek 0 = '#' then s.skipComment.accepted
  else
    let s := s.mark
    let c := s.peek 0
    if c = '"' || c = '\'' then s.scanString
    else if c.isDigit then s.scanNumber
    else if Lexeme.isWordStart c then s.scanWord
    else s.scanOperator

/-- Reads on to the end of the text. Each round passes at least one of the
characters ahead, so that they bound the number of rounds. -/
def scanWithin : List Char → Scanner → Scanned
  | [], s => s.accepted
  | _ :: fuel, s =>
    if s.ahead.isEmpty then s.accepted
    else
      let r := s.scanToken
      match r.refused with
      | none => scanWithin fuel r.scanner
      | some _ => r

/-- Reads all that is ahead. -/
def scanAll (s : Scanner) : Scanned := scanWithin s.ahead s

end Scanner

/-! ### Tokens of a text -/

/-- The tokens that a scanner at the end of its text has read. -/
def Scanner.tokens (s : Scanner) : Tokens :=
  ⟨s.emitted.reverse, s.mark.token .finish none⟩

/-- The tokens of a text, or the first problem. -/
def tokenize (source : String) : Except ScanError Tokens :=
  let r := (Scanner.ofSource source.toList).scanAll
  match r.refused with
  | none => .ok r.scanner.tokens
  | some e => .error e

end ArrayExpr
