/-
The terminals of the reference grammar.

* `Reference.number?`, `Reference.string?`, `Reference.word?`,
  `Reference.operator?`: one terminal at the front of a text, with the text
  after it;
* `Reference.ignored?`: white space and comments;
* `Reference.read`: the tokens of a text, up to the first place where no
  terminal matches.

Digits are those of all scripts, white space includes the form feed, a comment
ends at a newline only, a backslash does not take a newline along, and a
number may be followed by a letter.
-/
import ArrayExpr.Token
import ArrayExpr.Text.DecimalDigit

namespace ArrayExpr

namespace Reference

/-- A piece at the front of a text, and the text after it. -/
abbrev Piece : Type := List Char × List Char

/-- A piece that may be missing. -/
def optional (piece? : List Char → Option Piece) (text : List Char) : Piece :=
  (piece? text).getD ([], text)

/-- The longest piece of characters in a class, not empty. -/
def run? (inClass : Char → Bool) (text : List Char) : Option Piece :=
  let piece := text.span inClass
  if piece.1.isEmpty then none else some piece

/-! ### Numbers -/

/-- Decimal digits. -/
def digits? (text : List Char) : Option Piece := run? isDecimalDigit text

/-- A point with digits after it. -/
def fraction? : List Char → Option Piece
  | '.' :: rest => do
    let (digits, rest) ← digits? rest
    return ('.' :: digits, rest)
  | _ => none

/-- A sign. -/
def sign? : List Char → Option Piece
  | c :: rest => if c = '+' || c = '-' then some ([c], rest) else none
  | [] => none

/-- An exponent mark, maybe a sign, and digits. -/
def exponent? : List Char → Option Piece
  | c :: rest =>
    if c = 'e' || c = 'E' then do
      let (sign, rest) := optional sign? rest
      let (digits, rest) ← digits? rest
      return (c :: (sign ++ digits), rest)
    else none
  | [] => none

/-- A number. -/
def number? (text : List Char) : Option Piece := do
  let (whole, rest) ← digits? text
  let (fraction, rest) := optional fraction? rest
  let (exponent, rest) := optional exponent? rest
  return (whole ++ fraction ++ exponent, rest)

/-! ### Strings, words and operators -/

/-- A piece with characters before it. -/
def after (before : List Char) : Option Piece → Option Piece
  | some (piece, rest) => some (before ++ piece, rest)
  | none => none

/-- The rest of a string with its closing quote. -/
def stringRest? (quote : Char) : List Char → Option Piece
  | [] => none
  | c :: rest =>
    if c = quote then some ([c], rest)
    else if c = '\\' then
      match rest with
      | [] => none
      | d :: rest => if d = '\n' then none else after [c, d] (stringRest? quote rest)
    else after [c] (stringRest? quote rest)

/-- A string in quotes of either kind. -/
def string? : List Char → Option Piece
  | c :: rest => if c = '"' || c = '\'' then after [c] (stringRest? c rest) else none
  | [] => none

/-- What a word starts with. -/
def startsWord (c : Char) : Bool := c.isAlpha || c = '_'

/-- A word. -/
def word? : List Char → Option Piece
  | c :: rest =>
    if startsWord c then
      let (others, rest) := rest.span fun d => startsWord d || d.isDigit
      some (c :: others, rest)
    else none
  | [] => none

/-- The kind of a word. -/
def wordKind (word : List Char) : Kind :=
  match String.ofList word with
  | "true" => .literal .true
  | "false" => .literal .false
  | "nil" => .literal .nil
  | _ => .name

/-- An operator; one of two characters before one of one. -/
def operator? : List Char → Option (Kind × Piece)
  | '=' :: '=' :: rest => some (.compare .equal, ['=', '='], rest)
  | '!' :: '=' :: rest => some (.compare .notEqual, ['!', '='], rest)
  | '<' :: '=' :: rest => some (.compare .lessEqual, ['<', '='], rest)
  | '>' :: '=' :: rest => some (.compare .greaterEqual, ['>', '='], rest)
  | '<' :: rest => some (.compare .less, ['<'], rest)
  | '>' :: rest => some (.compare .greater, ['>'], rest)
  | '=' :: rest => some (.assign, ['='], rest)
  | '+' :: rest => some (.arith .plus, ['+'], rest)
  | '-' :: rest => some (.arith .minus, ['-'], rest)
  | '*' :: rest => some (.arith .times, ['*'], rest)
  | '/' :: rest => some (.arith .divide, ['/'], rest)
  | '(' :: rest => some (.openParen, ['('], rest)
  | ')' :: rest => some (.closeParen, [')'], rest)
  | '[' :: rest => some (.openBracket, ['['], rest)
  | ']' :: rest => some (.closeBracket, [']'], rest)
  | '.' :: rest => some (.dot, ['.'], rest)
  | ',' :: rest => some (.comma, [','], rest)
  | ';' :: rest => some (.semicolon, [';'], rest)
  | _ => none

/-! ### Texts -/

/-- White space. -/
def isSpace (c : Char) : Bool :=
  c = ' ' || c = '\t' || c = '\x0c' || c = '\r' || c = '\n'

/-- White space or a comment. -/
def ignored? (text : List Char) : Option Piece :=
  match text with
  | '#' :: _ => some (text.span (· != '\n'))
  | _ => run? isSpace text

/-- A terminal with its kind. -/
def terminal? (text : List Char) : Option (Kind × Piece) :=
  match number? text with
  | some piece => some (.literal .number, piece)
  | none =>
    match string? text with
    | some piece => some (.literal .string, piece)
    | none =>
      match word? text with
      | some piece => some (wordKind piece.1, piece)
      | none => operator? text

/-- The tokens at the front of a text, and the place where no terminal matches
if there is one. -/
structure Reading where
  tokens : List Token
  stuck : Option Place
deriving DecidableEq, Repr

/-- Reads on at a place, after the tokens `done`, the last one first. Every
round takes at least one character. -/
def readWithin : List Char → Place → List Token → List Char → Reading
  | _, _, done, [] => ⟨done.reverse, none⟩
  | [], place, done, _ :: _ => ⟨done.reverse, some place⟩
  | _ :: fuel, place, done, text =>
    match ignored? text with
    | some (piece, rest) => readWithin fuel (place.after piece) done rest
    | none =>
      match terminal? text with
      | some (kind, piece, rest) =>
        let stop := place.after piece
        let token : Token := ⟨kind, some (String.ofList piece), place, stop.offset⟩
        readWithin fuel stop (token :: done) rest
      | none => ⟨done.reverse, some place⟩

/-- Reads a text. -/
def read (source : List Char) : Reading := readWithin source .origin [] source

end Reference

end ArrayExpr
