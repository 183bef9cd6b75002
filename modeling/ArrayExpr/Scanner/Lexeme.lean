/-
Lexemes: what a token takes from the text ahead of it.

* `Lexeme.number`: digits, then a point with digits, then an exponent, each
  part only where it is complete;
* `Lexeme.stringBody`: a string up to its closing quote; a backslash takes the
  next character along;
* `Lexeme.word`: letters, digits and underscores;
* `Lexeme.operator?`: the first operator, two characters before one.

Each is a function of the text ahead alone, and gives the characters taken.
Letters and digits are those of ASCII.
-/
import ArrayExpr.Token

namespace ArrayExpr

namespace Lexeme

/-- What may stand between tokens. -/
def isLayout (c : Char) : Bool := c = ' ' || c = '\t' || c = '\n' || c = '\r'

/-- What a comment stops before: the end of a line, or the sentinel of the end
of the text. -/
def endsComment (c : Char) : Bool := c = '\n' || c = '\r' || c = '\x00'

/-- What a name starts with. -/
def isWordStart (c : Char) : Bool := c.isAlpha || c = '_'

/-- What a name goes on with. -/
def isWordChar (c : Char) : Bool := isWordStart c || c.isDigit

/-! ### Numbers -/

/-- The digits ahead. -/
def digits (text : List Char) : List Char := text.takeWhile Char.isDigit

/-- A point and digits; nothing if no digit follows the point. -/
def fraction : List Char → List Char
  | '.' :: rest => if (digits rest).isEmpty then [] else '.' :: digits rest
  | _ => []

/-- The sign ahead, if there is one. -/
def sign : List Char → List Char
  | '+' :: _ => ['+']
  | '-' :: _ => ['-']
  | _ => []

/-- A mark `e` or `E`, a sign and digits; nothing if the digits are missing. -/
def exponent : List Char → List Char
  | [] => []
  | c :: rest =>
    let power := digits (rest.drop (sign rest).length)
    if (c = 'e' || c = 'E') && !power.isEmpty then c :: (sign rest ++ power) else []

/-- A number: digits, fraction and exponent, each as far as it goes. -/
def number (text : List Char) : List Char :=
  let whole := digits text
  let rest := text.drop whole.length
  let part := fraction rest
  whole ++ part ++ exponent (rest.drop part.length)

/-! ### Strings and words -/

/-- The characters up to the next quote. A backslash and the character after
it are taken together, so that neither ends the string. -/
def stringBody (quote : Char) : List Char → List Char
  | [] => []
  | c :: rest =>
    if c = quote then []
    else if c = '\\' then
      match rest with
      | [] => [c]
      | d :: rest => c :: d :: stringBody quote rest
    else c :: stringBody quote rest

/-- The word ahead. -/
def word (text : List Char) : List Char := text.takeWhile isWordChar

/-- The kind of a word: three words are literals, all others are names. -/
def wordKind (word : List Char) : Kind :=
  if word = ['t', 'r', 'u', 'e'] then .literal .true
  else if word = ['f', 'a', 'l', 's', 'e'] then .literal .false
  else if word = ['n', 'i', 'l'] then .literal .nil
  else .name

/-! ### Operators -/

/-- The operators, a longer one before each that starts it. -/
def operators : List (List Char × Kind) :=
  [(['=', '='], .compare .equal),
   (['!', '='], .compare .notEqual),
   (['<', '='], .compare .lessEqual),
   (['>', '='], .compare .greaterEqual),
   (['+'], .arith .plus),
   (['-'], .arith .minus),
   (['*'], .arith .times),
   (['/'], .arith .divide),
   (['<'], .compare .less),
   (['>'], .compare .greater),
   (['='], .assign),
   (['('], .openParen),
   ([')'], .closeParen),
   (['['], .openBracket),
   ([']'], .closeBracket),
   (['.'], .dot),
   ([','], .comma),
   ([';'], .semicolon)]

/-- The operator ahead. -/
def operator? (text : List Char) : Option (List Char × Kind) :=
  operators.find? fun op => op.1.isPrefixOf text

end Lexeme

end ArrayExpr
