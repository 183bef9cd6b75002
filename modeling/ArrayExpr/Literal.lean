/-
Literals.

* `Literal`: a kind and the text as it stands in the source;
* `Literal.value`: the value it writes;
* `Literal.overlong?`: the number of digits of an integer that is too long to
  be read;
* `Escape`, `unescape_eq_iff`: what each escape stands for; an unknown one is kept as
  it stands;
* `decodeString`: the text that a string writes;
* `Value.key`: what two values are compared by; integers and floating point
  numbers are compared exactly.
-/
import ArrayExpr.Token
import ArrayExpr.Number.Decimal
import ArrayExpr.Number.Setting

namespace ArrayExpr

/-- A literal as it stands in the source. -/
structure Literal where
  kind : LiteralKind
  text : String
deriving DecidableEq, Repr

/-- The values of literals. -/
inductive Value where
  | integer (n : Nat)
  | real (x : Binary64)
  | text (s : String)
  | truth (b : Bool)
  | nil
deriving DecidableEq, Repr

/-! ### Strings -/

/-- What a backslash and the character after it stand for. -/
def unescape (c : Char) : List Char :=
  if c = 'n' then ['\n']
  else if c = 't' then ['\t']
  else if c = 'r' then ['\r']
  else if c = '0' then ['\x00']
  else if c = '\\' || c = '"' || c = '\'' then [c]
  else ['\\', c]

/-- What a character behind a backslash stands for together with it: some letters and
the digit zero for a character that is hard to write, a backslash and a quote for
themselves. Any other character keeps its backslash. -/
inductive Escape : Char → List Char → Prop
  | newline : Escape 'n' ['\n']
  | tab : Escape 't' ['\t']
  | carriageReturn : Escape 'r' ['\r']
  | nul : Escape '0' ['\x00']
  | backslash : Escape '\\' ['\\']
  | doubleQuote : Escape '"' ['"']
  | singleQuote : Escape '\'' ['\'']
  | unknown {c : Char} (h : c ∉ ['n', 't', 'r', '0', '\\', '"', '\'']) : Escape c ['\\', c]

/-- **The table of escapes**, with nothing besides. -/
theorem unescape_eq_iff {c : Char} {text : List Char} : unescape c = text ↔ Escape c text := by
  constructor
  · intro h
    subst h
    by_cases hc : c ∈ ['n', 't', 'r', '0', '\\', '"', '\'']
    · simp only [List.mem_cons, List.not_mem_nil, or_false] at hc
      rcases hc with rfl | rfl | rfl | rfl | rfl | rfl | rfl
      · exact .newline
      · exact .tab
      · exact .carriageReturn
      · exact .nul
      · exact .backslash
      · exact .doubleQuote
      · exact .singleQuote
    · have hunknown : unescape c = ['\\', c] := by
        simp only [List.mem_cons, List.not_mem_nil, or_false, not_or] at hc
        simp [unescape, hc]
      rw [hunknown]
      exact .unknown hc
  · intro h
    cases h with
    | unknown h =>
      simp only [List.mem_cons, List.not_mem_nil, or_false, not_or] at h
      simp [unescape, h]
    | _ => rfl

/-- The text between the quotes with its escapes resolved. A backslash at the
very end stands for itself. -/
def decodeBody : List Char → List Char
  | [] => []
  | [c] => [c]
  | c :: d :: rest =>
    if c = '\\' then unescape d ++ decodeBody rest else c :: decodeBody (d :: rest)

/-- The text that a string with its quotes stands for. -/
def decodeString (raw : List Char) : List Char := decodeBody (raw.drop 1).dropLast

/-! ### Values -/

namespace Literal

/-- Whether the text of a number writes an integer: no point and no
exponent. -/
def isInteger (text : List Char) : Bool :=
  !text.any fun c => c = '.' || c = 'e' || c = 'E'

/-- The number of digits, where it is more than are read. -/
def overlong? (l : Literal) : Option Nat :=
  if l.kind = .number && isInteger l.text.toList && maxDigits < l.text.length then
    some l.text.length
  else none

/-- The wording for an integer of too many digits. -/
def overlongMessage (digits : Nat) : String :=
  s!"Exceeds the limit ({maxDigits} digits) for integer string conversion: value has "
    ++ s!"{digits} digits; use sys.set_int_max_str_digits() to increase the limit"

/-- The value that a literal writes. -/
def value (l : Literal) : Value :=
  match l.kind with
  | .number =>
    let text := l.text.toList
    if isInteger text then .integer (digitsValue text)
    else .real (Decimal.read text).toBinary64
  | .string => .text (String.ofList (decodeString l.text.toList))
  | .true => .truth true
  | .false => .truth false
  | .nil => .nil

end Literal

/-! ### Equality of values -/

/-- What two literals are compared by. A number is given in units of
`2 ^ -1074`, of which every finite number is a whole multiple; infinity has no
multiple. -/
inductive ValueKey where
  | number (units : Option Nat)
  | text (s : String)
  | truth (b : Bool)
  | nil
deriving DecidableEq, Repr

/-- The key of a value. -/
def Value.key : Value → ValueKey
  | integer n => .number (some (n * Nat.pow 2 1074))
  | real x => .number x.units?
  | text s => .text s
  | truth b => .truth b
  | nil => .nil

end ArrayExpr
