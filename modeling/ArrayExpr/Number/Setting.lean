/-
Whole numbers as settings write them.

* `isBlank`: the characters around a number that do not count;
* `readInteger`: sign, digits of any script, single underscores between
  digits, blanks around.
-/
import ArrayExpr.Text.DecimalDigit

namespace ArrayExpr

/-- The blanks of ASCII: tab to carriage return and the space. Those of other
scripts are the separators and the next-line control. -/
def isBlank (c : Char) : Bool :=
  let n := c.toNat
  (9 ≤ n && n ≤ 13) || n = 0x20 || n = 0x85 || n = 0xa0 || n = 0x1680
    || (0x2000 ≤ n && n ≤ 0x200a) || n = 0x2028 || n = 0x2029 || n = 0x202f
    || n = 0x205f || n = 0x3000

/-- The longest number of digits that is read. -/
def maxDigits : Nat := 4300

/-- The digits of a number, each underscore between two of them dropped. -/
def readDigits : List Char → Option (List Nat)
  | [] => none
  | [c] => (digitValue? c).map ([·])
  | c :: '_' :: rest => do return (← digitValue? c) :: (← readDigits rest)
  | c :: rest => do return (← digitValue? c) :: (← readDigits rest)

/-- A number without sign and blanks. -/
def readNatural (text : List Char) : Option Nat := do
  let digits ← readDigits text
  if digits.length ≤ maxDigits then some (digits.foldl (10 * · + ·) 0) else none

/-- A whole number: blanks around, at most one sign, digits. -/
def readInteger (text : List Char) : Option Int :=
  let text := ((text.dropWhile isBlank).reverse.dropWhile isBlank).reverse
  match text with
  | '-' :: rest => (readNatural rest).map fun n => -(n : Int)
  | '+' :: rest => (readNatural rest).map Int.ofNat
  | rest => (readNatural rest).map Int.ofNat

end ArrayExpr
