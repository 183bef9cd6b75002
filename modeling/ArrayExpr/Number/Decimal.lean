/-
Decimal numerals.

* `digitsValue`: the number a run of digits writes;
* `Decimal.read`: a numeral `12.5e-3` as a whole number times a power of ten;
* `Decimal.toBinary64`: the nearest number of 64 bits.
-/
import ArrayExpr.Number.Binary64

namespace ArrayExpr

/-- The number that a run of ASCII digits writes, after the digits of `n`. -/
def digitsValueFrom (n : Nat) (digits : List Char) : Nat :=
  digits.foldl (fun n c => 10 * n + (c.toNat - '0'.toNat)) n

/-- The number that a run of ASCII digits writes. -/
def digitsValue (digits : List Char) : Nat := digitsValueFrom 0 digits

/-- The value `digits * 10 ^ exponent`. -/
structure Decimal where
  digits : Nat
  exponent : Int
deriving DecidableEq, Repr

namespace Decimal

/-- The exponent that stands after `e` or `E`, zero if there is none. -/
def readExponent : List Char → Int
  | [] => 0
  | _ :: '-' :: digits => -(digitsValue digits : Int)
  | _ :: '+' :: digits => digitsValue digits
  | _ :: digits => digitsValue digits

/-- The value of a numeral: digits, then maybe a point and digits, then maybe
an exponent. -/
def read (numeral : List Char) : Decimal :=
  let whole := numeral.takeWhile Char.isDigit
  let rest := numeral.drop whole.length
  let (fraction, rest) :=
    match rest with
    | '.' :: rest => (rest.takeWhile Char.isDigit, rest.dropWhile Char.isDigit)
    | rest => ([], rest)
  ⟨digitsValueFrom (digitsValue whole) fraction, readExponent rest - fraction.length⟩

/-- How many decimal digits a positive number has; zero for zero. -/
def size (n : Nat) : Nat := if n = 0 then 0 else (Nat.toDigits 10 n).length

/-- The nearest number of 64 bits. A value of `10 ^ 309` or more is infinity
and one below `10 ^ -324` is zero, however long its exponent. -/
def toBinary64 (d : Decimal) : Binary64 :=
  let places := size d.digits + d.exponent
  if d.digits = 0 ∨ places ≤ -324 then .zero
  else if 309 < places then .infinity
  else match d.exponent with
    | .ofNat e => .ofQuotient (d.digits * Nat.pow 10 e) 1
    | .negSucc e => .ofQuotient d.digits (Nat.pow 10 (e + 1))

end Decimal

end ArrayExpr
