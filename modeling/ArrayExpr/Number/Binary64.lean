/-
Binary floating point numbers of 64 bits, without sign and without NaN.

* `roundQuotient`: a quotient rounded to the nearest whole number, a tie to
  the even neighbour;
* `Binary64.ofQuotient`: the nearest representable number of a quotient, a tie
  to the even significand, infinity past the largest finite one;
* `Binary64.units?`: the exact value, as a multiple of the smallest positive
  number `2 ^ -1074`;
* `Binary64.bits`: the bit pattern.

All is exact arithmetic on natural numbers.
-/

namespace ArrayExpr

/-- `a / b` rounded to the nearest whole number, a tie to the even one. -/
def roundQuotient (a b : Nat) : Nat :=
  let q := a / b
  let r := a % b
  if b < 2 * r || (2 * r = b && q % 2 = 1) then q + 1 else q

/-- A non-negative number of 64 bits. The finite ones are
`significand * 2 ^ shift` units of `2 ^ -1074`, where the significand has at
most 53 bits, and exactly 53 when the shift is positive. -/
inductive Binary64 where
  | finite (significand shift : Nat)
  | infinity
deriving DecidableEq, Repr

namespace Binary64

/-- The first significand of 53 bits. -/
def hidden : Nat := Nat.pow 2 52

/-- The largest shift of a finite number. -/
def maxShift : Nat := 2045

/-- Zero. -/
def zero : Binary64 := .finite 0 0

/-- The nearest number to `a / b` units of `2 ^ -1074`. The quotient is cut to
53 bits; where rounding carries into a 54th, the shift takes it up. -/
def ofUnitQuotient (a b : Nat) : Binary64 :=
  let shift := Nat.log2 (a / b) + 1 - 53
  let m := roundQuotient a (b * Nat.pow 2 shift)
  let (m, shift) := if m = 2 * hidden then (hidden, shift + 1) else (m, shift)
  if maxShift < shift then .infinity else .finite m shift

/-- The nearest number to `a / b`. -/
def ofQuotient (a b : Nat) : Binary64 := ofUnitQuotient (a * Nat.pow 2 1074) b

/-- The exact value in units of `2 ^ -1074`; none for infinity. -/
def units? : Binary64 → Option Nat
  | .finite m shift => some (m * Nat.pow 2 shift)
  | .infinity => none

/-- The bit pattern: eleven bits of exponent, then the fraction without the
leading bit of a full significand. -/
def bits : Binary64 → Nat
  | .finite m shift => if m < hidden then m else (shift + 1) * hidden + (m - hidden)
  | .infinity => 0x7ff * hidden

end Binary64

end ArrayExpr
