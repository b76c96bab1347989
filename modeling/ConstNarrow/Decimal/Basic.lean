/-
**Decimal numbers** of 34 digits: the type, its order, and rounding.

A decimal is a coefficient n and a scale s and stands for n · 10^-s. The scale is kept as written,
so `0.30` and `0.3` are two decimals with one value; sameness and order look at the value only.
Every number enters the type through `round?`, which first rounds to 34 digits, a half to the even
neighbour, and then refuses what lies outside the range of exponents. Zero has no sign and any
scale.
-/
import ConstNarrow.Text.Numeral

set_option autoImplicit false

namespace ConstNarrow

/-- The number n · 10^-s with its coefficient n and its scale s. -/
structure Decimal where
  coefficient : Int
  scale : Int
deriving Repr

namespace Decimal

/-! ## The format -/

/-- How many significant digits are kept. -/
def precision : Nat := 34

/-- The largest exponent that a leading digit may have. -/
def maxExponent : Int := 6144

/-- The smallest exponent that the leading digit of a number other than zero may have. -/
def minExponent : Int := -6176

/-- Zero without decimal places. -/
def zero : Decimal := ⟨0, 0⟩

/-- A whole number of 64 bits, which always fits. -/
def ofInt64 (i : Int64) : Decimal := ⟨i.toInt, 0⟩

/-- Whether the number is zero, at whatever scale. -/
def isZero (d : Decimal) : Bool := d.coefficient == 0

/-- The number of digits of the coefficient. -/
def digitCount (d : Decimal) : Nat := Text.digitCount d.coefficient.natAbs

/-- The exponent of the leading digit. -/
def leading (d : Decimal) : Int := (d.digitCount : Int) - 1 - d.scale

/-- This exponent in a word of 64 bits. Of all decimals, only a zero with the lowest scale has another
one there. -/
def leadingWord (d : Decimal) : Int := d.leading.bmod (Nat.pow 2 64)

/-! ## Order -/

/-- The coefficient at a scale that is not below the decimal's own. -/
def coefficientAt (d : Decimal) (scale : Int) : Int := d.coefficient * Int.pow 10 (scale - d.scale).toNat

/-- The order of the values. Numbers of different sign, zero included, are told apart by it; others
are brought to one scale. -/
def order (a b : Decimal) : Ordering :=
  if a.coefficient.sign ≠ b.coefficient.sign ∨ a.isZero then
    compare a.coefficient.sign b.coefficient.sign
  else
    let scale := max a.scale b.scale
    compare (a.coefficientAt scale) (b.coefficientAt scale)

/-- Whether two decimals have the same value. -/
def same (a b : Decimal) : Bool := order a b == .eq

/-! ## Rounding -/

/-- A quotient rounded to the nearest whole number, a half to the even one. -/
def divHalfEven (n d : Nat) : Nat :=
  let q := n / d
  match compare (2 * (n % d)) d with
  | .lt => q
  | .gt => q + 1
  | .eq => if q % 2 = 0 then q else q + 1

/-- Keeps the leading digits of a number that has more than `precision` of them. A carry into a
new digit leaves one digit more, all of whose followers are zero. -/
def keepDigits (d : Decimal) : Decimal :=
  if precision < d.digitCount then
    let dropped := d.digitCount - precision
    let kept := divHalfEven d.coefficient.natAbs (Nat.pow 10 dropped)
    ⟨d.coefficient.sign * (kept : Int), d.scale - dropped⟩
  else d

/-- Whether the number is zero or its leading digit stands within the range of exponents. -/
def InRange (d : Decimal) : Prop :=
  d.coefficient = 0 ∨ (minExponent ≤ d.leading ∧ d.leading ≤ maxExponent)

instance (d : Decimal) : Decidable d.InRange :=
  inferInstanceAs (Decidable (d.coefficient = 0 ∨ (minExponent ≤ d.leading ∧ d.leading ≤ maxExponent)))

/-- The rounded number, if it is in range. -/
def round? (d : Decimal) : Option Decimal :=
  let kept := d.keepDigits
  if kept.InRange then some kept else none

/-- The number n · 10^-s for words of 64 bits. -/
def ofParts? (coefficient scale : Int64) : Option Decimal := round? ⟨coefficient.toInt, scale.toInt⟩

end Decimal

end ConstNarrow
