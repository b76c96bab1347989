/-
**Decimal arithmetic.** Each operation computes a result and rounds it once more with `round?`.

Sum, difference, product and remainder are exact before that last step. A quotient is developed
digit by digit to at most a hundred digits, far beyond the 34 that are kept. Which scale a result
has is part of each rule, since it shows in the text of the number. A number other than zero has a
moderate scale, but zero may have any, so no rule brings a number to the scale of a zero by a power
of ten: the zeros that this would append are cut off again by rounding.
-/
import ConstNarrow.Decimal.Basic

set_option autoImplicit false

namespace ConstNarrow.Decimal

/-- The number at a larger scale. -/
def extend (d : Decimal) (places : Nat) : Decimal :=
  ⟨d.coefficient * Int.pow 10 places, d.scale + places⟩

/-- The number with the scale raised toward another one, by fifteen places at most. -/
def extendToward (d : Decimal) (scale : Int) : Decimal := d.extend (min (scale - d.scale).toNat 15)

/-- The number at another scale if that is the larger one. Zero moves there at once. To any other
number no more zeros are appended than there are digits to keep: rounding gives the same for more. -/
def raiseTo (d : Decimal) (scale : Int) : Decimal :=
  let places := (scale - d.scale).toNat
  if d.isZero then ⟨0, d.scale + places⟩ else d.extend (min places precision)

/-- The number with the opposite sign, at the same scale. -/
def neg (d : Decimal) : Decimal := ⟨-d.coefficient, d.scale⟩

/-- Applies an operation to the coefficients at the larger of the two scales. -/
def aligned (f : Int → Int → Int) (a b : Decimal) : Decimal :=
  let scale := max a.scale b.scale
  ⟨f (a.coefficientAt scale) (b.coefficientAt scale), scale⟩

/-- The sum. Adding zero keeps the other number and only moves its scale toward that of zero. -/
def add? (a b : Decimal) : Option Decimal :=
  round? <|
    if b.isZero then a.extendToward b.scale
    else if a.isZero then b.extendToward a.scale
    else aligned (· + ·) a b

/-- The difference, at the larger of the two scales. -/
def sub? (a b : Decimal) : Option Decimal :=
  round? <|
    if b.isZero then a.raiseTo b.scale
    else if a.isZero then b.neg.raiseTo a.scale
    else aligned (· - ·) a b

/-- Whether the number is one, at whatever scale. -/
def isOne (d : Decimal) : Bool :=
  -- the digits are counted first, so that a large scale alone needs no power of ten
  0 ≤ d.scale && (d.digitCount : Int) == d.scale + 1 && d.coefficient == Int.pow 10 d.scale.toNat

/-- Removes up to `n` trailing zeros of the coefficient. -/
def stripZeros (d : Decimal) : Nat → Decimal
  | 0 => d
  | n + 1 => if d.coefficient % 10 = 0 then stripZeros ⟨d.coefficient / 10, d.scale - 1⟩ n else d

/-- The number without trailing zeros; zero gets the scale zero. -/
def normalize (d : Decimal) : Decimal := if d.isZero then zero else d.stripZeros d.digitCount

/-- The sum of two scales, in a word of 64 bits. Only the scales of zeros come near its limits. -/
def addScales (s t : Int) : Int := (s + t).bmod (Nat.pow 2 64)

/-- The product. Multiplying by one leaves the other number without trailing zeros. -/
def mul? (a b : Decimal) : Option Decimal :=
  round? <|
    if a.isOne then b.normalize
    else if b.isOne then a.normalize
    else ⟨a.coefficient * b.coefficient, addScales a.scale b.scale⟩

/-! ## Division -/

/-- How many digits of a quotient are developed. -/
def quotientDigits : Nat := 100

/-- A quotient under development: its digits so far, the remainder and the scale. -/
structure Quotient where
  digits : Nat
  rest : Nat
  scale : Int

/-- How many zeros to append to `n` for it to reach `d`. -/
def headroom (n d : Nat) : Nat :=
  let k := Text.digitCount d - Text.digitCount n
  if n * Nat.pow 10 k < d then k + 1 else k

/-- Develops up to `k` further digits of a quotient by `d`, until nothing is left. -/
def Quotient.develop (d : Nat) (q : Quotient) : Nat → Quotient
  | 0 => q
  | k + 1 =>
    if q.rest = 0 then q
    else Quotient.develop d ⟨q.digits * 10 + q.rest * 10 / d, q.rest * 10 % d, q.scale + 1⟩ k

/-- The quotient of two positive numbers; what is left after the last digit rounds it half up. -/
def divDigits (n d : Nat) (scale : Int) : Decimal :=
  let k := headroom n d
  -- the dividend now reaches the divisor, so the quotient starts with a digit other than zero
  let first : Quotient := ⟨n * Nat.pow 10 k / d, n * Nat.pow 10 k % d, scale + k⟩
  let last := first.develop d (quotientDigits - Text.digitCount first.digits)
  ⟨if d ≤ 2 * last.rest then last.digits + 1 else last.digits, last.scale⟩

/-- The quotient, unless the divisor is zero. -/
def div? (a b : Decimal) : Option Decimal :=
  if b.isZero then none
  else
    let scale := a.scale - b.scale
    round? <|
      if a.isZero || b.isOne then a
      else if a.coefficient = b.coefficient then ⟨1, scale⟩
      else
        let q := divDigits a.coefficient.natAbs b.coefficient.natAbs scale
        ⟨a.coefficient.sign * b.coefficient.sign * q.coefficient, q.scale⟩

/-- The remainder of the division truncated toward zero, with the sign of the dividend, unless the
divisor is zero. -/
def rem? (a b : Decimal) : Option Decimal :=
  if b.isZero then none
  else round? (if a.isZero then a.raiseTo b.scale else aligned Int.tmod a b)

end ConstNarrow.Decimal
