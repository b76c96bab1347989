/-
**Binary numbers** of 64 bits: what their bits stand for, when two of them are the same value, and
the remainder of a division.

A finite value is a sign and a magnitude m · 2^q with natural m. The order of the values is the
order of an integer, `rank`, which is read off the bits: the bits of a magnitude grow with the
magnitude, so signed bits order all numbers, the two zeros get one rank, and one more rank above
all others is left for the value that is no number. Sameness and order are then those of the
integers, and need no law about floating-point comparison.
-/
import ConstNarrow.Text.Numeral

set_option autoImplicit false

namespace ConstNarrow.Binary64

/-! ## Order and sameness -/

/-- The position of a value among all values, with both zeros at 0 and no number at the top. -/
def rank (x : Float) : Int :=
  let bits := x.toBits.toNat
  if x.isNaN then Int.pow 2 63
  else if bits < Nat.pow 2 63 then bits
  else -((bits - Nat.pow 2 63 : Nat) : Int)

/-- Whether two values are the same: both zeros are, and so is what is no number. -/
def same (x y : Float) : Bool := rank x == rank y

/-- The order of the values by `rank`. -/
def order (x y : Float) : Ordering := compare (rank x) (rank y)

@[simp] theorem same_self (x : Float) : same x x = true := by
  simp [same]

theorem same_comm (x y : Float) : same x y = same y x := by
  simp [same, Bool.beq_comm]

theorem same_trans {x y z : Float} (hxy : same x y = true) (hyz : same y z = true) :
    same x z = true := by
  simp only [same, beq_iff_eq] at *
  rw [hxy, hyz]

/-! ## Magnitudes -/

/-- The magnitude m · 2^q of a finite value. -/
structure Magnitude where
  /-- the integral factor m -/
  factor : Nat
  /-- the exponent q of the power of two -/
  exponent : Int
deriving DecidableEq, Repr

/-- Whether the sign bit is set. -/
def isNegative (x : Float) : Bool := x.toBits.toNat ≥ Nat.pow 2 63

/-- The magnitude of a finite value. The values below the least power of two of full precision
share its exponent and lack the leading bit. -/
def magnitude (x : Float) : Magnitude :=
  let bits : Nat := x.toBits.toNat % Nat.pow 2 63
  let field : Nat := bits / Nat.pow 2 52
  let fraction : Nat := bits % Nat.pow 2 52
  if field = 0 then ⟨fraction, -1074⟩ else ⟨Nat.pow 2 52 + fraction, (field : Int) - 1075⟩

/-- The value nearest to m · 2^q. A negative power of two is written over a power of ten. -/
def ofMagnitude (x : Magnitude) : Float :=
  let k := x.exponent.natAbs
  if 0 ≤ x.exponent then Float.ofScientific (x.factor * Nat.pow 2 k) false 0
  else Float.ofScientific (x.factor * Nat.pow 5 k) true k

/-- The value nearest to m · 10^e. Outside of the guarded range nothing but infinity and zero is
near. -/
def ofDecimal (m : Nat) (e : Int) : Float :=
  let size := (Text.digitCount m : Int) + e
  if m = 0 ∨ size < -400 then 0.0
  else if 400 < size then 1.0 / 0.0
  else Float.ofScientific m (e < 0) e.natAbs

/-- The power of two with a whole exponent. Powers from 2^1024 on are infinite, and their
reciprocals are zero. -/
def twoPow (e : Int) : Float :=
  if 1024 ≤ e then 1.0 / 0.0 else if e ≤ -1024 then 0.0 else ofMagnitude ⟨1, e⟩

/-! ## Remainder -/

/-- The remainder of magnitudes, brought to the smaller of the two exponents. -/
def Magnitude.mod (x y : Magnitude) : Magnitude :=
  let q := min x.exponent y.exponent
  ⟨(x.factor * Nat.pow 2 (x.exponent - q).toNat) % (y.factor * Nat.pow 2 (y.exponent - q).toNat), q⟩

/-- The remainder of the division truncated toward zero, with the sign of the dividend. It is
exact. An infinite dividend and a zero divisor have none; an infinite divisor leaves the dividend. -/
def remainder (x y : Float) : Float :=
  if x.isNaN || y.isNaN || x.isInf || y == 0.0 then 0.0 / 0.0
  else if y.isInf then x
  else
    let r := ofMagnitude ((magnitude x).mod (magnitude y))
    if isNegative x then -r else r

end ConstNarrow.Binary64
