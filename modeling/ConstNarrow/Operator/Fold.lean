/-
**Folding**: the value of an operator on values.

An operation has no value if its result does not exist in the domain: an integer that does not fit
into 64 bits, a division by zero outside of the binary numbers, a decimal out of range. It has none
either if the operands are not of the domain.
-/
import ConstNarrow.Operator.Basic
import ConstNarrow.Singleton
import ConstNarrow.Decimal.Arithmetic

set_option autoImplicit false

namespace ConstNarrow

/-! ## Integers -/

namespace Word

/-- The word of 64 bits with a given value, if there is one. -/
def ofInt? (i : Int) : Option Int64 :=
  if -Int.pow 2 63 ≤ i ∧ i < Int.pow 2 63 then some (Int64.ofInt i) else none

/-- The exact result of an operation, if it fits. A quotient is truncated toward zero, and a
remainder exists where the quotient does. -/
def arith : ArithOp → Int64 → Int64 → Option Int64
  | .add, a, b => ofInt? (a.toInt + b.toInt)
  | .sub, a, b => ofInt? (a.toInt - b.toInt)
  | .mul, a, b => ofInt? (a.toInt * b.toInt)
  | .div, a, b => if b = 0 then none else ofInt? (a.toInt.tdiv b.toInt)
  | .mod, a, b =>
    if b = 0 then none else (ofInt? (a.toInt.tdiv b.toInt)).bind fun _ => ofInt? (a.toInt.tmod b.toInt)

/-- The operations on bits. Only the lowest six bits of a shift count are used. -/
def bits : BitOp → Int64 → Int64 → Int64
  | .and, a, b => a &&& b
  | .or, a, b => a ||| b
  | .xor, a, b => a ^^^ b
  | .shiftLeft, a, b => a <<< (b &&& 63)
  | .shiftRight, a, b => a >>> (b &&& 63)
  | .shiftRightZero, a, b => (a.toUInt64 >>> (b &&& 63).toUInt64).toInt64

end Word

/-! ## Binary numbers and decimals -/

/-- Arithmetic of binary numbers, which always has a value. -/
def Binary64.arith : ArithOp → Float → Float → Float
  | .add, a, b => a + b
  | .sub, a, b => a - b
  | .mul, a, b => a * b
  | .div, a, b => a / b
  | .mod, a, b => Binary64.remainder a b

/-- Arithmetic of decimals. -/
def Decimal.arith : ArithOp → Decimal → Decimal → Option Decimal
  | .add, a, b => a.add? b
  | .sub, a, b => a.sub? b
  | .mul, a, b => a.mul? b
  | .div, a, b => a.div? b
  | .mod, a, b => a.rem? b

/-- The operations on truth values. -/
def LogicOp.apply : LogicOp → Bool → Bool → Bool
  | .and, a, b => a && b
  | .or, a, b => a || b

/-! ## All operators -/

/-- The value of a binary operator in the domain of `result`, if there is one. -/
def BinaryOp.fold? : BinaryOp → Scalar → Scalar → (result : Primitive) → Option Scalar
  | .arith op, .int a, .int b, .int => (Word.arith op a b).map .int
  | .arith op, .float a, .float b, .float => some (.float (Binary64.arith op a b))
  | .arith op, .decimal a, .decimal b, .decimal => (Decimal.arith op a b).map .decimal
  | .arith .add, .string a, .string b, .string => some (.string (a ++ b))
  | .bit op, .int a, .int b, .int => some (.int (Word.bits op a b))
  | .logic op, .boolean a, .boolean b, .boolean => some (.boolean (op.apply a b))
  | _, _, _, _ => none

/-- The value of a unary operator, if there is one. -/
def UnaryOp.fold? : UnaryOp → Scalar → Option Scalar
  | .plus, .int a => some (.int a)
  | .plus, .float a => some (.float a)
  | .plus, .decimal a => some (.decimal a)
  | .minus, .int a => (Word.ofInt? (-a.toInt)).map .int
  | .minus, .float a => some (.float (-a))
  | .minus, .decimal a => some (.decimal a.neg)
  | .complement, .int a => some (.int (~~~a))
  | .not, .boolean b => some (.boolean !b)
  | _, _ => none

end ConstNarrow
