/-
**Operators** and the primitives they are defined on.

An operator is defined for some bases of its operands and then has one result base. Both operands
lie in one domain: there is no widening from one number type to another, and a byte computes as an
integer.
-/
import ConstNarrow.Primitive

set_option autoImplicit false

namespace ConstNarrow

/-- The operators of arithmetic. -/
inductive ArithOp where
  | add
  | sub
  | mul
  | div
  | mod
deriving DecidableEq, Repr

/-- The operators on the bits of an integer. -/
inductive BitOp where
  | and
  | or
  | xor
  | shiftLeft
  /-- the shift that keeps the sign -/
  | shiftRight
  /-- the shift that fills with zeros -/
  | shiftRightZero
deriving DecidableEq, Repr

/-- The operators on truth values. -/
inductive LogicOp where
  | and
  | or
deriving DecidableEq, Repr

/-- The operators with two operands. -/
inductive BinaryOp where
  | arith (op : ArithOp)
  | bit (op : BitOp)
  | logic (op : LogicOp)
deriving DecidableEq, Repr

/-- The operators with one operand. -/
inductive UnaryOp where
  | plus
  | minus
  | complement
  | not
deriving DecidableEq, Repr

namespace BinaryOp

/-- Every binary operator. -/
def all : List BinaryOp :=
  [.arith .add, .arith .sub, .arith .mul, .arith .div, .arith .mod, .bit .and, .bit .or, .bit .xor,
    .bit .shiftLeft, .bit .shiftRight, .bit .shiftRightZero, .logic .and, .logic .or]

/-- The operator as it is written. -/
def symbol : BinaryOp → String
  | .arith .add => "+"
  | .arith .sub => "-"
  | .arith .mul => "*"
  | .arith .div => "/"
  | .arith .mod => "%"
  | .bit .and => "&"
  | .bit .or => "|"
  | .bit .xor => "^"
  | .bit .shiftLeft => "<<"
  | .bit .shiftRight => ">>"
  | .bit .shiftRightZero => ">>>"
  | .logic .and => "&&"
  | .logic .or => "||"

/-- The operator of a symbol. -/
def ofSymbol? (symbol : String) : Option BinaryOp := all.find? (·.symbol == symbol)

/-- The kind that two primitives compute in, if it is the same. -/
def commonKind? (lhs rhs : Primitive) : Option NumericKind :=
  lhs.numericKind?.filter fun kind => rhs.numericKind? == some kind

/-- The base of the result for operands of given bases, if the operator is defined for them. -/
def resultBase? : BinaryOp → Primitive → Primitive → Option Primitive
  | .arith .add, .string, .string => some .string
  | .arith _, lhs, rhs => (commonKind? lhs rhs).map NumericKind.toPrimitive
  | .bit _, lhs, rhs => if commonKind? lhs rhs = some .int then some .int else none
  | .logic _, .boolean, .boolean => some .boolean
  | .logic _, _, _ => none

end BinaryOp

namespace UnaryOp

/-- Every unary operator. -/
def all : List UnaryOp := [.plus, .minus, .complement, .not]

/-- The operator as it is written. -/
def symbol : UnaryOp → String
  | .plus => "+"
  | .minus => "-"
  | .complement => "~"
  | .not => "!"

/-- The operator of a symbol. -/
def ofSymbol? (symbol : String) : Option UnaryOp := all.find? (·.symbol == symbol)

/-- The base of the result for an operand of a given base, if the operator is defined for it. -/
def resultBase? : UnaryOp → Primitive → Option Primitive
  | .plus, operand => operand.numericKind?.map NumericKind.toPrimitive
  | .minus, operand => operand.numericKind?.map NumericKind.toPrimitive
  | .complement, operand => if operand.numericKind? = some .int then some .int else none
  | .not, operand => if operand = .boolean then some .boolean else none

end UnaryOp

end ConstNarrow
