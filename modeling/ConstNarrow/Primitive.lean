/-
The **primitive types** and the numeric kinds behind them.

Seven primitives exist. Four of them hold numbers, but arithmetic knows only three domains: a
byte computes as an integer and differs from it only in the values it may hold. `numericKind?`
is that projection, and `domain` extends it to the primitives that hold no numbers, so that two
primitives have the same domain exactly when a value of one can be compared with a value of the
other.
-/

set_option autoImplicit false

namespace ConstNarrow

/-- The types that values have by nature, in the order in which they are listed everywhere. -/
inductive Primitive where
  | int
  | float
  | decimal
  | string
  | boolean
  | nil
  /-- An integer between 0 and 255. -/
  | byte
deriving DecidableEq, Repr

/-- The domains in which numbers are computed. -/
inductive NumericKind where
  | int
  | float
  | decimal
deriving DecidableEq, Repr

namespace NumericKind

/-- The primitive whose values are the numbers of this kind. -/
def toPrimitive : NumericKind → Primitive
  | .int => .int
  | .float => .float
  | .decimal => .decimal

/-- Where one number has several readings, the kind with the least priority number is taken. -/
def priority : NumericKind → Nat
  | .int => 0
  | .float => 1
  | .decimal => 2

/-- No two kinds have the same priority. -/
theorem priority_injective {a b : NumericKind} (h : a.priority = b.priority) : a = b := by
  cases a <;> cases b <;> simp_all [priority]

end NumericKind

namespace Primitive

/-- Every primitive, in listing order. -/
def all : List Primitive := [.int, .float, .decimal, .string, .boolean, .nil, .byte]

theorem mem_all (p : Primitive) : p ∈ all := by
  cases p <;> decide

/-- The position in `all`, which orders values that differ in their primitive only. -/
def index : Primitive → Nat
  | .int => 0
  | .float => 1
  | .decimal => 2
  | .string => 3
  | .boolean => 4
  | .nil => 5
  | .byte => 6

/-- The domain in which values of this primitive are computed, if they are numbers. -/
def numericKind? : Primitive → Option NumericKind
  | .int | .byte => some .int
  | .float => some .float
  | .decimal => some .decimal
  | .string | .boolean | .nil => none

/-- Whether the values are numbers. -/
def isNumeric (p : Primitive) : Bool := p.numericKind?.isSome

/-- The priority of the numeric kind, if there is one. -/
def numericPriority? (p : Primitive) : Option Nat := p.numericKind?.map NumericKind.priority

/-- The primitive under which values of `p` are compared: bytes count as integers. -/
def domain (p : Primitive) : Primitive :=
  match p.numericKind? with
  | some kind => kind.toPrimitive
  | none => p

@[simp] theorem domain_byte : domain .byte = .int := rfl

@[simp] theorem domain_domain (p : Primitive) : p.domain.domain = p.domain := by
  cases p <;> rfl

@[simp] theorem numericKind?_toPrimitive (k : NumericKind) : k.toPrimitive.numericKind? = some k := by
  cases k <;> rfl

/-- The name of the primitive as a keyword. -/
def name : Primitive → String
  | .int => "int"
  | .float => "float"
  | .decimal => "decimal"
  | .string => "string"
  | .boolean => "boolean"
  | .nil => "nil"
  | .byte => "byte"

/-- The primitive as it is written in a type: nil is written like its one value. -/
def render : Primitive → String
  | .nil => "()"
  | p => p.name

end Primitive

end ConstNarrow
