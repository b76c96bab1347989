/-
**Scalars** and **singletons**: one compile-time value, and one value under a primitive type.

A scalar belongs to a primitive by nature. A singleton may put it under another one: a byte is an
integer scalar under `byte`. Numbers are the same scalar when they have the same value, so both
zeros of the binary numbers are, and so are `0.30` and `0.3` as decimals, although their texts
differ. A singleton has the same value as another one if the scalars are the same and the bases
lie in one domain.
-/
import ConstNarrow.Primitive
import ConstNarrow.Text.Quoted
import ConstNarrow.Binary64.Text
import ConstNarrow.Decimal.Text

set_option autoImplicit false

namespace ConstNarrow

/-- One value. -/
inductive Scalar where
  | int (i : Int64)
  | float (x : Float)
  | decimal (d : Decimal)
  | string (s : String)
  | boolean (b : Bool)
  | nil

namespace Scalar

/-- The primitive that a value belongs to by nature. -/
def naturalBase : Scalar → Primitive
  | .int _ => .int
  | .float _ => .float
  | .decimal _ => .decimal
  | .string _ => .string
  | .boolean _ => .boolean
  | .nil => .nil

/-- Whether two scalars are the same value. -/
def same : Scalar → Scalar → Bool
  | .int a, .int b => a == b
  | .float a, .float b => Binary64.same a b
  | .decimal a, .decimal b => Decimal.same a b
  | .string a, .string b => a == b
  | .boolean a, .boolean b => a == b
  | .nil, .nil => true
  | _, _ => false

instance : BEq Scalar := ⟨same⟩

/-- Scalars are ordered by their nature first and then by value; false comes before true. -/
def order : Scalar → Scalar → Ordering
  | .int a, .int b => compare a b
  | .float a, .float b => Binary64.order a b
  | .decimal a, .decimal b => Decimal.order a b
  | .string a, .string b => compare a b
  | .boolean a, .boolean b => compare a b
  | a, b => compare a.naturalBase.index b.naturalBase.index

/-- The integer, if it is one. -/
def int? : Scalar → Option Int64
  | .int i => some i
  | _ => none

/-- The truth value, if it is one. -/
def boolean? : Scalar → Option Bool
  | .boolean b => some b
  | _ => none

/-- The string, if it is one. -/
def string? : Scalar → Option String
  | .string s => some s
  | _ => none

/-- The value as it is written in a program. -/
def render : Scalar → String
  | .int i => Text.renderInt i.toInt
  | .float x => Binary64.render x
  | .decimal d => d.render ++ "d"
  | .string s => Text.quoted s
  | .boolean true => "true"
  | .boolean false => "false"
  | .nil => "()"

end Scalar

/-- Whether an integer is a byte. -/
def isByte (i : Int64) : Bool := 0 ≤ i.toInt && i.toInt ≤ 255

/-- One value and the primitive that it is typed as. -/
structure Singleton where
  value : Scalar
  base : Primitive

namespace Singleton

/-- A value under its natural primitive. -/
def ofScalar (value : Scalar) : Singleton := ⟨value, value.naturalBase⟩

/-- The value `()`. -/
def nil : Singleton := ofScalar .nil

/-- An integer as a byte, if it is one. -/
def byte? (i : Int64) : Option Singleton := if isByte i then some ⟨.int i, .byte⟩ else none

/-- The same value under another primitive. -/
def withBase (s : Singleton) (base : Primitive) : Singleton := ⟨s.value, base⟩

/-- Whether two singletons have the same scalar and the same base. -/
def same (a b : Singleton) : Bool := a.value == b.value && a.base == b.base

instance : BEq Singleton := ⟨same⟩

/-- Whether two singletons are the same value of one domain: a byte may equal an integer. -/
def sameValue (a b : Singleton) : Bool := a.value == b.value && a.base.domain == b.base.domain

/-- Singletons are ordered by value first and then by base. -/
def order (a b : Singleton) : Ordering :=
  (a.value.order b.value).then (compare a.base.index b.base.index)

/-- Whether the value belongs to a primitive. A byte is an integer, and an integer is a byte if it
is small enough. -/
def fits (s : Singleton) (target : Primitive) : Bool :=
  if s.base = target then true
  else
    match s.base, target with
    | .byte, .int => true
    | .int, .byte => s.value.int?.any isByte
    | _, _ => false

/-- The value as it is written in a program. -/
def render (s : Singleton) : String := s.value.render

end Singleton

end ConstNarrow
