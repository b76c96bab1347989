/-
**Literals** and their readings.

A literal keeps the text of a number, since the same text may be a number of several kinds. Where
nothing is expected of it, an integer is an `int` and a number with a point is a `float`. Where a
type is expected, the literal has a reading in each kind that its text allows, and the choice is
left to what happens to it. The order of the readings matters when a choice falls on the first:
integers offer int, float, decimal; numbers with a point offer decimal, float.
-/
import ConstNarrow.Ty.Numeric

set_option autoImplicit false

namespace ConstNarrow

/-- A literal as it is written. -/
inductive Literal where
  /-- decimal digits, or hexadecimal ones after `0x` -/
  | int (text : String)
  /-- a decimal number, perhaps with `f` or `d` at its end to fix its kind -/
  | float (text : String)
  /-- a hexadecimal number with a binary exponent -/
  | hexFloat (text : String)
  | string (value : String)
  | boolean (value : Bool)
  | nil
deriving DecidableEq, Repr

namespace Literal

/-! ## Reading numbers -/

/-- The text after `0x`, if it starts so. -/
def hexDigits? : List Char → Option (List Char)
  | '0' :: 'x' :: cs => some cs
  | '0' :: 'X' :: cs => some cs
  | _ => none

/-- Whether an integer is written in hexadecimal digits. -/
def isHex (text : String) : Bool := (hexDigits? text.toList).isSome

/-- The integer of 64 bits that a text stands for. A sign may follow `0x`. -/
def readInt? (text : String) : Option Int64 :=
  let value? :=
    match hexDigits? text.toList with
    | some cs => Text.integerWithin? 64 16 cs
    | none => Text.integerWithin? 64 10 text.toList
  value?.map Int64.ofInt

/-- Whether the digits before the exponent are all zero. -/
def hasZeroDigits (text : String) : Bool :=
  (text.toList.takeWhile (!Text.isExponentMark ·)).all (['0', '.', '+', '-'].contains ·)

/-- The finite binary number that a text stands for. A number that only rounds to zero is none. -/
def readFloat? (text : String) : Option Float :=
  (Binary64.read? text).filter fun x => x.isFinite && (x != 0.0 || hasZeroDigits text)

/-- The text without its last character, if that is one of two given ones. -/
def withoutMark? (text : String) (lower upper : Char) : Option String :=
  match text.toList.reverse with
  | c :: cs => if c == lower || c == upper then some (String.ofList cs.reverse) else none
  | [] => none

/-! ## Types of literals -/

/-- The text is out of the range of every kind that the literal could have. -/
structure OutOfRange where
  text : String
deriving DecidableEq, Repr

/-- The explanation that is shown. -/
def OutOfRange.message (e : OutOfRange) : String := "`" ++ e.text ++ "` is out of range"

/-- Keeps the readings of the kinds that a type can hold. If it can hold no number at all, nothing
is dropped. -/
def restrict (readings : List Singleton) (expected : Ty) : List Singleton :=
  let kinds := expected.numericKinds
  if kinds.isEmpty then readings
  else readings.filter fun s => s.base.numericKind?.any kinds.contains

/-- The type of readings: their union, and an error if there is none. -/
def typeOf (text : String) (readings : List Singleton) : Except OutOfRange Ty :=
  if readings.isEmpty then .error ⟨text⟩ else .ok (Ty.unionOf (readings.map Ty.singleton))

/-- The readings of a number of ambiguous kind where `expected` is expected. -/
def inContext (text : String) (readings : List Singleton) (expected : Ty) (pruning : Bool) :
    Except OutOfRange Ty :=
  typeOf text (if pruning then restrict readings expected else readings)

/-- The readings of an integer: as int, as float, and unless it is hexadecimal as decimal. -/
def intReadings (text : String) (i : Int64) : List Singleton :=
  [.ofScalar (.int i), .ofScalar (.float (Float.ofInt i.toInt))]
    ++ if isHex text then [] else [.ofScalar (.decimal (.ofInt64 i))]

/-- The readings of a number with a point: as decimal and as float, where the text allows it. -/
def pointReadings (text : String) : List Singleton :=
  ((Decimal.read? text).map fun d => Singleton.ofScalar (.decimal d)).toList
    ++ ((readFloat? text).map fun x => Singleton.ofScalar (.float x)).toList

/-- The reading as a float only. -/
def onlyFloat (text : String) (value? : Option Float) : Except OutOfRange Ty :=
  typeOf text (value?.map fun x => Singleton.ofScalar (.float x)).toList

/-- The type of a literal where some type may be expected. An error type is no expectation.
`pruning` says whether readings that the expected type cannot hold are dropped. -/
def inferType (literal : Literal) (expected : Option Ty) (pruning : Bool) : Except OutOfRange Ty :=
  let expected := expected.filter (!·.effective.isError)
  match literal with
  | .int text =>
    match readInt? text, expected with
    | none, _ => .error ⟨text⟩
    | some i, none => .ok (.singleton (.ofScalar (.int i)))
    | some i, some ty => inContext text (intReadings text i) ty pruning
  | .float text =>
    match withoutMark? text 'f' 'F', withoutMark? text 'd' 'D', expected with
    | some body, _, _ => onlyFloat text (readFloat? body)
    | none, some body, _ =>
      typeOf text ((Decimal.read? body).map fun d => Singleton.ofScalar (.decimal d)).toList
    | none, none, none => onlyFloat text (readFloat? text)
    | none, none, some ty => inContext text (pointReadings text) ty pruning
  | .hexFloat text => onlyFloat text (Binary64.readHex? text)
  | .string value => .ok (.singleton (.ofScalar (.string value)))
  | .boolean value => .ok (.singleton (.ofScalar (.boolean value)))
  | .nil => .ok (.singleton .nil)

end Literal

end ConstNarrow
