/-
**Decimals as text.**

Written, a decimal shows all digits of its coefficient. Positional notation is used while it needs
no more than six places in front of the first digit and no more than 34 digits in all; beyond that
an exponent stands after the digits, always with its sign. Read, a decimal may have a sign, a
point, underscores between its digits and an exponent.
-/
import ConstNarrow.Decimal.Basic

set_option autoImplicit false

namespace ConstNarrow.Decimal

open ConstNarrow.Text

/-! ## Writing -/

/-- The digits with a point before the last `scale` of them. -/
def withPoint (ds : List Char) (scale : Nat) : List Char :=
  if scale = 0 then ds
  else if scale < ds.length then
    ds.take (ds.length - scale) ++ ['.'] ++ ds.drop (ds.length - scale)
  else ['0', '.'] ++ List.replicate (scale - ds.length) '0' ++ ds

/-- The digits with a point after the first of them, and the exponent of the first. -/
def withExponent (ds : List Char) (leading : Int) : List Char :=
  let sign := if leading < 0 then [] else ['+']
  ds.take 1 ++ (if ds.length ≤ 1 then [] else ['.']) ++ ds.drop 1 ++ ['E'] ++ sign
    ++ (renderInt leading).toList

/-- The text of the magnitude. -/
def renderMagnitude (d : Decimal) : List Char :=
  let ds := digits d.coefficient.natAbs
  if 0 ≤ d.scale ∧ -6 ≤ d.leadingWord then withPoint ds d.scale.toNat
  else if d.scale < 0 ∧ d.leadingWord < precision then ds ++ List.replicate (-d.scale).toNat '0'
  else withExponent ds d.leadingWord

/-- The text of the number. -/
def render (d : Decimal) : String :=
  String.ofList (if d.coefficient < 0 then '-' :: d.renderMagnitude else d.renderMagnitude)

/-! ## Reading -/

/-- Why a text is no decimal. -/
inductive ReadError where
  | malformed (text : String)
  | outOfRange (text : String)
deriving DecidableEq, Repr

/-- The explanation that is shown. -/
def ReadError.message : ReadError → String
  | .malformed text => "`" ++ text ++ "` is not a decimal number"
  | .outOfRange text => "`" ++ text ++ "` is outside the decimal range"

/-- Reads digits among which underscores may stand, though not in front. -/
def grouped? (cs : List Char) : Option Nat :=
  match cs with
  | [] => none
  | '_' :: _ => none
  | cs => natural? 10 (cs.filter (· != '_'))

/-- Reads grouped digits after at most one sign. -/
def groupedInteger? : List Char → Option Int
  | '-' :: cs => (grouped? cs).map fun n => -(n : Int)
  | '+' :: cs => (grouped? cs).map fun n => (n : Int)
  | cs => (grouped? cs).map fun n => (n : Int)

/-- Takes the first point out of a row of digits, and counts the digits after it. -/
def withoutPoint (cs : List Char) : List Char × Nat :=
  match splitFirst? (· == '.') cs with
  | none => (cs, 0)
  | some (whole, after) => (whole ++ after, (after.filter (· != '_')).length)

/-- The number as it is written, before rounding. Exponents are words of 128 bits, and the scale
has to fit into one of 64. -/
def parts? (cs : List Char) : Option Decimal :=
  let (mantissa, exponent) := (splitFirst? isExponentMark cs).getD (cs, ['0'])
  (integerWithin? 128 10 exponent).bind fun e =>
  let (row, places) := withoutPoint mantissa
  let scale := (places : Int) - e
  if -Int.pow 2 63 ≤ scale ∧ scale < Int.pow 2 63 then
    (groupedInteger? row).map fun n => ⟨n, scale⟩
  else none

/-- Reads a decimal and rounds it. -/
def read (text : String) : Except ReadError Decimal :=
  match parts? text.toList with
  | none => .error (.malformed text)
  | some d =>
    match d.round? with
    | none => .error (.outOfRange text)
    | some d => .ok d

/-- The decimal, if the text is one. -/
def read? (text : String) : Option Decimal := (read text).toOption

end ConstNarrow.Decimal
