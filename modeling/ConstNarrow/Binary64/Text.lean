/-
**Binary numbers as text.**

Written, a number has the fewest digits that identify it, positionally while its leading digit
stands between 10^-4 and 10^15 and otherwise with an exponent. Read, a number is a decimal with an
optional fraction and exponent, or a name for infinity or for what is no number; a hexadecimal
number always has a binary exponent.
-/
import ConstNarrow.Binary64.Shortest

set_option autoImplicit false

namespace ConstNarrow.Binary64

open ConstNarrow.Text

/-! ## Writing -/

/-- Positional notation: the point stands after, inside or before the digits, and at least one
digit stands on either side of it. -/
def positional (ds : List Char) (leading : Int) : List Char :=
  let whole := (leading + 1).toNat
  if leading < 0 then ['0', '.'] ++ List.replicate (-leading - 1).toNat '0' ++ ds
  else if ds.length ≤ whole then ds ++ List.replicate (whole - ds.length) '0' ++ ['.', '0']
  else ds.take whole ++ ['.'] ++ ds.drop whole

/-- Scientific notation: one digit before the point, and no point if nothing follows it. -/
def scientific (ds : List Char) (leading : Int) : List Char :=
  ds.take 1 ++ (if ds.length ≤ 1 then [] else '.' :: ds.drop 1) ++ ['e']
    ++ (renderInt leading).toList

/-- The text of a positive finite magnitude. -/
def Magnitude.render (x : Magnitude) : List Char :=
  let d := x.shortest
  let ds := digits d.coefficient
  let leading := d.exponent + ds.length - 1
  if -4 ≤ leading ∧ leading < 16 then positional ds leading else scientific ds leading

/-- The text of a value. Zero keeps its sign. -/
def render (x : Float) : String :=
  if x.isNaN then "NaN"
  else
    let sign := if isNegative x then ['-'] else []
    let body :=
      if x.isInf then "inf".toList
      else if (magnitude x).factor = 0 then "0.0".toList
      else (magnitude x).render
    String.ofList (sign ++ body)

/-! ## Reading decimals -/

/-- The names of values without digits. -/
def named? (cs : List Char) : Option Float :=
  let name := String.ofList (cs.map Char.toLower)
  if name == "inf" || name == "infinity" then some (1.0 / 0.0)
  else if name == "nan" then some (0.0 / 0.0)
  else none

/-- A row of digits around at most one point, as m · 10^e; one of the sides may be empty. -/
def fraction? (cs : List Char) : Option Digits :=
  let (whole, after) := (splitFirst? (· == '.') cs).getD (cs, [])
  (natural? 10 (whole ++ after)).map fun m => ⟨m, -(after.length : Int)⟩

/-- A number without a sign. -/
def unsigned? (cs : List Char) : Option Float :=
  match splitFirst? isExponentMark cs with
  | none => (fraction? cs).map fun d => ofDecimal d.coefficient d.exponent
  | some (mantissa, exponent) =>
    (fraction? mantissa).bind fun d => (integer? 10 exponent).map fun e =>
      ofDecimal d.coefficient (d.exponent + e)

/-- Reads a number: an optional sign, then a name or a decimal. The result is the nearest value,
and infinity if the number is too large. -/
def read? (text : String) : Option Float :=
  let body (cs : List Char) := (named? cs).or (unsigned? cs)
  match text.toList with
  | '-' :: cs => (body cs).map fun x => -x
  | '+' :: cs => body cs
  | cs => body cs

/-! ## Reading hexadecimal numbers -/

/-- Adds the digits before the point, rounding at each step. -/
def hexWhole? (acc : Float) : List Char → Option Float
  | [] => some acc
  | c :: cs => (digitValue? 16 c).bind fun d => hexWhole? (acc * 16.0 + Float.ofNat d) cs

/-- Adds the digits after the point, each at a sixteenth of the place before, rounding at each
step. -/
def hexFraction? (acc place : Float) : List Char → Option Float
  | [] => some acc
  | c :: cs =>
    (digitValue? 16 c).bind fun d => hexFraction? (acc + Float.ofNat d * place) (place / 16.0) cs

/-- Reads a hexadecimal number such as `0x1.8p-3`. The exponent is a word of 32 bits, and the
result has to be finite. -/
def readHex? (text : String) : Option Float :=
  let body? :=
    match text.toList with
    | '0' :: 'x' :: cs => some cs
    | '0' :: 'X' :: cs => some cs
    | _ => none
  body?.bind fun body =>
  (splitFirst? (fun c => c == 'p' || c == 'P') body).bind fun (mantissa, exponent) =>
  (integerWithin? 32 10 exponent).bind fun e =>
  let (whole, after) := (splitFirst? (· == '.') mantissa).getD (mantissa, [])
  if whole.isEmpty && after.isEmpty then none
  else
    (hexWhole? 0.0 whole).bind fun x =>
    (hexFraction? x (1.0 / 16.0) after).bind fun y =>
    let value := y * twoPow e
    if value.isFinite then some value else none

end ConstNarrow.Binary64
