/-
**Numerals**: whole numbers written in digits of some base, with an optional sign.

Only the digits of the basic Latin alphabet count, there are no separators, and at least one digit
is needed. Whether a number fits where it is wanted is for the reader's caller to say.
-/

set_option autoImplicit false

namespace ConstNarrow.Text

/-- The value of a digit in a base up to 16; letters of both cases stand for ten and above. -/
def digitValue? (base : Nat) (c : Char) : Option Nat :=
  let value :=
    if '0' ≤ c ∧ c ≤ '9' then c.toNat - '0'.toNat
    else if 'a' ≤ c ∧ c ≤ 'f' then c.toNat - 'a'.toNat + 10
    else if 'A' ≤ c ∧ c ≤ 'F' then c.toNat - 'A'.toNat + 10
    else base
  if value < base then some value else none

/-- Reads digits from the most significant one on, above a number that is already read. -/
def digitsFrom? (base acc : Nat) : List Char → Option Nat
  | [] => some acc
  | c :: cs => (digitValue? base c).bind fun d => digitsFrom? base (acc * base + d) cs

/-- The number that a non-empty row of digits stands for. -/
def natural? (base : Nat) (cs : List Char) : Option Nat :=
  if cs.isEmpty then none else digitsFrom? base 0 cs

/-- The number that a row of digits after at most one sign stands for. -/
def integer? (base : Nat) : List Char → Option Int
  | '-' :: cs => (natural? base cs).map fun n => -(n : Int)
  | '+' :: cs => (natural? base cs).map fun n => (n : Int)
  | cs => (natural? base cs).map fun n => (n : Int)

/-- The number, if it fits into a two's-complement word of the given width. -/
def integerWithin? (width base : Nat) (cs : List Char) : Option Int :=
  (integer? base cs).filter fun n => -Int.pow 2 (width - 1) ≤ n ∧ n < Int.pow 2 (width - 1)

/-- The decimal digits of a number, the most significant one first. -/
def digits (n : Nat) : List Char := Nat.toDigits 10 n

/-- How many decimal digits a number has; zero has one. -/
def digitCount (n : Nat) : Nat := (digits n).length

/-- A whole number in decimal digits, with a sign in front if it is negative. -/
def renderInt (i : Int) : String :=
  String.ofList (if i < 0 then '-' :: digits i.natAbs else digits i.natAbs)

/-- The characters before and after the first one that satisfies `p`, if there is one. -/
def splitFirst? (p : Char → Bool) : List Char → Option (List Char × List Char)
  | [] => none
  | c :: cs => if p c then some ([], cs) else (splitFirst? p cs).map fun (before, after) => (c :: before, after)

/-- The marks that start an exponent. -/
def isExponentMark (c : Char) : Bool := c == 'e' || c == 'E'

end ConstNarrow.Text
