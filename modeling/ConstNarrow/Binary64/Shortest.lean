/-
**The fewest digits that identify a binary number.**

The reals that round to a finite value form an interval around it, from halfway to the neighbour
below to halfway to the neighbour above, and a decimal identifies the value exactly when it lies
in that interval. Its ends belong to it if the integral factor is even, since a tie is rounded to
the even neighbour. The search goes through the decimal grids from one digit on and takes, on the
first grid that has a point in the interval, the nearest one. A value's two neighbours on a grid
are the only points that need a test: if any point of the grid lies in the interval, one of these
two does. All comparisons are between natural numbers.
-/
import ConstNarrow.Binary64.Basic

set_option autoImplicit false

namespace ConstNarrow.Binary64

/-- A decimal d · 10^e. -/
structure Digits where
  /-- the digits as one number d -/
  coefficient : Nat
  /-- the power of ten e of the last digit -/
  exponent : Int
deriving DecidableEq, Repr

/-- A ratio of natural numbers. -/
structure Ratio where
  num : Nat
  den : Nat
deriving DecidableEq, Repr

/-- n · 2^q as a ratio. -/
def Ratio.ofBinary (n : Nat) (q : Int) : Ratio := ⟨n * Nat.pow 2 q.toNat, Nat.pow 2 (-q).toNat⟩

/-- The ratio divided by 10^e. -/
def Ratio.shift (r : Ratio) (e : Int) : Ratio :=
  ⟨r.num * Nat.pow 10 (-e).toNat, r.den * Nat.pow 10 e.toNat⟩

/-- The exponent of the leading decimal digit of a positive ratio. -/
def Ratio.leading (r : Ratio) : Int :=
  if r.den ≤ r.num then (Text.digitCount (r.num / r.den) : Int) - 1
  else
    let k := Text.digitCount r.den - Text.digitCount r.num
    if r.num * Nat.pow 10 k < r.den then -((k : Int) + 1) else -(k : Int)

/-- The reals that round to a positive magnitude, in quarters of the unit of its last bit: the
lower end, the magnitude itself and the upper end, and whether the ends count. -/
structure Interval where
  low : Nat
  mid : Nat
  high : Nat
  exponent : Int
  closed : Bool
deriving DecidableEq, Repr

/-- The interval of a magnitude. Just above a power of two the neighbour below is only half as
far away as the one above. -/
def Magnitude.interval (x : Magnitude) : Interval where
  low := if x.factor = Nat.pow 2 52 ∧ -1074 < x.exponent then 4 * x.factor - 1 else 4 * x.factor - 2
  mid := 4 * x.factor
  high := 4 * x.factor + 2
  exponent := x.exponent - 2
  closed := x.factor % 2 == 0

/-- Whether n · 10^e lies in the interval. -/
def Interval.holds (i : Interval) (n : Nat) (e : Int) : Bool :=
  let low := (Ratio.ofBinary i.low i.exponent).shift e
  let high := (Ratio.ofBinary i.high i.exponent).shift e
  let above := if i.closed then low.num ≤ n * low.den else low.num < n * low.den
  let below := if i.closed then n * high.den ≤ high.num else n * high.den < high.num
  above && below

/-- The point of the grid of 10^e that is in the interval and nearest to its middle, if there is
one; of two points at one distance the upper. -/
def Interval.onGrid? (i : Interval) (e : Int) : Option Digits :=
  let value := (Ratio.ofBinary i.mid i.exponent).shift e
  -- the neighbours of the value on the grid, counted in steps of 10^e
  let lower := value.num / value.den
  let upper := lower + 1
  let upperIsNearer := (2 * lower + 1) * value.den ≤ 2 * value.num
  match i.holds lower e, i.holds upper e with
  | true, true => some ⟨if upperIsNearer then upper else lower, e⟩
  | true, false => some ⟨lower, e⟩
  | false, true => some ⟨upper, e⟩
  | false, false => none

/-- Moves trailing zeros of the digits into the exponent. -/
def Digits.strip (d : Digits) : Nat → Digits
  | 0 => d
  | n + 1 => if d.coefficient % 10 = 0 ∧ d.coefficient ≠ 0 then
      Digits.strip ⟨d.coefficient / 10, d.exponent + 1⟩ n else d

/-- The first hit on the grids from `k` digits on. -/
def Interval.search (i : Interval) (leading : Int) (k : Nat) : Nat → Option Digits
  | 0 => none
  | n + 1 => (i.onGrid? (leading - k + 1)).or (i.search leading (k + 1) n)

/-- The decimal of fewest digits that identifies a positive magnitude. Seventeen digits always
identify one; should the search end without a hit, the magnitude itself is written out. -/
def Magnitude.shortest (x : Magnitude) : Digits :=
  let i := x.interval
  let leading := (Ratio.ofBinary i.mid i.exponent).leading
  let exact : Digits :=
    ⟨x.factor * Nat.pow 2 x.exponent.toNat * Nat.pow 5 (-x.exponent).toNat, min x.exponent 0⟩
  let found := (i.search leading 1 17).getD exact
  found.strip (Text.digitCount found.coefficient)

end ConstNarrow.Binary64
