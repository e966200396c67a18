import PatternSynth.Decimal.Basic

/-!
# The shortest decimal that reads back as a given float

The reals that round to a float `m * 2 ^ e` form an interval around it, with its ends iff `m` is
even. The search runs over the grids of multiples of `10 ^ k`, from coarse to fine, and stops at the
first grid with a point in the interval. A coarser grid means fewer digits, so the result has as few
digits as any decimal that reads back, and it is the nearest of those.
-/

namespace PatternSynth.Decimal

/-- Where a value halfway between two candidates goes. -/
inductive Tie where
  | up
  | even
deriving DecidableEq, Repr

/-- The reals that round to `m * 2 ^ e`, in units of a quarter of `2 ^ e`: from `4 * m - below` to
`4 * m + 2`. -/
structure Interval where
  mantissa : Nat
  exponent : Int
  below : Nat

namespace Interval

/-- The interval of a float's magnitude. A power of two has half the gap below it, unless its
exponent is the least one. -/
def around (m : Nat) (e : Int) : Interval :=
  ⟨m, e, if m == 1 <<< 52 && -1074 < e then 1 else 2⟩

/-- Numerator of `10 ^ k` over a quarter of the unit, with `scaleDen` below it. -/
def scaleNum (i : Interval) (k : Int) : Nat :=
  Nat.pow 10 k.toNat <<< (2 - i.exponent).toNat

/-- Denominator of `10 ^ k` over a quarter of the unit. -/
def scaleDen (i : Interval) (k : Int) : Nat :=
  Nat.pow 10 (-k).toNat <<< (i.exponent - 2).toNat

/-- Whether `c * 10 ^ k` rounds to the float. -/
def holds (i : Interval) (k : Int) (c : Nat) : Bool :=
  let point := c * i.scaleNum k
  let low := (4 * i.mantissa - i.below) * i.scaleDen k
  let high := (4 * i.mantissa + 2) * i.scaleDen k
  if i.mantissa % 2 = 0 then low ≤ point && point ≤ high else low < point && point < high

/-- The largest multiple of `10 ^ k` that is at most the float. -/
def lowerNeighbour (i : Interval) (k : Int) : Nat :=
  4 * i.mantissa * i.scaleDen k / i.scaleNum k

/-- Of the two neighbours of the float on a grid, the nearer one. -/
def nearer (i : Interval) (tie : Tie) (k : Int) (c : Nat) : Nat :=
  let twice := 2 * (4 * i.mantissa * i.scaleDen k)
  let middle := (2 * c + 1) * i.scaleNum k
  if twice < middle then c
  else if middle < twice then c + 1
  else match tie with
    | .up => c + 1
    | .even => c + c % 2

/-- The point of a grid that stands for the float, if any does. -/
def candidate (i : Interval) (tie : Tie) (k : Int) : Option Nat :=
  let c := i.lowerNeighbour k
  match i.holds k c, i.holds k (c + 1) with
  | true, true => some (i.nearer tie k c)
  | true, false => some c
  | false, true => some (c + 1)
  | false, false => none

/-- The decimal that is exactly the float. -/
def exactly (i : Interval) : Decimal :=
  if 0 ≤ i.exponent then ⟨i.mantissa <<< i.exponent.toNat, 0⟩
  else ⟨i.mantissa * Nat.pow 5 (-i.exponent).toNat, i.exponent⟩

/-- Search `steps` grids from `10 ^ k` down, and fall back to the exact value. -/
def search (i : Interval) (tie : Tie) : Nat → Int → Decimal
  | 0, _ => i.exactly
  | steps + 1, k =>
    match i.candidate tie k with
    | some c => ⟨c, k⟩
    | none => i.search tie steps (k - 1)

/-- An exponent whose power of ten is above the interval. -/
def topExponent (i : Interval) : Int :=
  ((i.mantissa.log2 + 2 + i.exponent) * 30103).fdiv 100000 + 1

end Interval

/-- The shortest decimal that reads back as `m * 2 ^ e`, for a float's mantissa and exponent. -/
def shortest (tie : Tie) (m : Nat) (e : Int) : Decimal :=
  let i := Interval.around m e
  let top := i.topExponent
  i.search tie (top - min e 0).toNat top

end PatternSynth.Decimal
