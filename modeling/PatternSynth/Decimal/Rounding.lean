/-!
Rounding to a grid of decimals: a quotient to the nearest integer, ties to even, and a float to a
fixed number of decimal places.
-/

namespace PatternSynth.Decimal

/-- `num / den` rounded to the nearest integer, a half to the even neighbour. -/
def roundDiv (num den : Nat) : Nat :=
  let q := num / den
  let twice := 2 * (num % den)
  if twice < den then q else if twice > den then q + 1 else q + q % 2

/-- `m * 2 ^ e * 10 ^ places` rounded to the nearest integer, a half to even. -/
def toPlaces (places m : Nat) (e : Int) : Nat :=
  roundDiv ((m * Nat.pow 10 places) <<< e.toNat) (1 <<< (-e).toNat)

end PatternSynth.Decimal
