import PatternSynth.Binary

/-!
# Arithmetic on beats

Playback computes positions and durations in beats. It does so with floats, and it can be read with
exact rational numbers as well: whatever is defined over `Beats` means the same computation in both,
with rounding in one of them and without in the other.
-/

namespace PatternSynth

/-- Numbers that can measure beats. -/
class Beats (β : Type) extends Add β, Sub β, Mul β, Div β where
  ofNat : Nat → β
  /-- The nearest number to a finite float. -/
  ofFloat : Float → β
  floor : β → β
  le : β → β → Bool
  lt : β → β → Bool
  eq : β → β → Bool
  /-- Neither infinite nor NaN. -/
  isFinite : β → Bool
  /-- Less than positive infinity. -/
  isBounded : β → Bool

instance : Beats Float where
  ofNat := Float.ofNat
  ofFloat x := x
  floor := roundDown
  le a b := a ≤ b
  lt a b := a < b
  eq a b := a == b
  isFinite := Float.isFinite
  isBounded x := x < (Binary.infinite false).toFloat

instance : Beats Rat where
  ofNat n := n
  ofFloat x := (Binary.ofFloat x).toRat
  floor x := x.floor
  le a b := a ≤ b
  lt a b := a < b
  eq a b := a == b
  isFinite _ := true
  isBounded _ := true

namespace Beats

variable {β : Type} [Beats β]

/-- The smallest of the numbers that are less than infinity. -/
@[specialize] def least (xs : List β) : Option β :=
  xs.foldl (fun found x =>
    match found with
    | none => if isBounded x then some x else none
    | some y => if lt x y then some x else some y) none

end Beats

end PatternSynth
