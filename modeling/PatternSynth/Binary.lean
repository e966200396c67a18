/-!
# Exact values of floating-point numbers

A finite float is a whole number of units in the last place, `mantissa * 2 ^ exponent` up to sign.
Everything that must not depend on rounding is computed here with `Nat` and `Int`: integer parts and
the remainder of a division. The reading of a float as a 32-bit integer is built from these.
-/

namespace PatternSynth

open Float.Model (UnpackedFloat)

/-- The exact value of a float: `± mantissa * 2 ^ exponent`, or a value that is no real number. -/
inductive Binary where
  | nan
  | infinite (negative : Bool)
  | finite (negative : Bool) (mantissa : Nat) (exponent : Int)
deriving DecidableEq, Repr

namespace Binary

/-- Whether a sign bit stands for a minus. -/
def isMinus : UnpackedFloat.Sign → Bool
  | .negative => true
  | .positive => false

/-- The sign bit of a minus or of a plus. -/
def signOf (negative : Bool) : UnpackedFloat.Sign :=
  if negative then .negative else .positive

/-- The exact value of a float. The two zeros keep their signs. -/
def ofFloat (x : Float) : Binary :=
  match x.toModel.unpack with
  | .notANumber => .nan
  | .infinity s => .infinite (isMinus s)
  | .zero s => .finite (isMinus s) 0 0
  | .finite s m e _ => .finite (isMinus s) m e

/-- The float nearest to a value, ties to the even mantissa; too large a value is infinite. -/
def toFloat : Binary → Float
  | .nan => .ofModel (.pack .notANumber)
  | .infinite negative => .ofModel (.pack (.infinity (signOf negative)))
  | .finite negative m e =>
    let signed : Int := if negative then -(m : Int) else m
    .ofModel (.pack (.normalize .binary64 signed e (signOf negative)))

/-- The integer part of `m * 2 ^ e`. -/
def wholePart (m : Nat) (e : Int) : Nat :=
  if 0 ≤ e then m <<< e.toNat else m >>> (-e).toNat

/-- Whether `m * 2 ^ e` is an integer. -/
def isWhole (m : Nat) (e : Int) : Bool :=
  0 ≤ e || m % (1 <<< (-e).toNat) == 0

/-- The value rounded toward zero; zero where there is no real value. -/
def truncate : Binary → Int
  | .finite negative m e => if negative then -(wholePart m e : Int) else wholePart m e
  | _ => 0

/-- The value rounded down; zero where there is no real value. -/
def floor : Binary → Int
  | .finite false m e => wholePart m e
  | .finite true m e => if isWhole m e then -(wholePart m e : Int) else -(wholePart m e : Int) - 1
  | _ => 0

/-- A value rounded by `round` to a whole number between two bounds. Infinities become the bounds,
and NaN becomes zero. -/
def clamp (round : Binary → Int) (low high : Int) : Binary → Int
  | .nan => 0
  | .infinite negative => if negative then low else high
  | b@(.finite ..) => max low (min high (round b))

/-- The rational number a finite value stands for; zero where there is no real value. -/
def toRat : Binary → Rat
  | .finite negative m e =>
    let units : Int := (m <<< e.toNat : Nat)
    mkRat (if negative then -units else units) (1 <<< (-e).toNat)
  | _ => 0

end Binary

/-- The remainder of the division rounded toward zero. It is exact and has the sign of `x`. -/
def remainder (x y : Float) : Float :=
  match Binary.ofFloat x, Binary.ofFloat y with
  | .finite negative m e, .finite _ n f =>
    if n = 0 then Binary.nan.toFloat
    else
      let unit := min e f
      let r := (m <<< (e - unit).toNat) % (n <<< (f - unit).toNat)
      (Binary.finite negative r unit).toFloat
  | .finite .., .infinite _ => x
  | _, _ => Binary.nan.toFloat

/-- The remainder of a division, moved up by the size of `y` if it is negative. -/
def euclideanRemainder (x y : Float) : Float :=
  let r := remainder x y
  if r < 0 then r + y.abs else r

/-- The remainder modulo one, moved into the unit interval by adding one below zero. -/
def fractionalTurn (x : Float) : Float :=
  if 0 ≤ x && x < 1 then x else euclideanRemainder x 1

/-- A float rounded down. Zeros keep their signs, and infinities and NaN stay as they are. -/
@[irreducible] def roundDown (x : Float) : Float :=
  match Binary.ofFloat x with
  | b@(.finite _ (_ + 1) _) => (Binary.finite (b.floor < 0) b.floor.natAbs 0).toFloat
  | _ => x

/-- A float rounded toward zero. Zeros keep their signs, and infinities and NaN stay as they are. -/
def roundTowardZero (x : Float) : Float :=
  match Binary.ofFloat x with
  | .finite negative m e => (Binary.finite negative (Binary.wholePart m e) 0).toFloat
  | _ => x

/-- A float cast to a 32-bit integer: it is rounded toward zero and kept within the range. -/
def castInt32 (x : Float) : Int32 :=
  .ofInt ((Binary.ofFloat x).clamp Binary.truncate Int32.minValue.toInt Int32.maxValue.toInt)

/-- A float read as a 32-bit integer. Its whole part is reduced modulo `2 ^ 32`, and the upper half
of the remainders stands for the negative integers. Infinities and NaN are read as zero. -/
def toInt32 (x : Float) : Int32 :=
  if x.isFinite then
    let wrapped := euclideanRemainder (roundTowardZero x) 4294967296
    if 2147483648 ≤ wrapped then castInt32 (wrapped - 4294967296) else castInt32 wrapped
  else 0

/-- How far a float shifts a 32-bit integer: its last five bits, whatever its sign. -/
def shiftCount (x : Float) : UInt32 :=
  (toInt32 x).toUInt32 &&& 31

end PatternSynth
