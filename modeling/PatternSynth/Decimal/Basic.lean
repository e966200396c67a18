/-!
Decimal numbers `coefficient * 10 ^ exponent`: reading them as floats and writing them out
without an exponent.
-/

namespace PatternSynth

/-- The number `coefficient * 10 ^ exponent`. -/
structure Decimal where
  coefficient : Nat
  exponent : Int
deriving DecidableEq, Repr

namespace Decimal

/-- The value of a row of decimal digits. -/
def ofDigits (ds : List Char) : Nat :=
  ds.foldl (fun n d => 10 * n + (d.toNat - '0'.toNat)) 0

/-- The nearest float, ties to the even mantissa. -/
def toFloat (d : Decimal) : Float :=
  Float.ofScientific d.coefficient (d.exponent < 0) d.exponent.natAbs

/-- A row of zeros. -/
def zeros (n : Nat) : String :=
  String.ofList (List.replicate n '0')

/-- The number without an exponent: `1200`, `1.25`, `0.005`. -/
def positional (d : Decimal) : String :=
  let ds := toString d.coefficient
  if 0 ≤ d.exponent then ds ++ zeros d.exponent.toNat
  else
    let places := (-d.exponent).toNat
    if places < ds.length then
      (ds.take (ds.length - places)).toString ++ "." ++ (ds.drop (ds.length - places)).toString
    else "0." ++ zeros (places - ds.length) ++ ds

end Decimal

end PatternSynth
