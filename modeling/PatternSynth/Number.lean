import PatternSynth.Binary
import PatternSynth.Decimal.Rounding
import PatternSynth.Decimal.Shortest
import PatternSynth.Text.Blank

/-!
# Numbers in source text

A token counts as a number when it *starts* with a numeral, so `440hz` reads as 440. A numeral is an
optional sign, then `Infinity` or digits with an optional fraction and an optional exponent.
`coerce` asks for a numeral from end to end and reads anything else as NaN. Three texts of a number
are used: `toText` where it joins a string, `display` in replies, and `identity` in signatures.
-/

namespace PatternSynth.Number

/-- The float that is not a number. -/
def nan : Float := Binary.nan.toFloat

/-- Positive infinity. -/
def infinity : Float := (Binary.infinite false).toFloat

/-- Give a magnitude its sign. -/
def signed (negative : Bool) (x : Float) : Float :=
  if negative then -x else x

/-- The optional sign of a numeral. -/
def readSign : List Char → Bool × List Char
  | '-' :: cs => (true, cs)
  | '+' :: cs => (false, cs)
  | cs => (false, cs)

/-- The longest row of digits at the front. -/
def readDigits (cs : List Char) : List Char × List Char :=
  (cs.takeWhile Char.isDigit, cs.dropWhile Char.isDigit)

/-- The digits after a decimal point. A point with no digit on either side is left alone. -/
def readFraction (whole cs : List Char) : List Char × List Char :=
  match cs with
  | '.' :: after =>
    let (fraction, rest) := readDigits after
    if whole.isEmpty && fraction.isEmpty then ([], cs) else (fraction, rest)
  | _ => ([], cs)

/-- The exponent of a numeral. An exponent mark with no digit behind it is left alone. -/
def readExponent (cs : List Char) : Int × List Char :=
  match cs with
  | c :: after =>
    if c == 'e' || c == 'E' then
      let (negative, body) := readSign after
      let (digits, rest) := readDigits body
      if digits.isEmpty then (0, cs)
      else
        let n : Int := Decimal.ofDigits digits
        (if negative then -n else n, rest)
    else (0, cs)
  | [] => (0, cs)

/-- The unsigned part of a numeral without `Infinity`. -/
def readMagnitude (cs : List Char) : Option (Float × List Char) :=
  let (whole, cs₁) := readDigits cs
  let (fraction, cs₂) := readFraction whole cs₁
  if whole.isEmpty && fraction.isEmpty then none
  else
    let (exponent, rest) := readExponent cs₂
    let decimal : Decimal := ⟨Decimal.ofDigits (whole ++ fraction), exponent - fraction.length⟩
    some (decimal.toFloat, rest)

/-- The longest numeral at the front of a text, with what follows it. -/
def read? (cs : List Char) : Option (Float × List Char) :=
  let (negative, body) := readSign cs
  if "Infinity".toList.isPrefixOf body then
    some (signed negative infinity, body.drop "Infinity".length)
  else (readMagnitude body).map fun (x, rest) => (signed negative x, rest)

/-- The number a text starts with. -/
def leading? (s : String) : Option Float :=
  (read? s.toList).map Prod.fst

/-- Text read as a number: blank text is zero, and anything but a numeral from end to end is NaN. -/
def coerce (s : String) : Float :=
  let cs := Text.trim s.toList
  if cs.isEmpty then 0
  else match read? cs with
    | some (x, []) => x
    | _ => nan

/-- A decimal number from end to end, or a sign and one of the words `inf`, `infinity` and `nan` in
any case. -/
def ofText? (s : String) : Option Float :=
  let (negative, body) := readSign s.toList
  let word := String.ofList (body.map Char.toLower)
  if word == "inf" || word == "infinity" then some (signed negative infinity)
  else if word == "nan" then some nan
  else match readMagnitude body with
    | some (x, []) => some (signed negative x)
    | _ => none

/-- A minus sign, or nothing. -/
def minus (negative : Bool) : String :=
  if negative then "-" else ""

/-- The shortest text of a finite value, without an exponent. -/
def shortestText (negative : Bool) (m : Nat) (e : Int) : String :=
  if m = 0 then minus negative ++ "0"
  else minus negative ++ (Decimal.shortest .up m e).positional

/-- The text of a number where it is joined to a string. Both zeros read `0`. -/
def toText (x : Float) : String :=
  match Binary.ofFloat x with
  | .nan => "NaN"
  | .infinite negative => minus negative ++ "Infinity"
  | .finite _ 0 _ => "0"
  | .finite negative m e => shortestText negative m e

/-- The text of a number in a signature: the two zeros differ, and all NaNs are alike. -/
def identity (x : Float) : String :=
  match Binary.ofFloat x with
  | .nan => "NaN"
  | .infinite negative => minus negative ++ "inf"
  | .finite negative m e => shortestText negative m e

/-- Drop the zeros at the end of a fraction, and its point if nothing is left. -/
def trimFraction (fraction : List Char) : List Char :=
  match (fraction.reverse.dropWhile (· == '0')).reverse with
  | [] => []
  | ds => '.' :: ds

/-- The digits of `n`, with zeros in front up to `width` of them. -/
def padded (width n : Nat) : List Char :=
  let ds := (toString n).toList
  List.replicate (width - ds.length) '0' ++ ds

/-- The text of a number in a reply: at most three decimals, and no sign on a zero. -/
def display (x : Float) : String :=
  match Binary.ofFloat x with
  | .finite negative m e =>
    let thousandths := Decimal.toPlaces 3 m e
    if thousandths = 0 then "0"
    else
      minus negative ++ toString (thousandths / 1000) ++
        String.ofList (trimFraction (padded 3 (thousandths % 1000)))
  | _ => toText x

end PatternSynth.Number
