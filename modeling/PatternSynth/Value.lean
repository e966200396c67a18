import PatternSynth.Number
import PatternSynth.Operator

/-!
# Resolved values and the arithmetic on them

A value is a number or text. Text is coerced wherever a number is needed, except that `+` joins its
operands as soon as one of them is text. The bitwise words work on 32-bit two's-complement integers
and take shift counts modulo 32.
-/

namespace PatternSynth

/-- What a leaf resolves to. -/
inductive Value where
  | number (x : Float)
  | text (s : String)
deriving DecidableEq

namespace Value

def isText : Value → Bool
  | text _ => true
  | number _ => false

/-- The value as a number; text is coerced. -/
def toNumber : Value → Float
  | number x => x
  | text s => Number.coerce s

/-- The text of a value that is text. -/
def text? : Value → Option String
  | text s => some s
  | number _ => none

/-- The value as text; a number is written out. -/
def toText : Value → String
  | number x => Number.toText x
  | text s => s

/-- The value in a reply. -/
def display : Value → String
  | number x => Number.display x
  | text s => "\"" ++ s ++ "\""

end Value

namespace Operator

/-- The number of a 32-bit integer. -/
def ofInt32 (i : Int32) : Float :=
  Float.ofInt i.toInt

/-- The operator on numbers. The one-operand words ignore `b`. -/
def onNumbers (op : Operator) (a b : Float) : Float :=
  match op with
  | add => a + b
  | sub => a - b
  | mul => a * b
  | div => a / b
  | rem => remainder a b
  | and => ofInt32 (toInt32 a &&& toInt32 b)
  | or => ofInt32 (toInt32 a ||| toInt32 b)
  | xor => ofInt32 (toInt32 a ^^^ toInt32 b)
  | shiftRight => ofInt32 (toInt32 a >>> (shiftCount b).toInt32)
  | shiftLeft => ofInt32 (toInt32 a <<< (shiftCount b).toInt32)
  | pow => Float.pow a b
  | sin => Float.sin a
  | cos => Float.cos a

/-- Apply an operator to resolved operands. A missing right operand counts as NaN. -/
def apply (op : Operator) (lhs : Value) (rhs : Option Value) : Value :=
  let right := (rhs.map Value.toNumber).getD Number.nan
  match op, rhs with
  | add, some r =>
    if lhs.isText || r.isText then .text (lhs.toText ++ r.toText)
    else .number (onNumbers add lhs.toNumber right)
  | _, _ => .number (onNumbers op lhs.toNumber right)

end Operator

end PatternSynth
