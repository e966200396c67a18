/-! Operators: the arithmetic words of the language. -/

namespace PatternSynth

/-- An arithmetic word. -/
inductive Operator where
  | add
  | sub
  | mul
  | div
  | rem
  | and
  | or
  | xor
  | shiftRight
  | shiftLeft
  | pow
  | sin
  | cos
deriving DecidableEq, Repr

namespace Operator

/-- How many values the word takes from the stack. -/
def arity : Operator → Nat
  | sin | cos => 1
  | _ => 2

/-- The source word. -/
def word : Operator → String
  | add => "+"
  | sub => "-"
  | mul => "*"
  | div => "/"
  | rem => "%"
  | and => "and"
  | or => "or"
  | xor => "xor"
  | shiftRight => "rshift"
  | shiftLeft => "lshift"
  | pow => "pow"
  | sin => "sin"
  | cos => "cos"

end Operator

end PatternSynth
