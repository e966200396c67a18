import PatternSynth.Pattern.Basic
import PatternSynth.Value

/-!
# Reading a pattern as a value, at one moment of the performance

Sequences, chords and empty cycles read as zero, and a modified pattern reads as what it modifies.
A cycle inside an expression takes the branch that the beat clock selects.
-/

namespace PatternSynth

/-- The moment at which a pattern is read. -/
structure Env where
  /-- The number of the frame. -/
  frame : Float
  /-- Seconds from frame zero. -/
  time : Float
  /-- Position on the beat clock. -/
  beat : Float
deriving DecidableEq

namespace Env

/-- The moment used when a value is needed before anything plays. -/
def zero : Env := ⟨0, 0, 0⟩

/-- The moment of a frame, at a sample rate and a beat. -/
def atFrame (frame : UInt64) (rate : UInt32) (beat : Float) : Env :=
  ⟨frame.toFloat, frame.toFloat / rate.toFloat, beat⟩

/-- The value of a variable. -/
def get (env : Env) : Variable → Float
  | .frame => env.frame
  | .time => env.time
  | .beat => env.beat

end Env

/-- The whole number of beats, kept within 64-bit integers; zero for NaN. -/
def wholeBeat (beat : Float) : Int :=
  (Binary.ofFloat beat).clamp Binary.floor Int64.minValue.toInt Int64.maxValue.toInt

/-- Which of `count` branches of a cycle is current at a beat. -/
def cycleBranch (beat : Float) (count : Nat) : Nat :=
  (wholeBeat beat % (count : Int)).toNat

namespace Pattern

mutual

/-- The value of a pattern. -/
def resolve (env : Env) : Pattern → Value
  | atom (.number x) _ => .number x
  | atom (.text s) _ => .text s
  | atom (.word s) _ => .text s
  | atom (.var v) _ => .number (env.get v)
  | operator op args _ =>
    match resolveNth env args 0 with
    | none => .number Number.nan
    | some lhs => op.apply lhs (resolveNth env args 1)
  | group .cycle children _ _ =>
    (resolveNth env children (cycleBranch env.beat children.length)).getD (.number 0)
  | group .. => .number 0
  | modified _ _ inner _ => inner.resolve env

/-- The value of the pattern at an index. -/
def resolveNth (env : Env) : List Pattern → Nat → Option Value
  | [], _ => none
  | p :: _, 0 => some (p.resolve env)
  | _ :: ps, n + 1 => resolveNth env ps n

end

mutual

/-- The spans of a pattern and of what its value is read from: every operand of an operator, and
the current branch of a cycle. -/
def activeSpans (env : Env) : Pattern → List Span
  | atom _ tag => tag.spans
  | operator _ args tag => tag.spans ++ activeSpansAll env args
  | group .cycle children _ tag =>
    tag.spans ++ activeSpansNth env children (cycleBranch env.beat children.length)
  | group _ _ _ tag => tag.spans
  | modified _ _ _ tag => tag.spans

/-- The active spans of each pattern in turn. -/
def activeSpansAll (env : Env) : List Pattern → List Span
  | [] => []
  | p :: ps => p.activeSpans env ++ activeSpansAll env ps

/-- The active spans of the pattern at an index. -/
def activeSpansNth (env : Env) : List Pattern → Nat → List Span
  | [], _ => []
  | p :: _, 0 => p.activeSpans env
  | _ :: ps, n + 1 => activeSpansNth env ps n

end

end Pattern

end PatternSynth
