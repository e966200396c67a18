import PatternSynth.Beats
import PatternSynth.Tree

/-! Steps: what sounds for a stretch of time. -/

namespace PatternSynth

/-- How the tracks of a chord are kept in time with one another. -/
structure ChordTiming (β : Type) where
  /-- The length of a step when the shortest remaining time is below `stall`. -/
  minStep : β
  stall : β
  /-- A track moves on when no more than this remains of its step. -/
  epsilon : β
deriving DecidableEq

/-- The usual timing. -/
def ChordTiming.usual : ChordTiming Float :=
  ⟨0.001, 1e-9, 1e-5⟩

/-- A leaf that sounds, and how loud. -/
structure Note where
  /-- The number of the leaf. -/
  id : Nat
  pattern : Pattern
  gain : Float

/-- The notes that sound together for some beats, and the source text they come from. -/
structure Step (β : Type) where
  notes : List Note
  duration : β
  spans : List Span

namespace Step

variable {β : Type}

/-- A silent step. -/
def rest (duration : β) (spans : List Span) : Step β :=
  ⟨[], duration, spans⟩

/-- Add the spans of a surrounding node. -/
def under (spans : List Span) (s : Step β) : Step β :=
  { s with spans := s.spans ++ spans }

end Step

end PatternSynth
