/-! Spans of source text, in bytes of its UTF-8 form. -/

namespace PatternSynth

/-- The bytes of the source from `start` up to, but not including, `stop`. -/
structure Span where
  start : Nat
  stop : Nat
deriving DecidableEq, Repr

namespace Span

/-- A span that covers no byte. -/
def isEmpty (s : Span) : Bool :=
  s.stop ≤ s.start

/-- The order by start and then by stop. -/
def le (a b : Span) : Bool :=
  a.start < b.start || (a.start == b.start && a.stop ≤ b.stop)

/-- The spans of a list in increasing order. -/
def sorted (spans : List Span) : List Span :=
  spans.mergeSort le

/-- The spans of a list in increasing order, each once. -/
def distinct (spans : List Span) : List Span :=
  (sorted spans).eraseReps

end Span

end PatternSynth
