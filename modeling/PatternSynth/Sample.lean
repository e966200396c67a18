import Std.Data.HashMap

/-!
Sample buffers, which are played by time and so at their own rate, and the bank that holds them by
name.
-/

namespace PatternSynth

/-- Mono sound at a sample rate. -/
structure SampleBuffer where
  samples : Array Float32
  rate : UInt32

namespace SampleBuffer

/-- The sample at a time in seconds. There is silence before the start and after the end. -/
def sampleAt (b : SampleBuffer) (seconds : Float) : Float32 :=
  let position := seconds * b.rate.toFloat
  if 0 ≤ position then b.samples.getD position.toUInt64.toNat 0 else 0

/-- The length in seconds; zero at a rate of zero. -/
def duration (b : SampleBuffer) : Float :=
  if b.rate = 0 then 0 else b.samples.size.toFloat / b.rate.toFloat

end SampleBuffer

/-- The sample buffers that are known by name. -/
abbrev SampleBank := Std.HashMap String SampleBuffer

end PatternSynth
