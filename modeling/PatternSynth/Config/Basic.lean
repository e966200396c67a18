import PatternSynth.Step.Basic

/-! The settings of the engine. -/

namespace PatternSynth

/-- The settings of the engine. -/
structure Config where
  /-- The tempo before a program sets one. -/
  defaultTempo : Float := 120
  /-- The part of the way to its target that a frequency goes in one frame. -/
  frequencySmoothing : Float := 0.05
  /-- The part of the way to its target that an amplitude goes in one frame. -/
  amplitudeSmoothing : Float := 0.05
  /-- Oscillators are heard above this amplitude. -/
  amplitudeGate : Float := 0.001
  /-- A factor on the whole mix. -/
  headroom : Float := 0.2
  chordMinStep : Float := ChordTiming.usual.minStep
  chordStall : Float := ChordTiming.usual.stall
  chordEpsilon : Float := ChordTiming.usual.epsilon
  /-- How many steps a sound may go through in one frame. -/
  maxStepsPerSample : UInt64 := 256
  /-- Whether a sound takes over the voices of an equal sound that it replaces. -/
  carryVoices : Bool := false
  noiseSeed : UInt64 := 42
  /-- Frames rendered at a time. -/
  blockSize : UInt64 := 128

namespace Config

/-- The timing of chords. -/
def chordTiming (c : Config) : ChordTiming Float :=
  ⟨c.chordMinStep, c.chordStall, c.chordEpsilon⟩

/-- Whether two settings agree, with floats compared as numbers. -/
def agrees (a b : Config) : Bool :=
  a.defaultTempo == b.defaultTempo && a.frequencySmoothing == b.frequencySmoothing &&
    a.amplitudeSmoothing == b.amplitudeSmoothing && a.amplitudeGate == b.amplitudeGate &&
    a.headroom == b.headroom && a.chordMinStep == b.chordMinStep &&
    a.chordStall == b.chordStall && a.chordEpsilon == b.chordEpsilon &&
    a.maxStepsPerSample == b.maxStepsPerSample && a.carryVoices == b.carryVoices &&
    a.noiseSeed == b.noiseSeed && a.blockSize == b.blockSize

end Config

end PatternSynth
