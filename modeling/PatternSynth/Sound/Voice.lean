import PatternSynth.Config.Basic
import PatternSynth.Oscillator
import PatternSynth.Pattern.Resolve
import PatternSynth.Sample

/-!
# Voices: the playing state behind one note

An oscillator glides toward the frequency and the amplitude that its note asks for, and it is heard
while its amplitude is above the gate. A note that asks for no positive frequency fades out.
-/

namespace PatternSynth

/-- The playing state behind one note. -/
structure Voice where
  /-- Phase of the oscillator, in turns. -/
  phase : Float
  /-- Frequency in hertz. -/
  freq : Float
  amp : Float
  /-- Seconds into the sample that is played. -/
  position : Float
deriving DecidableEq

/-- What sounds are rendered with. -/
structure Rig where
  config : Config
  bank : SampleBank
  rate : UInt32

namespace Voice

/-- A voice that has not sounded yet. -/
def fresh : Voice := ⟨0, 0, 0, 0⟩

/-- Make a list of voices as long as asked for. New voices are fresh. -/
def resize (count : Nat) (voices : List Voice) : List Voice :=
  voices.take count ++ List.replicate (count - voices.length) fresh

/-- Go back to the start of the sample. -/
def rewind (v : Voice) : Voice :=
  { v with position := 0 }

/-- The frequency that a value asks for. -/
def targetFreq : Value → Float
  | .number x => if x.isFinite then x else 0
  | .text _ => 0

/-- The amplitude that a note asks for. -/
def targetAmp (freq gain : Float) : Float :=
  if freq > 0 && gain.isFinite then gain else 0

/-- Go a part of the way to a target. -/
def glide (rate target x : Float) : Float :=
  x + (target - x) * rate

/-- One frame of a value added to the mix as it is. -/
def playRaw (value : Value) (gain : Float) : Float :=
  let x := value.toNumber * gain
  if x.isFinite then x else 0

/-- One frame of the sample that a value names. -/
def playSample (rig : Rig) (value : Value) (gain : Float) (v : Voice) : Float × Voice :=
  match value.text?.bind (rig.bank[·]?) with
  | none => (0, v)
  | some buffer =>
    let x := if gain.isFinite then (buffer.sampleAt v.position).toFloat * gain else 0
    (x, { v with position := v.position + 1 / rig.rate.toFloat })

/-- One frame of an oscillator. -/
def playOscillator (rig : Rig) (w : Waveform) (value : Value) (gain : Float) (v : Voice)
    (g : Noise) : Float × Voice × Noise :=
  let target := targetFreq value
  let freq := glide rig.config.frequencySmoothing target v.freq
  let amp := glide rig.config.amplitudeSmoothing (targetAmp target gain) v.amp
  if amp > rig.config.amplitudeGate then
    let phase := fractionalTurn (v.phase + freq / rig.rate.toFloat)
    let (x, g) := w.shape phase g
    (x * amp, { v with phase, freq, amp }, g)
  else (0, { v with freq, amp }, g)

/-- One frame of a note. -/
def play (rig : Rig) (w : Waveform) (env : Env) (note : Note) (v : Voice) (g : Noise) :
    Float × Voice × Noise :=
  let value := note.pattern.resolve env
  match w with
  | .raw => (playRaw value note.gain, v, g)
  | .sample =>
    let (x, v) := v.playSample rig value note.gain
    (x, v, g)
  | w => v.playOscillator rig w value note.gain g

end Voice

end PatternSynth
