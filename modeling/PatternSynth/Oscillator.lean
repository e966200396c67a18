import PatternSynth.Binary
import PatternSynth.Noise
import PatternSynth.Waveform

/-! The shapes of the waveforms over one turn of phase. -/

namespace PatternSynth.Waveform

/-- A full turn in radians. -/
def turn : Float := 6.283185307179586

/-- The waveform at a phase in turns. Noise ignores the phase and draws from its generator, raw
gives the phase back, and a sample has no shape. -/
def shape (w : Waveform) (phase : Float) (g : Noise) : Float × Noise :=
  let p := fractionalTurn phase
  match w with
  | .sine => (Float.sin (phase * turn), g)
  | .saw => (p * 2 - 1, g)
  | .square => (if p < 0.5 then 0.5 else -0.5, g)
  | .triangle => ((p * 4 - 2).abs - 1, g)
  | .noise => g.next
  | .raw => (phase, g)
  | .sample => (0, g)

end PatternSynth.Waveform
