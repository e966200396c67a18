import PatternSynth.Pattern.Signature
import PatternSynth.Program.Basic
import PatternSynth.Sound.Voice
import PatternSynth.Step.Player

/-!
# Sounds: one render command in the middle of being played

A sound goes from step to step so that the present step covers the present beat. It starts at the
beginning of the beat in which it is first played. Each note of the present step has a voice.
-/

namespace PatternSynth

/-- One render command in the middle of being played. -/
structure Sound (β : Type) where
  waveform : Waveform
  /-- What tells this sound from others: its pattern and its waveform. -/
  signature : String
  player : Player β
  current : Option (Step β)
  /-- The beat at which the present step ends. -/
  endBeat : Option β
  voices : List Voice

namespace Sound

variable {β : Type}

/-- A command that has not been played yet. -/
def ofCommand (c : Command) : Sound β :=
  ⟨c.waveform, c.pattern.signature ++ ":" ++ c.waveform.word, .ofPattern c.pattern, none, none, []⟩

/-- The source text that sounds. -/
def activeSpans (s : Sound β) : List Span :=
  match s.current with
  | some step => step.spans
  | none => []

/-- A duration that time can pass in: positive and finite, or else the shortest step. -/
@[specialize] def usableDuration [Beats β] (minStep d : β) : β :=
  if Beats.isFinite d && Beats.lt (Beats.ofNat 0) d then d else minStep

/-- The voices for a step: one for each note, rewound if samples are played. -/
def voicesFor (w : Waveform) (count : Nat) (voices : List Voice) : List Voice :=
  let resized := Voice.resize count voices
  if w = .sample then resized.map Voice.rewind else resized

/-- Go on to the next step, where the present one ends at `stop`. -/
@[specialize] def pull [Beats β] (timing : ChordTiming β) (env : Env) (stop : β) (s : Sound β) :
    Sound β :=
  let (step, player) := s.player.next timing env
  let duration := usableDuration timing.minStep step.duration
  { s with
    player
    current := some { step with duration }
    endBeat := some (stop + duration)
    voices := voicesFor s.waveform step.notes.length s.voices }

/-- Start at the beginning of the beat, unless the sound has started. -/
@[specialize] def anchor [Beats β] (beat : β) (s : Sound β) : Sound β :=
  match s.endBeat with
  | some _ => s
  | none => { s with endBeat := some (Beats.floor beat) }

/-- Go on until the present step ends after `beat`, over at most so many steps. -/
@[specialize] def catchUp [Beats β] (timing : ChordTiming β) (env : Env) (beat : β) :
    Nat → Sound β → Sound β
  | 0, s => s
  | n + 1, s =>
    match s.endBeat with
    | none => s
    | some stop =>
      if Beats.le stop beat then catchUp timing env beat n (s.pull timing env stop) else s

/-- Bring the sound to a beat, over at most `cap` steps. -/
@[specialize] def advance [Beats β] (timing : ChordTiming β) (env : Env) (beat : β) (cap : Nat)
    (s : Sound β) : Sound β :=
  catchUp timing env beat cap (s.anchor beat)

/-- One frame of notes with their voices, added to a signal from left to right. -/
def playNotes (rig : Rig) (w : Waveform) (env : Env) (signal : Float) (g : Noise) :
    List Note → List Voice → Float × List Voice × Noise
  | note :: notes, v :: voices =>
    let (x, v, g) := v.play rig w env note g
    let (signal, voices, g) := playNotes rig w env (signal + x) g notes voices
    (signal, v :: voices, g)
  | _, voices => (signal, voices, g)

/-- One frame of the sound. -/
def render (rig : Rig) (env : Env) (g : Noise) (s : Sound β) : Float × Sound β × Noise :=
  match s.current with
  | none => (0, s, g)
  | some step =>
    let (signal, voices, g) := playNotes rig s.waveform env 0 g step.notes s.voices
    (signal, { s with voices }, g)

end Sound

end PatternSynth
