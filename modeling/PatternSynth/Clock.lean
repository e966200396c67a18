import PatternSynth.Beats

/-!
# The beat clock

Between changes of tempo the beat is a linear function of the frame. A new tempo is only requested
at first. When it takes effect the clock anchors itself at the present frame and beat, so that the
beat goes on from where the old tempo left it.
-/

namespace PatternSynth

/-- The beat at every frame, from an anchor on. -/
structure Clock (β : Type) where
  anchorFrame : UInt64
  anchorBeat : β
  /-- The tempo that was requested last, in beats per minute. -/
  tempo : β
  /-- The tempo that the clock runs at since its anchor. -/
  runningTempo : β

namespace Clock

variable {β : Type}

/-- A clock that starts at frame zero and beat zero. -/
@[specialize] def starting [Beats β] (tempo : β) : Clock β :=
  ⟨0, Beats.ofNat 0, tempo, tempo⟩

/-- Request a tempo. -/
def request (tempo : β) (c : Clock β) : Clock β :=
  { c with tempo }

/-- How far the beat moves in one frame. -/
@[specialize] def beatsPerFrame [Beats β] (rate : UInt32) (c : Clock β) : β :=
  c.runningTempo / (Beats.ofNat 60 * Beats.ofNat rate.toNat)

/-- The beat at a frame. -/
@[specialize] def beatAt [Beats β] (frame : UInt64) (rate : UInt32) (c : Clock β) : β :=
  let elapsed := Beats.ofNat frame.toNat - Beats.ofNat c.anchorFrame.toNat
  c.anchorBeat + elapsed * c.beatsPerFrame rate

/-- Let the requested tempo take effect at a frame. -/
@[specialize] def retime [Beats β] (frame : UInt64) (rate : UInt32) (c : Clock β) : Clock β :=
  if Beats.eq c.tempo c.runningTempo then c
  else ⟨frame, c.beatAt frame rate, c.tempo, c.tempo⟩

end Clock

end PatternSynth
