import PatternSynth.Engine
import PatternSynth.WaveFile

/-!
# Rendering a source text without a sound device

The samples that the program asks for are loaded before the first frame, from a directory with one
sound file for each. A source that does not compile gives silence, and so does a sample that cannot
be loaded. Only a sound file whose scale overflows ends everything.
-/

namespace PatternSynth.Engine

variable {m : Type → Type} [Monad m]

/-- The number of whole frames in a time. There are none in a time that is not positive. -/
def frameCount (seconds : Float) (rate : UInt32) : Nat :=
  ((if seconds > 0 then seconds else 0) * rate.toFloat).toUInt64.toNat

/-- The samples that a message asks for. -/
def requested : Outbound → List String
  | .request names => names
  | _ => []

/-- The file of a sample in a directory. -/
def sampleFile (directory name : String) : String :=
  if name.startsWith "/" then name ++ ".wav" else directory ++ "/" ++ name ++ ".wav"

/-- Load a sample from a directory, if there is a sound file for it. -/
def loadSample (files : Files m) (directory : String) (e : Engine) (name : String) :
    ExceptT WaveFile.Overflow m Engine := do
  match ← SampleBuffer.load files (sampleFile directory name) with
  | .ok buffer => return e.register name buffer
  | .error _ => return e

/-- Play a source text with the samples of a directory. -/
def prepare (files : Files m) (directory : Option String) (config : Config) (source : String) :
    ExceptT WaveFile.Overflow m Engine := do
  let (messages, e) := ((ofConfig config).handle (.source source)).drain
  match directory with
  | some directory => (messages.flatMap requested).foldlM (loadSample files directory) e
  | none => return e

/-- Render from frame zero on, in blocks of the size that the settings give. -/
def record (seconds : Float) (rate : UInt32) (e : Engine) : SampleBuffer :=
  ⟨(e.renderBlocks e.config.blockSize.toNat rate (frameCount seconds rate) 0 #[]).1, rate⟩

end PatternSynth.Engine
