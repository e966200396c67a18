import PatternSynth.CommandLine
import PatternSynth.Config.Document
import PatternSynth.Offline
import PatternSynth.WaveFile.Writer

/-!
# Carrying out a command line

The arguments are read first, then the settings, then the source. The first of them that fails ends
the run.
-/

namespace PatternSynth

/-- How a run ends. -/
inductive Exit where
  | success
  | failure
  /-- The command line cannot be understood. -/
  | misuse
  /-- A number overflows on the way. -/
  | abort
deriving DecidableEq, Repr

/-- The exit code. -/
def Exit.code : Exit → UInt32
  | success => 0
  | failure => 1
  | misuse => 2
  | abort => 101

/-- What a run leaves behind, apart from files. -/
structure Outcome where
  exit : Exit
  output : String := ""
  /-- What is said about a failure. -/
  complaint : String := ""

namespace Outcome

/-- A run that failed. -/
def failed (complaint : String) : Outcome :=
  { exit := .failure, complaint }

/-- A run whose command line cannot be understood. -/
def misused : Outcome :=
  { exit := .misuse, complaint := "usage: [--config FILE] render FILE | eval CODE" }

/-- A run that a scale of too many bits has ended. -/
def aborted (overflow : WaveFile.Overflow) : Outcome :=
  { exit := .abort, complaint := s!"cannot shift 64 bits by {overflow.shift}" }

end Outcome

variable {m : Type → Type} [Monad m]

/-- Render a source file to a sound file. -/
def RenderJob.run (files : Files m) (config : Config) (job : RenderJob) : m Outcome := do
  match ← files.readText job.source with
  | .error fault => return .failed fault.message
  | .ok source =>
    match ← (Engine.prepare files job.samples config source).run with
    | .error overflow => return .aborted overflow
    | .ok engine =>
      let bytes := WaveFile.encode (engine.record job.seconds job.rate)
      if ← files.write job.out bytes.toByteArray then return { exit := .success }
      else return .failed ("cannot write " ++ job.out)

/-- Carry out a task. -/
def Task.run (files : Files m) (config : Config) (task : Task) : m Outcome :=
  match task with
  | .render job => job.run files config
  | .eval code =>
    return { exit := .success, output := (Engine.ofConfig config).evaluate code ++ "\n" }

/-- Carry out a command line. Settings are in the file `usual` unless another one is named. -/
def Invocation.run (files : Files m) (usual : String) (args : List String) : m Outcome := do
  match ofArguments? args with
  | none => return .misused
  | some invocation =>
    match ← Config.load files (invocation.config.getD usual) with
    | .error e => return .failed e.message
    | .ok config => invocation.task.run files config

end PatternSynth
