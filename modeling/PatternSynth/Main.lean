import PatternSynth.CommandLine.Run

/-! The command-line program on the files of the machine. -/

namespace PatternSynth

/-- What went wrong in reading a file. -/
def FileFault.ofError : IO.Error → FileFault
  | .noFileOrDirectory .. => .missing
  | .inappropriateType .. => .directory
  | e => .other e.toString

/-- The files of the machine. -/
def diskFiles : Files IO where
  read path := do
    try
      return .ok (← IO.FS.readBinFile path)
    catch e => return .error (.ofError e)
  write path bytes := do
    try
      IO.FS.writeBinFile path bytes
      return true
    catch _ => return false

end PatternSynth

open PatternSynth in
def main (args : List String) : IO UInt32 := do
  let home := (← IO.getEnv "HOME").getD "."
  let outcome ← Invocation.run diskFiles (home ++ "/.patternsynth/engine.yaml") args
  (← IO.getStdout).putStr outcome.output
  unless outcome.complaint.isEmpty do (← IO.getStderr).putStrLn outcome.complaint
  return outcome.exit.code
