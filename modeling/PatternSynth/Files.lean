/-!
# Files as the program sees them

What reads and writes files is generic in the monad that gives access to them, so that it can be
run on a disk as well as on a table of files.
-/

namespace PatternSynth

/-- Why a file could not be read. -/
inductive FileFault where
  | missing
  | directory
  | notText
  | other (reason : String)
deriving DecidableEq, Repr

/-- The fault in words. -/
def FileFault.message : FileFault → String
  | missing => "No such file or directory (os error 2)"
  | directory => "Is a directory (os error 21)"
  | notText => "stream did not contain valid UTF-8"
  | other reason => reason

/-- Access to files by path. -/
structure Files (m : Type → Type) where
  read : String → m (Except FileFault ByteArray)
  /-- Replace a file, and say whether that went well. -/
  write : String → ByteArray → m Bool

namespace Files

variable {m : Type → Type} [Monad m]

/-- Read a file that holds text. -/
def readText (files : Files m) (path : String) : m (Except FileFault String) := do
  match ← files.read path with
  | .error fault => return .error fault
  | .ok bytes =>
    match String.fromUTF8? bytes with
    | some text => return .ok text
    | none => return .error .notText

end Files

end PatternSynth
