import PatternSynth.Pattern.Printer
import PatternSynth.Waveform

/-!
Compiled programs: the patterns to play, what is left on the stack, the tempo and the samples to
fetch.
-/

namespace PatternSynth

/-- A pattern to be played with a waveform. -/
structure Command where
  waveform : Waveform
  pattern : Pattern

/-- The text of a command in a reply. -/
def Command.display (c : Command) : String :=
  c.pattern.display ++ " " ++ c.waveform.word

/-- What a compile makes of a source text. -/
structure Program where
  commands : List Command
  /-- The values left on the stack, deepest first. -/
  stack : List Pattern
  /-- Beats per minute. -/
  tempo : Float
  /-- The samples that the program plays by name, each once, in the order they first occur. -/
  requests : List String

/-- The text of a program in a reply: the commands, then the stack. -/
def Program.display (p : Program) : String :=
  " ".intercalate (p.commands.map Command.display ++ p.stack.map Pattern.display)

end PatternSynth
