import PatternSynth.Pattern.Resolve

/-! Patterns as source text, for replies. An operator is shown by its value at the zero moment. -/

namespace PatternSynth.Pattern

/-- The text of an atom. -/
def atomText : Atom → String
  | .number x => Number.display x
  | .text s => "\"" ++ s ++ "\""
  | .word s => s
  | .var v => v.word

mutual

/-- Write a pattern after `out`. -/
def write (out : String) : Pattern → String
  | atom value _ => out ++ atomText value
  | operator op args tag => out ++ ((operator op args tag).resolve .zero).display
  | group kind children _ _ =>
    (writeEach (out.push kind.brackets.1) children ++ " ").push kind.brackets.2
  | modified kind amount inner _ =>
    write (write out inner ++ " ") amount ++ " " ++ kind.word

/-- Write each pattern with a blank before it. -/
def writeEach (out : String) : List Pattern → String
  | [] => out
  | p :: ps => writeEach (write (out ++ " ") p) ps

end

/-- The text of a pattern in a reply. -/
def display (p : Pattern) : String :=
  write "" p

end PatternSynth.Pattern
