import PatternSynth.Number
import PatternSynth.Pattern.Basic
import PatternSynth.Text.Quoted

/-!
Signatures: a text that tells patterns apart by shape, literals and stored gains, but not by the
source they were made from or by whose turn it is in a cycle.
-/

namespace PatternSynth.Pattern

/-- The signature of an atom. -/
def atomSignature : Atom → String
  | .number x => "n" ++ Number.identity x
  | .text s => "s" ++ Text.quoted s
  | .word s => "w" ++ Text.quoted s
  | .var v => v.word

/-- The signature of a stored gain. -/
def gainSignature : Option Float → String
  | none => ""
  | some g => "*" ++ Number.identity g

mutual

/-- Write the signature of a pattern after `out`. -/
def sign (out : String) : Pattern → String
  | atom value tag => out ++ atomSignature value ++ gainSignature tag.gain
  | operator op args tag =>
    signList (out ++ "op" ++ op.word ++ "(") args ++ ")" ++ gainSignature tag.gain
  | group kind children _ tag =>
    (signList (out.push kind.brackets.1) children).push kind.brackets.2 ++ gainSignature tag.gain
  | modified kind amount inner tag =>
    sign (sign (out ++ kind.word ++ "(") inner ++ ",") amount ++ ")" ++ gainSignature tag.gain

/-- Write the signatures of a list of patterns, with commas between them. -/
def signList (out : String) : List Pattern → String
  | [] => out
  | p :: ps => signMore (sign out p) ps

/-- Write the signatures of a list of patterns, each after a comma. -/
def signMore (out : String) : List Pattern → String
  | [] => out
  | p :: ps => signMore (sign (out ++ ",") p) ps

end

/-- The signature of a pattern. -/
def signature (p : Pattern) : String :=
  sign "" p

end PatternSynth.Pattern
