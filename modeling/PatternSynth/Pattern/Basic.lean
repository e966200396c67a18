import PatternSynth.Operator
import PatternSynth.Span

/-!
# Patterns: the values of the language

A pattern is an atom, a deferred operator, a group or a modified pattern. Every node carries a tag:
the spans of source text it was made from, so that the engine can tell which text is sounding, and
the gain that the word `gain` has stored on it.
-/

namespace PatternSynth

/-- A quantity that is known only while sound is rendered. -/
inductive Variable where
  /-- The number of the frame. -/
  | frame
  /-- Seconds from frame zero. -/
  | time
  /-- Position on the beat clock. -/
  | beat
deriving DecidableEq, Repr

/-- The source word of a variable. -/
def Variable.word : Variable → String
  | frame => "t"
  | time => "time"
  | beat => "beat"

/-- How the children of a group share its time. -/
inductive Grouping where
  /-- One after another, in equal parts. -/
  | sequence
  /-- One per activation, in turn, each for the whole time. -/
  | cycle
  /-- All at once. -/
  | chord
deriving DecidableEq, Repr

namespace Grouping

/-- The opening and the closing bracket. -/
def brackets : Grouping → Char × Char
  | sequence => ('[', ']')
  | cycle => ('<', '>')
  | chord => ('(', ')')

/-- Whether arithmetic on the group is arithmetic on each child. -/
def broadcasts : Grouping → Bool
  | sequence | chord => true
  | cycle => false

end Grouping

/-- A word that changes how a pattern plays. -/
inductive Modifier where
  /-- Divides the duration by the amount. -/
  | speed
  /-- Multiplies the gain by the amount. -/
  | volume
deriving DecidableEq, Repr

/-- The source word of a modifier. -/
def Modifier.word : Modifier → String
  | speed => "speed"
  | volume => "vol"

/-- A value without parts. -/
inductive Atom where
  | number (x : Float)
  /-- A quoted literal. -/
  | text (s : String)
  /-- A token that meant nothing when it was compiled. -/
  | word (s : String)
  | var (v : Variable)
deriving DecidableEq

/-- What every node carries: the source it was made from and its stored gain. -/
structure Tag where
  spans : List Span
  gain : Option Float
deriving DecidableEq

/-- A pattern. An operator without operands stands for arithmetic on something that is no value. -/
inductive Pattern where
  | atom (value : Atom) (tag : Tag)
  | operator (op : Operator) (args : List Pattern) (tag : Tag)
  /-- The cursor says whose turn it is in a cycle. -/
  | group (kind : Grouping) (children : List Pattern) (cursor : UInt64) (tag : Tag)
  | modified (kind : Modifier) (amount inner : Pattern) (tag : Tag)

namespace Pattern

instance : Inhabited Pattern := ⟨.group .sequence [] 0 ⟨[], none⟩⟩

/-- The tag of the top node. -/
def tag : Pattern → Tag
  | atom _ t | operator _ _ t | group _ _ _ t | modified _ _ _ t => t

/-- Replace the tag of the top node. -/
def setTag (t : Tag) : Pattern → Pattern
  | atom v _ => atom v t
  | operator op args _ => operator op args t
  | group kind children cursor _ => group kind children cursor t
  | modified kind amount inner _ => modified kind amount inner t

/-- The spans of the top node. -/
def spans (p : Pattern) : List Span := p.tag.spans

/-- A literal made from one token. -/
def literal (value : Atom) (span : Span) : Pattern :=
  atom value ⟨[span], none⟩

/-- A group made by brackets or by a collecting word. It has no spans of its own. -/
def collect (kind : Grouping) (children : List Pattern) : Pattern :=
  group kind children 0 ⟨[], none⟩

/-- A pattern under a modifier, which is tagged with the keyword and the amount. -/
def modify (kind : Modifier) (amount inner : Pattern) (keyword : Span) : Pattern :=
  modified kind amount inner ⟨keyword :: amount.spans, none⟩

/-- The stand-in for arithmetic on something that is no value. -/
def degenerate (op : Operator) (keyword : Span) : Pattern :=
  operator op [] ⟨[keyword], none⟩

/-- Multiply a factor into the stored gain. -/
def scaleGain (factor : Float) (p : Pattern) : Pattern :=
  p.setTag { p.tag with gain := some (p.tag.gain.getD 1 * factor) }

end Pattern

end PatternSynth
