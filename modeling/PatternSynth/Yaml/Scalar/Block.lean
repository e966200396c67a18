import PatternSynth.Yaml.Scalar
import PatternSynth.Yaml.Source

/-!
# Block scalars

A block scalar is a run of lines that are indented alike, after a line with its sign. A literal one
keeps its line ends. A folded one joins two lines that do not start with a blank by a space. Marks
after the sign tell how far the lines are indented, and what becomes of the line ends after the last
one.
-/

namespace PatternSynth.Yaml

/-- What becomes of the line ends after the last line: none of them counts, the first, or all. -/
inductive Chomp where
  | strip
  | clip
  | keep
deriving DecidableEq, Repr

/-- The sign of a way to end a block scalar. -/
def Chomp.ofMark? : Char → Option Chomp
  | '-' => some strip
  | '+' => some keep
  | _ => none

/-- The line ends that count, of the one after the last line and those of the blank lines below. -/
def Chomp.tail (ending blanks : List Char) : Chomp → List Char
  | strip => []
  | clip => ending
  | keep => ending ++ blanks

/-- The number that a digit stands for. -/
def digitMark? (c : Char) : Option Nat :=
  if c.isDigit then some (c.toNat - '0'.toNat) else none

/-- The marks after the sign of a block scalar. -/
structure BlockMarks where
  chomp : Chomp := .clip
  indent : Option Nat := none
  /-- How many marks there are. -/
  length : Nat := 0

/-- The marks at the front of a text, in either order. -/
def BlockMarks.ofText (cs : List Char) : BlockMarks :=
  let chomp (cs : List Char) := cs.head?.bind Chomp.ofMark?
  let digit (cs : List Char) := cs.head?.bind digitMark?
  match chomp cs, digit cs with
  | some c, _ =>
    match digit (cs.drop 1) with
    | some n => ⟨c, some n, 2⟩
    | none => ⟨c, none, 1⟩
  | none, some n =>
    match chomp (cs.drop 1) with
    | some c => ⟨c, some n, 2⟩
    | none => ⟨.clip, some n, 1⟩
  | none, none => {}

/-- A line and the character that ends it, which may be missing at the end of a text. -/
structure Line where
  content : List Char
  ending : List Char
deriving DecidableEq, Repr

namespace Line

/-- The lines of a text. -/
def ofText : List Char → List Line
  | [] => []
  | c :: cs =>
    if isBreak c then ⟨[], [c]⟩ :: ofText cs
    else match ofText cs with
      | [] => [⟨[c], []⟩]
      | l :: ls => { l with content := c :: l.content } :: ls

/-- The number of characters of a line. -/
def length (l : Line) : Nat :=
  l.content.length + l.ending.length

/-- The number of spaces that a line starts with. -/
def indent (l : Line) : Nat :=
  (l.content.takeWhile (· == ' ')).length

/-- Whether a line starts with a blank. -/
def startsBlank (l : Line) : Bool :=
  l.content.head?.any isSpace

end Line

/-- How far the blank lines at the front and the line after them are indented at most. -/
def widestIndent? (widest : Nat) : List Line → Option Nat
  | [] => some widest
  | l :: ls =>
    match l.content.drop l.indent with
    | [] => widestIndent? (max widest l.indent) ls
    | '\t' :: _ => none
    | _ => some (max widest l.indent)

/-- The lines of a block scalar, without their indentation, and the number of characters that they
take. Blank lines are empty here, the others are not. -/
def blockLines? (indent : Nat) : List Line → Option (List Line × Nat)
  | [] => some ([], 0)
  | l :: ls =>
    let spaces := min l.indent indent
    let content := l.content.drop spaces
    if content.isEmpty && l.ending.isEmpty then some ([], 0)
    else if spaces < indent && content.head? == some '\t' then none
    else if spaces < indent && !content.isEmpty then some ([], 0)
    else (blockLines? indent ls).map fun (lines, n) => (⟨content, l.ending⟩ :: lines, n + l.length)

/-- The text of a block scalar from some line on. Before it stand the end of a line, unless it is
the first one, and the ends of blank lines; `afterBlank` tells whether that line starts with a
blank. -/
def blockText (folded : Bool) (chomp : Chomp) (afterBlank : Bool) (ending blanks : List Char) :
    List Line → List Char
  | [] => chomp.tail ending blanks
  | l :: ls =>
    if l.content.isEmpty then blockText folded chomp afterBlank ending (blanks ++ l.ending) ls
    else
      let seam :=
        if folded && ending == ['\n'] && !afterBlank && !l.startsBlank then
          if blanks.isEmpty then [' '] else blanks
        else ending ++ blanks
      seam ++ l.content ++ blockText folded chomp l.startsBlank l.ending [] ls

/-- Read a block scalar after its sign, in a collection at `level`. -/
def block? (folded : Bool) (level : Nat) (s : Source) : Option (List Char × Source) := do
  let marks := BlockMarks.ofText s.rest
  if marks.indent == some 0 then failure
  let s ← (s.drop marks.length).endLine
  let lines := Line.ofText s.rest
  let indent ← match marks.indent with
    | some n => some (level - 1 + n)
    | none => (widestIndent? 0 lines).map fun widest => max widest (max level 1)
  let (lines, n) ← blockLines? indent lines
  return (blockText folded marks.chomp false [] [] lines, s.drop n)

end PatternSynth.Yaml
