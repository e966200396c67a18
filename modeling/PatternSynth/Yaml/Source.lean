/-!
# Text as a YAML reader sees it

The characters that a document may hold, the ends of its lines, and a text together with the place
where it starts. Readers go forward only by `Source.drop`, so that line and column are always those
of the next character.
-/

namespace PatternSynth.Yaml

/-- Spaces and tabs. -/
def isSpace (c : Char) : Bool :=
  c == ' ' || c == '\t'

/-- The ends of lines, in the form that `unifyBreaks` gives them. -/
def isBreak (c : Char) : Bool :=
  c == '\n' || c == '\u2028' || c == '\u2029'

/-- The characters of names. -/
def isNameChar (c : Char) : Bool :=
  c.isAlphanum || c == '_' || c == '-'

/-- The characters that have a meaning of their own in a flow collection. -/
def isFlowMark (c : Char) : Bool :=
  c == ',' || c == '[' || c == ']' || c == '\x7b' || c == '\x7d'

/-- The characters that a document may hold. -/
def isPrintable (c : Char) : Bool :=
  let n := c.toNat
  n == 0x09 || n == 0x0A || n == 0x0D || (0x20 ≤ n && n ≤ 0x7E) || n == 0x85 ||
    (0xA0 ≤ n && n ≤ 0xFFFD) || 0x10000 ≤ n

/-- Write every end of a line as one character: a line feed, except that the line and paragraph
separators stay as they are. -/
def unifyBreaks : List Char → List Char
  | [] => []
  | '\r' :: '\n' :: cs => '\n' :: unifyBreaks cs
  | c :: cs => (if c == '\r' || c == '\x85' then '\n' else c) :: unifyBreaks cs

/-- Whether a text is at its end, or at the end of a word. -/
def endsWord : List Char → Bool
  | [] => true
  | c :: _ => isSpace c || isBreak c

/-- The blanks and line ends at the front of a text. -/
def gap (cs : List Char) : List Char :=
  cs.takeWhile fun c => isSpace c || isBreak c

/-- A number in hexadecimal digits. -/
def hexValue? (ds : List Char) : Option Nat :=
  ds.foldlM (fun n c =>
    if c.isDigit then some (16 * n + (c.toNat - '0'.toNat))
    else if 'a' ≤ c.toLower && c.toLower ≤ 'f' then
      some (16 * n + (c.toLower.toNat - 'a'.toNat + 10))
    else none) 0

/-- Where a character stands. Lines and columns count from zero. -/
structure Place where
  line : Nat := 0
  column : Nat := 0
deriving DecidableEq, Repr

/-- The place after a character. -/
def Place.after (p : Place) (c : Char) : Place :=
  if isBreak c then ⟨p.line + 1, 0⟩ else ⟨p.line, p.column + 1⟩

/-- The text that is still to be read, and where it starts. -/
structure Source where
  rest : List Char
  place : Place := {}

namespace Source

/-- The column of the next character. -/
def column (s : Source) : Nat :=
  s.place.column

/-- Go forward over a number of characters. -/
def drop (s : Source) (n : Nat) : Source :=
  ⟨s.rest.drop n, (s.rest.take n).foldl Place.after s.place⟩

theorem length_rest_drop (s : Source) (n : Nat) :
    (s.drop n).rest.length = s.rest.length - n :=
  List.length_drop

/-- Go forward over the characters of a kind. -/
def dropWhile (s : Source) (p : Char → Bool) : Source :=
  s.drop (s.rest.takeWhile p).length

/-- Whether three equal signs and the end of a word stand at the start of a line. -/
def atMark (s : Source) (sign : Char) : Bool :=
  s.column == 0 && s.rest.take 3 == [sign, sign, sign] && endsWord (s.rest.drop 3)

/-- Whether a document starts or ends here. -/
def atMarker (s : Source) : Bool :=
  s.atMark '-' || s.atMark '.'

/-- Go to the next line, if only blanks and a comment are left on this one. -/
def endLine (s : Source) : Option Source :=
  let s := s.dropWhile isSpace
  let s := if s.rest.head? == some '#' then s.dropWhile (!isBreak ·) else s
  match s.rest with
  | [] => some s
  | c :: _ => if isBreak c then some (s.drop 1) else none

end Source

end PatternSynth.Yaml
