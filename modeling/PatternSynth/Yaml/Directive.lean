import PatternSynth.Yaml.Tag

/-!
# Directives in front of a YAML document

A directive is a line that tells which version of the format the document is written for, or what a
handle stands for in its tags. There are no others.
-/

namespace PatternSynth.Yaml

/-- A number of one to nine digits at the front of a text, and its length. -/
def shortNumber? (cs : List Char) : Option (Nat × Nat) :=
  let digits := cs.takeWhile Char.isDigit
  if digits.isEmpty || 9 < digits.length then none
  else some (digits.foldl (fun n c => 10 * n + (c.toNat - '0'.toNat)) 0, digits.length)

/-- Read the version that a document is written for. -/
def version? (s : Source) : Option (Token × Source) := do
  let (major, n) ← shortNumber? s.rest
  let s := s.drop n
  if s.rest.head? != some '.' then failure
  let s := s.drop 1
  let (minor, n) ← shortNumber? s.rest
  return (.version major minor, s.drop n)

/-- Read what a handle stands for. -/
def handle? (s : Source) : Option (Token × Source) := do
  if s.rest.head? != some '!' then failure
  let name := (s.rest.drop 1).takeWhile isNameChar
  let closed := (s.rest.drop (name.length + 1)).head? == some '!'
  if !closed && !name.isEmpty then failure
  let handle := '!' :: name ++ (if closed then ['!'] else [])
  let s := s.drop handle.length
  if !s.rest.head?.any isSpace then failure
  let s := s.dropWhile isSpace
  let (front, n) ← uri? true s.rest
  if n == 0 || !endsWord (s.rest.drop n) then failure
  return (.handle (String.ofList handle) front, s.drop n)

/-- Read a directive after its sign, to the end of the line. -/
def directive? (s : Source) : Option (Token × Source) := do
  let name := s.rest.takeWhile isNameChar
  let s := s.drop name.length
  if !endsWord s.rest then failure
  let s := s.dropWhile isSpace
  let (token, s) ←
    if name == "YAML".toList then version? s
    else if name == "TAG".toList then handle? s
    else none
  return (token, ← s.endLine)

end PatternSynth.Yaml
