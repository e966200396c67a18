import PatternSynth.Yaml.Source
import PatternSynth.Yaml.Token

/-!
# Anchors and tags as they are written

A tag is a resource name between angle brackets, a handle and the rest of a name, or a name that is
local to the document.
-/

namespace PatternSynth.Yaml

/-- The characters of a resource name. A name between angle brackets may hold more of them. -/
def isUriChar (bracketed : Bool) (c : Char) : Bool :=
  isNameChar c || ";/?:@&=+$.!~*'()%".toList.contains c ||
    (bracketed && (c == ',' || c == '[' || c == ']'))

/-- How many octets follow the first octet of a character. -/
def octetsAfter? (octet : Nat) : Option Nat :=
  if octet < 0x80 then some 0
  else if octet < 0xC0 then none
  else if octet < 0xE0 then some 1
  else if octet < 0xF0 then some 2
  else if octet < 0xF8 then some 3
  else none

/-- A resource name in octets, where `pending` octets of a character are still to come. An octet may
be written as a percent sign and two digits; one outside the plain characters is always written
so. -/
def octets? (pending : Nat) : List Char → Option (List Char)
  | [] => if pending == 0 then some [] else none
  | '%' :: a :: b :: cs => do
    let octet ← hexValue? [a, b]
    let pending ←
      if pending == 0 then octetsAfter? octet
      else if 0x80 ≤ octet && octet < 0xC0 then some (pending - 1)
      else none
    (octets? pending cs).map (Char.ofNat octet :: ·)
  | c :: cs => if c == '%' || pending != 0 then none else (octets? 0 cs).map (c :: ·)

/-- The resource name at the front of a text, and how long it is written. The name ends before the
first octet that is zero. -/
def uri? (bracketed : Bool) (cs : List Char) : Option (String × Nat) :=
  let written := cs.takeWhile (isUriChar bracketed)
  (octets? 0 written).map fun name =>
    (String.ofList (name.takeWhile (· != '\x00')), written.length)

/-- The name after the sign of an anchor or an alias. -/
def anchorName? (cs : List Char) : Option String :=
  let name := cs.takeWhile isNameChar
  let rest := cs.drop name.length
  if name.isEmpty then none
  else if endsWord rest || rest.head?.any ("?:,]\x7d%@\x60".toList.contains ·) then
    some (String.ofList name)
  else none

/-- The tag after an exclamation mark, and how long it is written. -/
def tagBody? (cs : List Char) : Option (Tag × Nat) := do
  match cs with
  | '<' :: cs =>
    let (name, n) ← uri? true cs
    if n == 0 || (cs.drop n).head? != some '>' then failure
    return (⟨"", name⟩, n + 2)
  | _ =>
    let name := cs.takeWhile isNameChar
    let rest := cs.drop name.length
    if rest.head? == some '!' then
      let (suffix, n) ← uri? false (rest.drop 1)
      if n == 0 then failure
      return (⟨"!" ++ String.ofList name ++ "!", suffix⟩, name.length + 1 + n)
    else
      let (more, n) ← uri? false rest
      let suffix := String.ofList name ++ more
      return (if suffix.isEmpty then ⟨"", "!"⟩ else ⟨"!", suffix⟩, name.length + n)

/-- The tag after an exclamation mark. A word ends after it, or in a flow collection also an
entry. -/
def tag? (flow : Bool) (cs : List Char) : Option (Tag × Nat) :=
  (tagBody? cs).filter fun (_, n) =>
    let rest := cs.drop n
    endsWord rest || (flow && rest.head? == some ',')

end PatternSynth.Yaml
