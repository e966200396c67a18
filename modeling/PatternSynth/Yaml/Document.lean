import PatternSynth.Yaml.Node
import PatternSynth.Yaml.Token.Lexer

/-!
# From tokens to a YAML document

A text holds at most one document. Directives stand only in front of one that starts with a marker.
-/

namespace PatternSynth.Yaml

/-- What a document is read from, and the names found so far. -/
structure Reading where
  tokens : List Token
  /-- What the handles of tags stand for. -/
  handles : List (String × String)
  anchors : Anchors := {}

/-- Readers that may refuse the tokens. -/
abbrev Reader := StateT Reading Option

namespace Reader

/-- The next token. -/
def peek : Reader (Option Token) :=
  return (← get).tokens.head?

/-- Go over a token. -/
def skip : Reader Unit :=
  modify fun r => { r with tokens := r.tokens.drop 1 }

/-- Go over a token if it is the next one. -/
def accept (t : Token) : Reader Bool := do
  if (← peek) == some t then
    skip
    return true
  else return false

/-- Whether the next token is one of some. -/
def isAt (ts : List Token) : Reader Bool :=
  return (← peek).any (ts.contains ·)

/-- Give a name to a node, if there is one for it. -/
def define (name : Option String) (target : Option Scalar) : Reader Unit :=
  match name with
  | some name => modify fun r => { r with anchors := r.anchors.insert name target }
  | none => return ()

/-- The full name of a tag. -/
def fullName (t : Tag) : Reader String := do
  if t.handle.isEmpty then return t.suffix
  match (← get).handles.lookup t.handle with
  | some front => return front ++ t.suffix
  | none => failure

/-- An anchor, if there is one. -/
def anchor? : Reader (Option String) := do
  match ← peek with
  | some (.anchor name) =>
    skip
    return some name
  | _ => return none

/-- A tag, if there is one. -/
def tag? : Reader (Option String) := do
  match ← peek with
  | some (.tag t) =>
    skip
    return some (← fullName t)
  | _ => return none

/-- The anchor and the tag of a node, in either order. -/
def properties : Reader (Option String × Option String) := do
  match ← anchor? with
  | some name => return (some name, ← tag?)
  | none =>
    let tag ← tag?
    return (← anchor?, tag)

mutual

/-- A node. In block style it may be a block collection, and as a part of a block mapping also a
sequence that is not indented more. -/
def node (fuel : Nat) (inBlock inMapping : Bool) : Reader Node :=
  match fuel with
  | 0 => failure
  | fuel + 1 => do
    if let some (.alias name) ← peek then
      skip
      match (← get).anchors.slots.lookup name with
      | some slot => return .alias slot
      | none => failure
    let (name, tag) ← properties
    match ← peek with
    | some (.scalar style text) =>
      skip
      let s : Scalar := { text, style, tag := tag.filter (· != "!") }
      define name (some s)
      return .scalar s
    | some .flowSequenceStart =>
      skip
      define name none
      flowSequence fuel true []
    | some .flowMappingStart =>
      skip
      define name none
      flowMapping fuel true []
    | t =>
      if inMapping && t == some .blockEntry then
        define name none
        looseSequence fuel []
      else if inBlock && t == some .blockSequenceStart then
        skip
        define name none
        blockSequence fuel []
      else if inBlock && t == some .blockMappingStart then
        skip
        define name none
        blockMapping fuel []
      else if name.isNone && tag.isNone then failure
      else
        let s : Scalar := { text := "", tag }
        define name (some s)
        return .scalar s

/-- A node, or nothing if one of some tokens comes next. -/
def nodeBefore (fuel : Nat) (stops : List Token) (inBlock inMapping : Bool) : Reader Node :=
  match fuel with
  | 0 => failure
  | fuel + 1 => do
    if ← isAt stops then return .empty else node fuel inBlock inMapping

/-- The rest of a block sequence, with what was found of it in reverse order. -/
def blockSequence (fuel : Nat) (found : List Node) : Reader Node :=
  match fuel with
  | 0 => failure
  | fuel + 1 => do
    if ← accept .blockEntry then
      let item ← nodeBefore fuel [.blockEntry, .blockEnd] true false
      blockSequence fuel (item :: found)
    else if ← accept .blockEnd then return .sequence found.reverse
    else failure

/-- The rest of a sequence that is not indented more than the mapping around it. -/
def looseSequence (fuel : Nat) (found : List Node) : Reader Node :=
  match fuel with
  | 0 => failure
  | fuel + 1 => do
    if ← accept .blockEntry then
      let item ← nodeBefore fuel [.blockEntry, .key, .value, .blockEnd] true false
      looseSequence fuel (item :: found)
    else return .sequence found.reverse

/-- The rest of a block mapping, with what was found of it in reverse order. -/
def blockMapping (fuel : Nat) (found : List (Node × Node)) : Reader Node :=
  match fuel with
  | 0 => failure
  | fuel + 1 => do
    let stops : List Token := [.key, .value, .blockEnd]
    if ← accept .key then
      let key ← nodeBefore fuel stops true true
      let value ← if ← accept .value then nodeBefore fuel stops true true else pure .empty
      blockMapping fuel ((key, value) :: found)
    else if ← accept .blockEnd then return .mapping found.reverse
    else failure

/-- The value of a key in a flow collection, before the token that ends the collection. -/
def flowValue (fuel : Nat) (stop : Token) : Reader Node :=
  match fuel with
  | 0 => failure
  | fuel + 1 => do
    if ← accept .value then nodeBefore fuel [.flowEntry, stop] false false else return .empty

/-- The rest of a flow sequence, with what was found of it in reverse order. A pair is an item of
its own. -/
def flowSequence (fuel : Nat) (first : Bool) (found : List Node) : Reader Node :=
  match fuel with
  | 0 => failure
  | fuel + 1 => do
    if ← accept .flowSequenceEnd then return .sequence found.reverse
    unless first do
      unless ← accept .flowEntry do failure
    if ← accept .flowSequenceEnd then return .sequence found.reverse
    if ← accept .key then
      let stops : List Token := [.value, .flowEntry, .flowSequenceEnd]
      let missing ← isAt stops
      let key ← nodeBefore fuel stops false false
      -- A missing key takes the token that stands in its place.
      if missing then skip
      let value ← flowValue fuel .flowSequenceEnd
      flowSequence fuel false (.mapping [(key, value)] :: found)
    else
      let item ← node fuel false false
      flowSequence fuel false (item :: found)

/-- The rest of a flow mapping, with what was found of it in reverse order. -/
def flowMapping (fuel : Nat) (first : Bool) (found : List (Node × Node)) : Reader Node :=
  match fuel with
  | 0 => failure
  | fuel + 1 => do
    if ← accept .flowMappingEnd then return .mapping found.reverse
    unless first do
      unless ← accept .flowEntry do failure
    if ← accept .flowMappingEnd then return .mapping found.reverse
    if ← accept .key then
      let key ← nodeBefore fuel [.value, .flowEntry, .flowMappingEnd] false false
      let value ← flowValue fuel .flowMappingEnd
      flowMapping fuel false ((key, value) :: found)
    else
      let key ← node fuel false false
      flowMapping fuel false ((key, .empty) :: found)

end

/-- The directives in front of a document: its version once, and handles, each once. -/
def directives : List Token → Bool → List (String × String) →
    Option (List (String × String) × List Token)
  | .version major minor :: ts, versioned, handles =>
    if versioned || major != 1 || (minor != 1 && minor != 2) then none
    else directives ts true handles
  | .handle name front :: ts, versioned, handles =>
    if (handles.lookup name).isSome then none
    else directives ts versioned ((name, front) :: handles)
  | ts, _, handles => some (handles, ts)

end Reader

/-- What handles stand for unless a document says otherwise. -/
def usualHandles : List (String × String) :=
  [("!", "!"), ("!!", "tag:yaml.org,2002:")]

/-- Whether a token stands before or after a document. -/
def Token.isOutside : Token → Bool
  | .version .. | .handle .. | .documentStart | .documentEnd => true
  | _ => false

namespace Document

/-- Read a document and what ends it, where nothing may follow. -/
def reader (marked : Bool) (fuel : Nat) : Reader Document := do
  let root ← match ← Reader.peek with
    | none => if marked then pure .empty else failure
    | some t => if marked && t.isOutside then pure .empty else Reader.node fuel true false
  let r ← get
  if r.tokens.all (· == .documentEnd) then return ⟨root, r.anchors⟩ else failure

/-- The one document that tokens stand for, or nothing if there are no tokens. A token adds at most
three to the depth of the calls, so the fuel is enough. -/
def ofTokens? (ts : List Token) : Option (Option Document) := do
  if ts.isEmpty then return none
  let (handles, rest) ← Reader.directives ts false []
  let marked := rest.head? == some .documentStart
  if !marked && rest.length < ts.length then failure
  let tokens := if marked then rest.drop 1 else rest
  let r : Reading := ⟨tokens, handles ++ usualHandles, {}⟩
  return some (← (reader marked (4 * ts.length + 4)).run' r)

/-- Read a text that holds at most one document; `none` if it is not well formed. -/
def ofText? (text : String) : Option (Option Document) :=
  (tokenize text).bind ofTokens?

end Document

end PatternSynth.Yaml
