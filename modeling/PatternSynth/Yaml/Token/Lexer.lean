import PatternSynth.Yaml.Directive
import PatternSynth.Yaml.Scalar.Block
import PatternSynth.Yaml.Scalar.Quoted

/-!
# From text to tokens

The levels of block collections follow the columns that their entries start at. A key needs no sign
of its own: it is known by the colon after it, so the lexer remembers where a key may have started,
and puts the tokens for it there once the colon is found. Such a key is on one line and is at most
1024 characters long.
-/

namespace PatternSynth.Yaml

/-- A place where a key may have started. -/
structure KeyStart where
  place : Place
  /-- Whether nothing but a key can stand here. -/
  required : Bool
  /-- The number of tokens before it. -/
  index : Nat

/-- Whether a colon at a place is too far away to belong to a key. -/
def KeyStart.isStale (k : KeyStart) (p : Place) : Bool :=
  k.place.line < p.line || k.place.column + 1024 < p.column

/-- The state of the lexer. -/
structure Lexer where
  source : Source
  tokens : Array Token := #[]
  /-- The levels of the open block collections, innermost first. The level of a collection is one
  more than the column of its entries. -/
  levels : List Nat := []
  /-- The key that may have started in the innermost flow collection, or in block style. -/
  keyStart : Option KeyStart := none
  /-- The same for the collections around each open flow collection, innermost first. -/
  outerKeyStarts : List (Option KeyStart) := []
  /-- Whether a key may start at the next token. -/
  keyAllowed : Bool := true

/-- Steps of the lexer that may refuse the text. -/
abbrev Lexing := StateT Lexer Option

namespace Lexer

/-- Whether a flow collection is open. -/
def flow (l : Lexer) : Bool :=
  !l.outerKeyStarts.isEmpty

/-- The innermost level. -/
def level (l : Lexer) : Nat :=
  l.levels.head?.getD 0

/-- Skip blanks, line ends and comments. In block style a line is not indented with tabs, and a key
may start on every new line. -/
def skipGap (flow : Bool) (keyAllowed comment : Bool) (p : Place) : List Char → Source × Bool
  | [] => (⟨[], p⟩, keyAllowed)
  | c :: cs =>
    if isBreak c then skipGap flow (keyAllowed || !flow) false (p.after c) cs
    else if comment || c == ' ' || (c == '\t' && (flow || !keyAllowed)) then
      skipGap flow keyAllowed comment (p.after c) cs
    else if c == '#' then skipGap flow keyAllowed true (p.after c) cs
    else (⟨c :: cs, p⟩, keyAllowed)

/-- Forget where a key may have started, if a colon cannot follow any more. -/
def refresh (p : Place) : Option KeyStart → Option (Option KeyStart)
  | some k => if !k.isStale p then some (some k) else if k.required then none else some none
  | none => some none

/-- Close the block collections inside a level. -/
def closeTo (level : Nat) : Lexing Unit :=
  modify fun l =>
    if l.flow then l
    else
      let closed := l.levels.takeWhile (level < ·)
      { l with
        tokens := l.tokens ++ Array.replicate closed.length .blockEnd
        levels := l.levels.drop closed.length }

/-- Go to the next token. -/
def approach : Lexing Unit := do
  let l ← get
  let (source, keyAllowed) := skipGap l.flow l.keyAllowed false l.source.place l.source.rest
  let keyStart ← refresh source.place l.keyStart
  let outerKeyStarts ← liftM (l.outerKeyStarts.mapM (refresh source.place))
  set { l with source, keyAllowed, keyStart, outerKeyStarts }
  closeTo (source.column + 1)

/-- Forget where a key may have started. -/
def removeKey : Lexing Unit := do
  if (← get).keyStart.any (·.required) then failure
  modify ({ · with keyStart := none })

/-- Remember that a key may start here. -/
def saveKey : Lexing Unit := do
  let l ← get
  if l.keyAllowed then
    removeKey
    let required := !l.flow && l.level == l.source.column + 1
    modify ({ · with keyStart := some ⟨l.source.place, required, l.tokens.size⟩ })

/-- Say whether a key may start at the next token. -/
def allowKey (allowed : Bool) : Lexing Unit :=
  modify ({ · with keyAllowed := allowed })

/-- Add a token that takes a number of characters. -/
def emit (t : Token) (length : Nat) : Lexing Unit :=
  modify fun l => { l with tokens := l.tokens.push t, source := l.source.drop length }

/-- Add a token that goes on to a source. -/
def emitTo (t : Token) (source : Source) : Lexing Unit :=
  modify fun l => { l with tokens := l.tokens.push t, source }

/-- Start a block collection at a column, with its first token at an index, unless one is open
there. -/
def openAt (column index : Nat) (start : Token) : Lexing Unit :=
  modify fun l =>
    if l.flow || column < l.level then l
    else
      { l with
        tokens := l.tokens.insertIdxIfInBounds index start
        levels := (column + 1) :: l.levels }

/-- Start a block collection here, where a key may start. -/
def openHere (start : Token) : Lexing Unit := do
  let l ← get
  if !l.flow then
    if !l.keyAllowed then failure
    openAt l.source.column l.tokens.size start

/-- A directive or a document marker: all block collections end before it. -/
def separate (read : Lexing Unit) : Lexing Unit := do
  closeTo 0
  removeKey
  allowKey false
  read

/-- The start of a flow collection. -/
def openFlow (start : Token) : Lexing Unit := do
  saveKey
  modify fun l => { l with keyStart := none, outerKeyStarts := l.keyStart :: l.outerKeyStarts }
  allowKey true
  emit start 1

/-- The end of a flow collection. -/
def closeFlow (stop : Token) : Lexing Unit := do
  removeKey
  modify fun l =>
    match l.outerKeyStarts with
    | k :: ks => { l with keyStart := k, outerKeyStarts := ks }
    | [] => l
  allowKey false
  emit stop 1

/-- The sign between the entries of a flow collection. -/
def flowEntry : Lexing Unit := do
  removeKey
  allowKey true
  emit .flowEntry 1

/-- The sign before an entry of a block sequence. -/
def blockEntry : Lexing Unit := do
  openHere .blockSequenceStart
  removeKey
  allowKey true
  emit .blockEntry 1

/-- The sign before a key. -/
def keySign : Lexing Unit := do
  openHere .blockMappingStart
  removeKey
  allowKey (!(← get).flow)
  emit .key 1

/-- The sign before a value: what stands before it on the line is its key, if a key may have started
there. -/
def valueSign : Lexing Unit := do
  match (← get).keyStart with
  | some k =>
    modify fun l =>
      { l with tokens := l.tokens.insertIdxIfInBounds k.index .key, keyStart := none }
    openAt k.place.column k.index .blockMappingStart
    allowKey false
  | none =>
    openHere .blockMappingStart
    allowKey (!(← get).flow)
  emit .value 1

/-- An anchor or an alias. -/
def name (token : String → Token) (cs : List Char) : Lexing Unit := do
  saveKey
  allowKey false
  let name ← anchorName? cs
  emit (token name) (name.length + 1)

/-- A tag. -/
def tag (cs : List Char) : Lexing Unit := do
  saveKey
  allowKey false
  let (tag, n) ← tag? (← get).flow cs
  emit (.tag tag) (n + 1)

/-- A block scalar. -/
def block (style : Style) : Lexing Unit := do
  removeKey
  allowKey true
  let l ← get
  let (text, source) ← block? (style == .folded) l.level (l.source.drop 1)
  emitTo (.scalar style (String.ofList text)) source

/-- A quoted scalar. -/
def quoted (style : Style) : Lexing Unit := do
  saveKey
  allowKey false
  let (text, source) ← quoted? (style == .doubleQuoted) ((← get).source.drop 1)
  emitTo (.scalar style (String.ofList text)) source

/-- A plain scalar. -/
def plain : Lexing Unit := do
  saveKey
  let l ← get
  let found ← plain? l.flow l.level false l.source
  allowKey found.endsLine
  emitTo (.scalar .plain (String.ofList found.text)) found.source

/-- A directive. -/
def directive : Lexing Unit := do
  let (token, source) ← directive? ((← get).source.drop 1)
  emitTo token source

/-- The token that starts with a character in front of others. -/
def token (c : Char) (cs : List Char) : Lexing Unit := do
  let l ← get
  if l.source.column == 0 && c == '%' then separate directive
  else if l.source.atMark '-' then separate (emit .documentStart 3)
  else if l.source.atMark '.' then separate (emit .documentEnd 3)
  else if c == '[' then openFlow .flowSequenceStart
  else if c == '\x7b' then openFlow .flowMappingStart
  else if c == ']' then closeFlow .flowSequenceEnd
  else if c == '\x7d' then closeFlow .flowMappingEnd
  else if c == ',' then flowEntry
  else if c == '-' && endsWord cs then blockEntry
  else if c == '?' && (l.flow || endsWord cs) then keySign
  else if c == ':' && (l.flow || endsWord cs) then valueSign
  else if c == '*' then name .alias cs
  else if c == '&' then name .anchor cs
  else if c == '!' then tag cs
  else if c == '|' && !l.flow then block .literal
  else if c == '>' && !l.flow then block .folded
  else if c == '\'' then quoted .singleQuoted
  else if c == '"' then quoted .doubleQuoted
  else if startsPlain l.flow (c :: cs) then plain
  else failure

/-- The end of the text: all block collections end there. -/
def finish : Lexing Unit := do
  closeTo 0
  removeKey

/-- Read to the end of the text. Every token takes some of it, so the last test never fails. -/
def run (l : Lexer) : Option (List Token) :=
  match approach l with
  | none => none
  | some ((), here) =>
    match here.source.rest with
    | [] => (finish here).map (·.2.tokens.toList)
    | c :: cs =>
      match token c cs here with
      | none => none
      | some ((), next) =>
        if next.source.rest.length < l.source.rest.length then next.run else none
termination_by l.source.rest.length

/-- The state before a text. A mark of the byte order at its start takes a column. -/
def ofText (cs : List Char) : Lexer :=
  let source : Source := { rest := unifyBreaks cs }
  { source := if cs.head? == some '\ufeff' then source.drop 1 else source }

end Lexer

/-- The tokens of a text; `none` if it is not well formed. -/
def tokenize (text : String) : Option (List Token) :=
  if text.toList.all isPrintable then (Lexer.ofText text.toList).run else none

end PatternSynth.Yaml
