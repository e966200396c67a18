import PatternSynth.Yaml.Source

/-!
# Plain scalars

A plain scalar is a row of words. The gap between two words counts as it is written if it is on one
line. A gap with one line end counts as a space, and one with more line ends as those after the
first.
-/

namespace PatternSynth.Yaml

/-- What a gap inside a scalar stands for. -/
def glue (gap : List Char) : List Char :=
  match gap.filter isBreak with
  | [] => gap
  | ['\n'] => [' ']
  | '\n' :: more => more
  | breaks => breaks

/-- Whether a tab stands within the first `level` columns of a line that starts in a gap. -/
def hasTabBefore (level : Nat) (gap : List Char) : Bool :=
  go none gap
where
  /-- The column is unknown on the line that the gap starts on. -/
  go : Option Nat → List Char → Bool
    | _, [] => false
    | column, c :: cs =>
      if isBreak c then go (some 0) cs
      else (c == '\t' && column.any (· < level)) || go (column.map (· + 1)) cs

/-- The word at the front of a plain scalar. In a flow collection no word goes on with a colon in
front of a sign of the collection. -/
def plainWord? (flow : Bool) : List Char → Option (List Char)
  | [] => some []
  | c :: cs =>
    if isSpace c || isBreak c then some []
    else if flow && c == ':' && cs.head?.any (fun d => d == '?' || isFlowMark d) then none
    else if (c == ':' && endsWord cs) || (flow && isFlowMark c) then some []
    else (plainWord? flow cs).map (c :: ·)

/-- Whether a plain scalar can start here. -/
def startsPlain (flow : Bool) : List Char → Bool
  | [] => false
  | c :: cs =>
    if c == '-' then !cs.head?.any isSpace
    else if c == '?' || c == ':' then !flow && !endsWord cs
    else !isSpace c && !isBreak c && !isFlowMark c && c != '\x60' &&
      !"#&*!|>'\"%@".toList.contains c

/-- What a reader of a plain scalar found. -/
structure PlainText where
  text : List Char
  /-- Whether the gap after the last word goes over the end of a line. -/
  endsLine : Bool
  source : Source

/-- Read a plain scalar whose lines, in block style, are indented by `level` columns at least. The
gap before the text goes over the end of a line if `endsLine` says so. -/
def plain? (flow : Bool) (level : Nat) (endsLine : Bool) (s : Source) : Option PlainText :=
  match _hs : s.rest with
  | [] => some ⟨[], endsLine, s⟩
  | c :: cs =>
    match plainWord? flow (c :: cs) with
    | none => none
    | some [] => some ⟨[], endsLine, s⟩
    | some (d :: ds) =>
      let word := d :: ds
      let between := gap ((s.drop word.length).rest)
      let next := s.drop (word.length + between.length)
      let endsLine := between.any isBreak
      if hasTabBefore level between then none
      else if next.atMarker || next.rest.head? == some '#' ||
          (endsLine && !flow && next.column < level) then
        some ⟨word, endsLine, next⟩
      else
        (plain? flow level endsLine next).map fun tail =>
          if tail.text.isEmpty then { tail with text := word }
          else { tail with text := word ++ glue between ++ tail.text }
termination_by s.rest.length
decreasing_by
  rw [Source.length_rest_drop, _hs]
  simp only [List.length_cons]
  omega

end PatternSynth.Yaml
