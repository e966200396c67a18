import PatternSynth.Yaml.Scalar.Plain

/-!
# Quoted scalars

Line ends inside quotes count as in a plain scalar. Between single quotes a quote is written twice.
Between double quotes a backslash starts an escape, and one at the end of a line takes the line end
and the blanks after it away.
-/

namespace PatternSynth.Yaml

/-- The number of digits after an escape that gives the code of a character. -/
def codeLength : Char → Option Nat
  | 'x' => some 2
  | 'u' => some 4
  | 'U' => some 8
  | _ => none

/-- The character that a short escape stands for. -/
def shortEscape : Char → Option Char
  | '0' => some '\x00'
  | 'a' => some '\x07'
  | 'b' => some '\x08'
  | 't' | '\t' => some '\t'
  | 'n' => some '\n'
  | 'v' => some '\x0b'
  | 'f' => some '\x0c'
  | 'r' => some '\r'
  | 'e' => some '\x1b'
  | ' ' => some ' '
  | '"' => some '"'
  | '/' => some '/'
  | '\\' => some '\\'
  | 'N' => some '\x85'
  | '_' => some '\xa0'
  | 'L' => some '\u2028'
  | 'P' => some '\u2029'
  | _ => none

/-- The character with a code. -/
def charOfCode? (n : Nat) : Option Char :=
  if n.isValidChar then some (Char.ofNat n) else none

/-- The text that the escape after a backslash stands for, and the length of the escape. -/
def escape? : List Char → Option (List Char × Nat)
  | [] => none
  | e :: cs =>
    if isBreak e then
      let between := gap cs
      some (between.filter isBreak, between.length + 1)
    else match codeLength e with
      | some n =>
        if cs.length < n then none
        else ((hexValue? (cs.take n)).bind charOfCode?).map fun c => ([c], n + 1)
      | none => (shortEscape e).map fun c => ([c], 1)

/-- Read the rest of a quoted scalar and the quote that ends it. -/
def quoted? (double : Bool) (s : Source) : Option (List Char × Source) :=
  match _hs : s.rest with
  | [] => none
  | c :: cs =>
    if s.atMarker then none
    else if isSpace c || isBreak c then
      let between := gap cs
      (quoted? double (s.drop (between.length + 1))).map fun (text, s) =>
        (glue (c :: between) ++ text, s)
    else if double && c == '\\' then
      match escape? cs with
      | some (found, n) =>
        (quoted? double (s.drop (n + 1))).map fun (text, s) => (found ++ text, s)
      | none => none
    else if !double && c == '\'' && cs.head? == some '\'' then
      (quoted? double (s.drop 2)).map fun (text, s) => ('\'' :: text, s)
    else if c == (if double then '"' else '\'') then some ([], s.drop 1)
    else (quoted? double (s.drop 1)).map fun (text, s) => (c :: text, s)
termination_by s.rest.length
decreasing_by
  all_goals
    rw [Source.length_rest_drop, _hs]
    simp only [List.length_cons]
    omega

end PatternSynth.Yaml
