import PatternSynth.Text.Blank
import PatternSynth.Token

/-!
From source text to tokens. Every text has tokens: nothing is refused.

Between tokens stand blanks and comments. A comment starts with `#` where a token could start and
runs to the end of its line. A token is a bracket, or a quoted literal that is closed somewhere
later in the text, or else the longest run of characters that are neither blank nor brackets.
-/

namespace PatternSynth.Token

/-- The six brackets, each a token of its own. -/
def isBracket (c : Char) : Bool :=
  c == '[' || c == ']' || c == '<' || c == '>' || c == '(' || c == ')'

/-- The characters of a run. -/
def isWordChar (c : Char) : Bool :=
  !Text.isBlank c && !isBracket c

/-- The length of a text in bytes. -/
def byteLength (cs : List Char) : Nat :=
  cs.foldl (fun n c => n + c.utf8Size) 0

/-- The token at the front of `c :: cs`, where `c` starts one. -/
def lexeme (c : Char) (cs : List Char) : List Char :=
  if isBracket c then [c]
  else if c == '"' && cs.contains '"' then c :: (cs.takeWhile (· != '"') ++ ['"'])
  else c :: cs.takeWhile isWordChar

/-- The tokens of a text that stands `offset` bytes into the source, after those in `found`, which
is in reverse order. -/
def scan (found : List Token) (offset : Nat) (cs : List Char) : List Token :=
  match cs with
  | [] => found.reverse
  | c :: rest =>
    if Text.isBlank c then scan found (offset + c.utf8Size) rest
    else if c == '#' then
      let comment := rest.takeWhile (· != '\n')
      scan found (offset + c.utf8Size + byteLength comment) (rest.drop comment.length)
    else
      let word := lexeme c rest
      let stop := offset + byteLength word
      scan (⟨String.ofList word, ⟨offset, stop⟩⟩ :: found) stop (rest.drop (word.length - 1))
termination_by cs.length
decreasing_by
  all_goals
    simp only [List.length_cons, List.length_drop]
    omega

/-- The tokens of a source text. -/
def tokenize (source : String) : List Token :=
  scan [] 0 source.toList

end PatternSynth.Token
