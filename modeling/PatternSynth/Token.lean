import PatternSynth.Span

/-! Tokens: pieces of source text with the place they were found at. -/

namespace PatternSynth

/-- A token: its text as written, quotes included, and where it stands. -/
structure Token where
  text : String
  span : Span
deriving DecidableEq, Repr

namespace Token

/-- Whether the text opens with a double quote. -/
def isQuoted (t : Token) : Bool :=
  t.text.toList.head? == some '"'

/-- Drop a quote at the end. -/
def dropClosingQuote (cs : List Char) : List Char :=
  if cs.getLast? == some '"' then cs.dropLast else cs

/-- The text without a quote at its front and then a quote at its end. -/
def unquoted (t : Token) : String :=
  match t.text.toList with
  | '"' :: cs => String.ofList (dropClosingQuote cs)
  | cs => String.ofList (dropClosingQuote cs)

end Token

end PatternSynth
