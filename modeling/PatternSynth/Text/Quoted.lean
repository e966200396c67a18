import PatternSynth.Text.Hidden

/-!
Quoted text, for signatures: double quotes and backslashes are escaped, and so is every character
that cannot be seen on its own.
-/

namespace PatternSynth.Text

/-- A hexadecimal number in braces, after `\\u`. -/
def escapeCode (c : Char) : List Char :=
  ['\\', 'u', '\x7b'] ++ Nat.toDigits 16 c.toNat ++ ['\x7d']

/-- A character inside quotes. -/
def quotedChar (c : Char) : List Char :=
  match c with
  | '"' => ['\\', '"']
  | '\\' => ['\\', '\\']
  | '\x00' => ['\\', '0']
  | '\t' => ['\\', 't']
  | '\n' => ['\\', 'n']
  | '\r' => ['\\', 'r']
  | c => if isHidden c then escapeCode c else [c]

/-- A text in quotes. -/
def quoted (s : String) : String :=
  String.ofList ('"' :: (s.toList.flatMap quotedChar ++ ['"']))

end PatternSynth.Text
