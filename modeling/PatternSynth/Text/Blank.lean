/-!
# White space: the characters that separate tokens and that a number may be padded with

The class is the `White_Space` property of the Unicode character database, twenty-five characters
in ten ranges.
-/

namespace PatternSynth.Text

/-- The characters with the `White_Space` property. -/
def isBlank (c : Char) : Bool :=
  let n := c.toNat
  n == 0x20 || (0x09 ≤ n && n ≤ 0x0D) || n == 0x85 || n == 0xA0 || n == 0x1680 ||
    (0x2000 ≤ n && n ≤ 0x200A) || n == 0x2028 || n == 0x2029 || n == 0x202F || n == 0x205F ||
    n == 0x3000

/-- Drop the blanks at both ends. -/
def trim (cs : List Char) : List Char :=
  ((cs.dropWhile isBlank).reverse.dropWhile isBlank).reverse

end PatternSynth.Text
