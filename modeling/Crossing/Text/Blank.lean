/-!
# Blank characters

The characters with the Unicode property `White_Space`, and trimming by them. There are
twenty-five: six of ASCII, the two of Latin-1, and those of the general punctuation block, with
the Ogham space and the ideographic space. The zero-width characters are not among them.
-/

namespace Crossing.Text

/-- Whether a character has the property `White_Space`. -/
def isBlank (c : Char) : Bool :=
  let n := c.toNat
  (9 ≤ n && n ≤ 13) || n == 0x20 || n == 0x85 || n == 0xA0 || n == 0x1680 ||
    (0x2000 ≤ n && n ≤ 0x200A) || n == 0x2028 || n == 0x2029 || n == 0x202F || n == 0x205F ||
    n == 0x3000

/-- The text without the blanks that it starts with. -/
def trimStart (s : List Char) : List Char :=
  s.dropWhile isBlank

/-- The text without the elements satisfying `p` that it ends with. -/
def trimEndBy (p : Char → Bool) (s : List Char) : List Char :=
  (s.reverse.dropWhile p).reverse

/-- The text without the elements satisfying `p` at either end. -/
def trimBy (p : Char → Bool) (s : List Char) : List Char :=
  trimEndBy p (s.dropWhile p)

/-- The text without the blanks at either end. -/
def trim (s : List Char) : List Char :=
  trimBy isBlank s

end Crossing.Text
