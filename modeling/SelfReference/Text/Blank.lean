/-!
# Blank characters

The Unicode property White_Space as a predicate on characters, and trimming by it.  A text is
blank when nothing is left after trimming.
-/

namespace SelfReference.Text

/-- The characters with the Unicode property White_Space. -/
def isBlankChar (c : Char) : Bool :=
  (0x09 ≤ c.val && c.val ≤ 0x0D) || c.val = 0x20 || c.val = 0x85 || c.val = 0xA0 ||
  c.val = 0x1680 || (0x2000 ≤ c.val && c.val ≤ 0x200A) || c.val = 0x2028 || c.val = 0x2029 ||
  c.val = 0x202F || c.val = 0x205F || c.val = 0x3000

def trimBlank (cs : List Char) : List Char :=
  ((cs.dropWhile isBlankChar).reverse.dropWhile isBlankChar).reverse

/-- A text that holds blank characters only. -/
def isBlank (s : String) : Bool := s.toList.all isBlankChar

/-- Writes the letters A to Z small.  No other character lowers to a letter of the words this
library compares with, so for them the ASCII map decides as the full one would. -/
def lowered (s : String) : String := String.ofList (s.toList.map Char.toLower)

end SelfReference.Text
