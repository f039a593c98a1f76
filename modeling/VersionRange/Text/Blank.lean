/-!
# Blank characters

The white space that separates the terms of a range and that is dropped at both ends of a
version: the tab, the line ends, the separators among the controls and the spaces of Unicode,
but none of its zero-width characters. Text is worked on as a list of characters throughout the
library; strings stand only where text enters or leaves it. A surrogate is no character and stands
in no text.
-/

namespace VersionRange.Text

/-- Decide whether a character is white space. -/
def isBlank (c : Char) : Bool :=
  let n := c.toNat
  (0x09 ≤ n && n ≤ 0x0D) || (0x1C ≤ n && n ≤ 0x20) || n == 0x85 || n == 0xA0 || n == 0x1680 ||
    (0x2000 ≤ n && n ≤ 0x200A) || n == 0x2028 || n == 0x2029 || n == 0x202F || n == 0x205F ||
    n == 0x3000

/-- Drop the white space at both ends. -/
def trim (cs : List Char) : List Char :=
  ((cs.dropWhile isBlank).reverse.dropWhile isBlank).reverse

end VersionRange.Text
