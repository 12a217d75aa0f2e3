/-!
# Blanks

The characters that stand for empty space, and texts without them at their
ends.
-/

namespace LSystem.Text

/-- Whether a character is empty space: spaces of every width, tabs, and ends
of lines and paragraphs. -/
def isBlank (c : Char) : Bool :=
  let code := c.toNat
  (0x09 ≤ code && code ≤ 0x0d) || code == 0x20 || code == 0x85 || code == 0xa0 ||
    code == 0x1680 || (0x2000 ≤ code && code ≤ 0x200a) || code == 0x2028 || code == 0x2029 ||
    code == 0x202f || code == 0x205f || code == 0x3000

/-- A text without the blanks at its start and at its end. -/
def trimBlanks (text : List Char) : List Char :=
  ((text.dropWhile isBlank).reverse.dropWhile isBlank).reverse

end LSystem.Text
