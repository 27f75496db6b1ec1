import TurtleScript.Text.CharRange

/-!
# Blanks

The characters that Unicode counts as white space.
-/
namespace TurtleScript.Text

def isBlank (c : Char) : Bool :=
  inRanges c.toNat [(0x09, 0x0d), (0x20, 0x20), (0x85, 0x85), (0xa0, 0xa0), (0x1680, 0x1680),
    (0x2000, 0x200a), (0x2028, 0x2029), (0x202f, 0x202f), (0x205f, 0x205f), (0x3000, 0x3000)]

/-- Takes the blanks off both ends. -/
def trim (cs : List Char) : List Char :=
  ((cs.dropWhile isBlank).reverse.dropWhile isBlank).reverse

end TurtleScript.Text
