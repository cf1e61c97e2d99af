import Workflow.Text.Ranges

/-!
# Blanks

The code points with the Unicode property `White_Space`. A text is blank when it
holds nothing else, and trimming takes blanks off both ends. A zero width space
and a byte order mark are not blanks.
-/

namespace Workflow.Text

/-- The code points with the property `White_Space`. -/
def whiteSpace : Ranges := [
  (0x9, 0xD), (0x20, 0x20), (0x85, 0x85), (0xA0, 0xA0), (0x1680, 0x1680), (0x2000, 0x200A),
  (0x2028, 0x2029), (0x202F, 0x202F), (0x205F, 0x205F), (0x3000, 0x3000)]

/-- Whether a character has the property `White_Space`. -/
def isBlank (c : Char) : Bool := whiteSpace.has c.toNat

/-- The text without the blanks at its two ends. -/
def trim (s : String) : String :=
  String.ofList ((s.toList.dropWhile isBlank).reverse.dropWhile isBlank).reverse

/-- Whether a text holds nothing but blanks. -/
def isBlankText (s : String) : Bool := s.toList.all isBlank

end Workflow.Text
