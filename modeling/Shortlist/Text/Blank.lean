import Shortlist.Text.Ranges

/-!
# White space

The blank characters of Unicode 14, and the text that is left when they are cut off both ends.
-/

namespace Shortlist.Text

/-- The characters that separate words: white space of Unicode, and the four separators that
ASCII puts before the space. -/
def blankRanges : Ranges :=
  [(9, 13), (28, 32), (133, 133), (160, 160), (5760, 5760), (8192, 8202), (8232, 8233),
   (8239, 8239), (8287, 8287), (12288, 12288)]

def isBlank (c : Char) : Bool := blankRanges.holds c

/-- The characters between the first and the last one that is not in the class. -/
def trimList (skip : Char → Bool) (cs : List Char) : List Char :=
  ((cs.dropWhile skip).reverse.dropWhile skip).reverse

/-- The text without the blank characters at both ends. -/
def trim (s : String) : String := String.ofList (trimList isBlank s.toList)

/-- Whether a text has no character that is not blank. -/
def isBlankText (s : String) : Bool := s.toList.all isBlank

end Shortlist.Text
