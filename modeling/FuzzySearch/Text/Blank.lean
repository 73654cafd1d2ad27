/-!
# Blank characters

The white space of Unicode together with the four information separators.  `strip` removes blank
characters from both ends of a text, and `isBlank` holds of a text that has nothing else; both
read the one table `blankRanges`.  Around a number the separators are no white space: `trim` leaves
them in place.
-/

namespace FuzzySearch.Text

/-- Whether the code point of `c` lies in one of the ranges. -/
def inRanges (ranges : List (Nat × Nat)) (c : Char) : Bool :=
  ranges.any fun range => range.1 ≤ c.toNat && c.toNat ≤ range.2

/-- The blank characters, as ranges of code points. -/
def blankRanges : List (Nat × Nat) :=
  [(9, 13), (28, 32), (133, 133), (160, 160), (5760, 5760), (8192, 8202), (8232, 8233),
    (8239, 8239), (8287, 8287), (12288, 12288)]

/-- Whether a character is blank. -/
def isBlankChar (c : Char) : Bool := inRanges blankRanges c

/-- Drops blank characters from the end. -/
def stripEnd (cs : List Char) : List Char := (cs.reverse.dropWhile isBlankChar).reverse

/-- Drops blank characters from both ends. -/
def strip (cs : List Char) : List Char := stripEnd (cs.dropWhile isBlankChar)

/-- Whether a character is blank and no information separator. -/
def isWhiteSpace (c : Char) : Bool := isBlankChar c && !inRanges [(28, 31)] c

/-- Drops white space from both ends. -/
def trim (cs : List Char) : List Char :=
  ((cs.dropWhile isWhiteSpace).reverse.dropWhile isWhiteSpace).reverse

/-- Whether every character is blank; true of the empty text. -/
def isBlank (cs : List Char) : Bool := cs.all isBlankChar

example : strip " \u2003a b\u3000".toList = ['a', ' ', 'b'] := by decide
example : isBlank ['\u200b'] = false := by decide

end FuzzySearch.Text
