import FuzzySearch.Text.Blank

/-!
# Han characters

A pattern in Latin letters never matches Han characters.  `withTransliteration` therefore puts a
text with Han characters behind its transliteration, which the caller supplies; any other text is
left alone.
-/

namespace FuzzySearch.Text

/-- The Han characters, as ranges of code points. -/
def hanRanges : List (Nat × Nat) :=
  [(0x2e80, 0x2e99), (0x2e9b, 0x2ef3), (0x2f00, 0x2fd5), (0x3005, 0x3005), (0x3007, 0x3007),
    (0x3021, 0x3029), (0x3038, 0x303b), (0x3400, 0x4db5), (0x4e00, 0x9fd5), (0xf900, 0xfa6d),
    (0xfa70, 0xfad9)]

/-- Whether a character is a Han character. -/
def isHan (c : Char) : Bool := inRanges hanRanges c

/-- Whether a text has a Han character. -/
def containsHan (s : String) : Bool := s.toList.any isHan

/-- Puts a text with Han characters behind its transliteration. -/
def withTransliteration (transliterate : String → String) (s : String) : String :=
  if containsHan s then transliterate s ++ " " ++ s else s

example : containsHan "a中" = true := by decide
example : containsHan "kana: か" = false := by decide

end FuzzySearch.Text
