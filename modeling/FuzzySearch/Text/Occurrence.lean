/-!
# Occurrences of a pattern in a text

`occurrences pattern text` are the starts of the left-to-right, non-overlapping occurrences of a
pattern, and `contains` decides whether there is one at all.
-/

namespace FuzzySearch.Text

/-- The starts of the left-to-right, non-overlapping occurrences of a pattern.  `pos` is the
position of the rest of the text, and no occurrence starts in its first `skip` characters. -/
def occurrencesFrom (pattern : List Char) : (pos skip : Nat) → List Char → List Nat
  | _, _, [] => []
  | pos, skip + 1, _ :: rest => occurrencesFrom pattern (pos + 1) skip rest
  | pos, 0, c :: rest =>
    if pattern.isPrefixOf (c :: rest) then
      pos :: occurrencesFrom pattern (pos + 1) (pattern.length - 1) rest
    else occurrencesFrom pattern (pos + 1) 0 rest

/-- The starts of the left-to-right, non-overlapping occurrences of a nonempty pattern that do not
begin before `start`. -/
def occurrences (pattern text : List Char) (start : Nat) : List Nat :=
  occurrencesFrom pattern 0 start text

/-- Whether the pattern stands somewhere in the text; the empty pattern always does. -/
def contains (pattern : List Char) : List Char → Bool
  | [] => pattern.isEmpty
  | c :: rest => pattern.isPrefixOf (c :: rest) || contains pattern rest

/-- The position of the first `c` of the text that is at least `low` and below `high`. -/
def firstIn? (c : Char) (text : List Char) (low high : Nat) : Option Nat :=
  (((text.take high).drop low).idxOf? c).map (low + ·)

/-- The position of the last `c` of the text that is at least `low` and below `high`. -/
def lastIn? (c : Char) (text : List Char) (low high : Nat) : Option Nat :=
  let part := (text.take high).drop low
  (part.reverse.idxOf? c).map fun back => low + (part.length - 1 - back)

/-- `contains` decides whether the text is the pattern with something before and after it. -/
theorem contains_iff (pattern text : List Char) :
    contains pattern text = true ↔ pattern <:+: text := by
  induction text with
  | nil => simp [contains]
  | cons c rest ih =>
    simp only [contains, Bool.or_eq_true, List.isPrefixOf_iff_prefix, ih, List.infix_cons_iff]

example : occurrences ['a', 'a'] ['a', 'a', 'a', 'a', 'a'] 0 = [0, 2] := by decide
example : occurrences ['a', 'a'] ['a', 'a', 'a', 'a', 'a'] 1 = [1, 3] := by decide
example : lastIn? ' ' "a b c d".toList 0 5 = some 3 := by decide

end FuzzySearch.Text
