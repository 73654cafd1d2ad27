import FuzzySearch.Bitap.Locate

/-!
# Options of matching

How a pattern is compared with a text: letter case, where a match is expected and how far from
there it may be, and what is reported.
-/

namespace FuzzySearch

/-- How a pattern is compared with a text. -/
structure MatchOptions (α : Type) where
  /-- Whether letter case counts. -/
  caseSensitive : Bool
  /-- Whether the matched spans are reported. -/
  includeMatches : Bool
  /-- Whether the whole text is scanned. -/
  findAllMatches : Bool
  /-- The least length of a matched run. -/
  minMatchLength : Nat
  /-- Where the pattern is expected. -/
  location : Nat
  /-- The greatest score that is accepted: zero asks for a perfect match, one accepts anything. -/
  threshold : α
  /-- The way from the expected position that costs a full point. -/
  distance : Nat
  /-- Whether positions do not count. -/
  ignoreLocation : Bool
  /-- Whether patterns are read in the extended syntax. -/
  extended : Bool

namespace MatchOptions

variable {α : Type}

/-- The options that hold when nothing is asked for. -/
def standard [ScoreNumber α] : MatchOptions α where
  caseSensitive := false
  includeMatches := false
  findAllMatches := false
  minMatchLength := 1
  location := 0
  threshold := ScoreNumber.ratio 3 5
  distance := 100
  ignoreLocation := false
  extended := false

/-- What counts as a match of a part of a pattern that begins `offset` characters after the
beginning of the pattern. -/
def criteria (o : MatchOptions α) (offset : Nat) : Bitap.Criteria α where
  location := o.location + offset
  distance := o.distance
  threshold := o.threshold
  findAll := o.findAllMatches
  minMatchLength := o.minMatchLength
  includeSpans := o.includeMatches
  ignoreLocation := o.ignoreLocation

end MatchOptions

end FuzzySearch
