import FuzzySearch.Arithmetic

/-!
# The score of a fuzzy match

A match with some errors at some position is scored by the share of the pattern that is in error,
plus the way from the expected position in units of the accepted distance.  With an accepted
distance of zero, every other position scores one.
-/

namespace FuzzySearch.Bitap

open ScoreNumber

variable {α : Type} [ScoreNumber α]

/-- How positions count: `distance` is the way that costs a full point. -/
structure Placement where
  /-- Where the pattern is expected. -/
  expected : Int
  /-- The way from there that costs a full point. -/
  distance : Int
  /-- Whether positions do not count at all. -/
  anywhere : Bool

/-- The score of a match of a pattern of `length` characters with `errors` errors at `current`. -/
def score (length : Nat) (place : Placement) (errors current : Int) : α :=
  let accuracy : α := ratio errors length
  if place.anywhere then accuracy
  else
    let way : Int := (place.expected - current).natAbs
    if place.distance = 0 then (if way = 0 then accuracy else one)
    else accuracy + ratio way place.distance

/-- The score of a match of a pattern, which must have a character. -/
def score? (pattern : List Char) (place : Placement) (errors current : Int) :
    Except SearchError α :=
  if pattern = [] then .error .divisionByZero
  else .ok (score pattern.length place errors current)

/-- The least score of a match that is not identity. -/
def floorScore : α := ratio 1 1000

end FuzzySearch.Bitap
