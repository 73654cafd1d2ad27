import FuzzySearch.Hit.Basic

/-!
# Scores of hits

The score of a hit is the product of the scores of its matches, each to the power of the weight of
its key times the norm of its text.
-/

namespace FuzzySearch

open ScoreNumber

variable {α : Type}

namespace TextMatch

/-- What stands for a perfect score of a weighted key, so that the other keys still count. -/
def perfectScore [ScoreNumber α] : α := ratio 1 (1 <<< 52 : Nat)

/-- The weight of a match; none if it has no key, or a key without weight. -/
def weight? [ScoreNumber α] (found : TextMatch α) : Option α :=
  match found.key with
  | some key => if isZero key.weight then none else some key.weight
  | none => none

/-- The factor of a match in the score of its hit. -/
def factor [Weighting α] (ignoreNorm : Bool) (found : TextMatch α) : Except SearchError α :=
  let norm := if ignoreNorm then one else found.norm
  match found.weight? with
  | some weight =>
    Weighting.power (if isZero found.score then perfectScore else found.score) (weight * norm)
  | none => Weighting.power found.score (one * norm)

end TextMatch

namespace Hit

/-- The product of the factors of some matches, starting from a number. -/
def product [Weighting α] (ignoreNorm : Bool) (start : α) :
    List (TextMatch α) → Except SearchError α
  | [] => .ok start
  | found :: rest => do
    let x ← found.factor ignoreNorm
    product ignoreNorm (start * x) rest

/-- A hit with its score. -/
def scored [Weighting α] (ignoreNorm : Bool) (hit : Hit α) : Except SearchError (Hit α) := do
  let score ← product ignoreNorm one hit.found
  return { hit with score := score }

/-- Hits in an order, those that are equal in it staying as they were. -/
def sorted (before : Hit α → Hit α → Bool) (hits : List (Hit α)) : List (Hit α) :=
  hits.mergeSort fun a b => !before b a

end Hit

end FuzzySearch
