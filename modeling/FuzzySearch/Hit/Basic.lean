import FuzzySearch.Key
import FuzzySearch.Span

/-!
# Hits

A hit is a record that matches a query, with every match of one of its texts.  Hits are ordered by
score, and hits of equal score by the position of their record.
-/

namespace FuzzySearch

/-- A match of one text of a record. -/
structure TextMatch (α : Type) where
  /-- The score of the match. -/
  score : α
  /-- The text that matched. -/
  text : String
  /-- The norm of the text. -/
  norm : α
  /-- Where it matched. -/
  spans : List Span
  /-- The key of the field, if there is one. -/
  key : Option (Key α)
  /-- The position of the text in the list it comes from, if it comes from a list. -/
  nested : Option Int

/-- A record that matches a query. -/
structure Hit (α : Type) where
  /-- The position of the record. -/
  position : Int
  /-- The matches of its texts. -/
  found : List (TextMatch α)
  /-- The score of the record. -/
  score : α

namespace Hit

variable {α : Type} [ScoreNumber α]

/-- Whether a hit comes strictly before another: by a lower score, or by an earlier position. -/
def before (a b : Hit α) : Bool :=
  if a.score ≤ b.score ∧ b.score ≤ a.score then a.position < b.position else a.score < b.score

end Hit

end FuzzySearch
