import FuzzySearch.Arithmetic

/-!
# Spans and comparisons

A `Span` is a range of positions with both ends included.  A `Comparison` says whether a pattern
matches a text, how well, and where.
-/

namespace FuzzySearch

/-- The positions from `first` to `last`, both included; none if `last` is less than `first`. -/
structure Span where
  /-- First position. -/
  first : Int
  /-- Last position. -/
  last : Int
  deriving DecidableEq, Repr, Inhabited

/-- Whether a span covers a position. -/
def Span.covers (s : Span) (i : Int) : Prop := s.first ≤ i ∧ i ≤ s.last

instance (s : Span) (i : Int) : Decidable (s.covers i) :=
  inferInstanceAs (Decidable (_ ∧ _))

/-- The outcome of comparing one pattern with one text. -/
structure Comparison (α : Type) where
  /-- Whether the pattern matches. -/
  isMatch : Bool
  /-- Zero for identity, one for no likeness. -/
  score : α
  /-- Where the pattern matches, when that was asked for. -/
  spans : List Span

/-- The outcome for a pattern that cannot match. -/
def Comparison.failed {α : Type} [ScoreNumber α] : Comparison α :=
  ⟨false, ScoreNumber.one, []⟩

end FuzzySearch
