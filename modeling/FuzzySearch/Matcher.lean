import FuzzySearch.Pattern.OtherValue

/-!
# Matchers

A matcher is a pattern that is ready to be matched against texts.  Matchers are made by
factories: the first one that accepts a pattern makes its matcher, and when none does the pattern
is matched approximately.
-/

namespace FuzzySearch

/-- A pattern that is ready to be matched. -/
inductive Matcher (α : Type) where
  | fuzzy (pattern : FuzzyPattern α)
  | extended (query : TermQuery α)
  /-- A matcher of another kind, with a name. -/
  | custom (name : String) (run : String → Comparison α)

namespace Matcher

variable {α : Type} [ScoreNumber α]

/-- Compares a matcher with a text. -/
def compareText : Matcher α → String → Comparison α
  | fuzzy pattern, text => pattern.matchLetters text.toList
  | extended query, text => query.matchLetters text.toList
  | custom _ run, text => run text

/-- Compares a matcher with a value, which should be a text.  A matcher of another kind is handed
the empty text in the place of any other value. -/
def compareValue : Matcher α → Value → Except SearchError (Comparison α)
  | s, .text text => .ok (s.compareText text)
  | fuzzy pattern, v => pattern.matchOther v
  | extended query, v => query.matchOther v
  | custom _ run, _ => .ok (run "")

end Matcher

/-- A maker of matchers. -/
structure MatcherFactory (α : Type) where
  /-- Whether it understands the extended syntax. -/
  readsTerms : Bool
  /-- Whether it makes a matcher of a pattern. -/
  accepts : String → MatchOptions α → Bool
  /-- The matcher of a pattern that it accepts. -/
  make : String → MatchOptions α → Matcher α

namespace MatcherFactory

variable {α : Type} [ScoreNumber α]

/-- Makes matchers of extended queries, when options ask for them. -/
def extended : MatcherFactory α where
  readsTerms := true
  accepts _ options := options.extended
  make pattern options := .extended (TermQuery.ofLetters pattern.toList options)

/-- The factories in use when no others are given. -/
def standard : List (MatcherFactory α) := [extended]

/-- Whether some factory understands the extended syntax. -/
def anyReadsTerms (factories : List (MatcherFactory α)) : Bool :=
  factories.any (·.readsTerms)

/-- The matcher of a pattern. -/
def matcher (factories : List (MatcherFactory α)) (pattern : String)
    (options : MatchOptions α) : Matcher α :=
  match factories.find? (·.accepts pattern options) with
  | some factory => factory.make pattern options
  | none => .fuzzy (FuzzyPattern.ofLetters pattern.toList options)

end MatcherFactory

end FuzzySearch
