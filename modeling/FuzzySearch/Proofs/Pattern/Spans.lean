import FuzzySearch.Proofs.Bitap.Spans
import FuzzySearch.Proofs.Pattern.Threshold

/-!
# Patterns with and without spans

What is made of approximate searches finds the same whether it is asked for spans or not: a fuzzy
pattern, a term, a query of the extended syntax, and in the end each matcher of the standard
factories (`MatcherFactory.bare_compareValue`), which also fails for the same values.
-/

namespace FuzzySearch

open ScoreNumber

variable {α : Type}

/-- The same options, with matches asked for or not. -/
def MatchOptions.withMatches (options : MatchOptions α) (includeMatches : Bool) : MatchOptions α :=
  { options with includeMatches := includeMatches }

variable [ScoreNumber α] (options : MatchOptions α) (includeMatches : Bool)

/-! ### Patterns and terms -/

namespace FuzzyPattern

theorem bare_combine (results : List (Comparison α)) :
    (combine includeMatches results).bare = combine false (results.map Comparison.bare) := by
  have hmatched : (results.map Comparison.bare).filter (·.isMatch)
      = (results.filter (·.isMatch)).map Comparison.bare := List.filter_map
  simp only [combine, hmatched, Comparison.map_score_bare, List.isEmpty_map, List.length_map,
    Bool.false_eq_true, if_false]
  split_ifs <;> rfl

theorem map_bare_chunkResults (letters text : List Char) :
    (chunkResults ⟨letters, options.withMatches includeMatches⟩ text).map Comparison.bare
      = (chunkResults ⟨letters, options⟩ text).map Comparison.bare := by
  rw [chunkResults, chunkResults, List.map_map, List.map_map]
  apply List.map_congr_left
  intro chunk _
  have hcriteria : (options.withMatches includeMatches).criteria chunk.start
      = (options.criteria chunk.start).withSpans includeMatches := rfl
  rw [Function.comp_apply, Function.comp_apply, hcriteria]
  exact Bitap.bare_locate text chunk.letters _ includeMatches

theorem bare_matchLetters (letters text : List Char) :
    (matchLetters ⟨letters, options.withMatches includeMatches⟩ text).bare
      = (matchLetters ⟨letters, options⟩ text).bare := by
  have hfold : (options.withMatches includeMatches).caseSensitive = options.caseSensitive := rfl
  unfold matchLetters
  simp only [hfold]
  by_cases heq : letters = Text.fold options.caseSensitive text
  · rw [if_pos heq, if_pos heq]
    rfl
  · rw [if_neg heq, if_neg heq, bare_combine, bare_combine, map_bare_chunkResults]

end FuzzyPattern

theorem Term.bare_matchLetters (term : Term) (text : List Char) :
    (term.matchLetters (options.withMatches includeMatches) text).bare
      = (term.matchLetters options text).bare := by
  obtain ⟨kind, pattern⟩ := term
  cases kind with
  | fuzzy => exact FuzzyPattern.bare_matchLetters options includeMatches _ text
  | _ => rfl

/-! ### Queries -/

namespace TermQuery

theorem matchLetters_eq (q : TermQuery α) (text : List Char) :
    q.matchLetters text = answer q.options.includeMatches (q.groups.findSome? fun terms =>
      groupResults? q.options terms (Text.fold q.options.caseSensitive text)) := rfl

theorem bare_answer (found : Option (List (Comparison α))) :
    (answer includeMatches found).bare
      = answer false (found.map (List.map Comparison.bare)) := by
  cases found with
  | none => rfl
  | some results =>
    simp only [answer, Option.map_some, Comparison.map_score_bare, List.length_map,
      Bool.false_eq_true, if_false]
    rfl

theorem map_bare_groupResults? (terms : List Term) (text : List Char) :
    (groupResults? (options.withMatches includeMatches) terms text).map (List.map Comparison.bare)
      = (groupResults? options terms text).map (List.map Comparison.bare) := by
  have hbare := fun term : Term => term.bare_matchLetters options includeMatches text
  have hmatch := fun term : Term => (Comparison.bare_eq_iff.mp (hbare term)).1
  simp only [groupResults?, List.any_map, Function.comp_def, hmatch]
  split_ifs
  · rfl
  · rw [Option.map_some, Option.map_some, List.map_map, List.map_map]
    exact congrArg some (List.map_congr_left fun term _ => hbare term)

theorem bare_matchLetters (groups : List (List Term)) (text : List Char) :
    (matchLetters ⟨groups, options.withMatches includeMatches⟩ text).bare
      = (matchLetters ⟨groups, options⟩ text).bare := by
  have hfound : (groups.findSome? fun terms => groupResults? (options.withMatches includeMatches)
        terms (Text.fold options.caseSensitive text)).map (List.map Comparison.bare)
      = (groups.findSome? fun terms => groupResults? options terms
        (Text.fold options.caseSensitive text)).map (List.map Comparison.bare) := by
    simp only [List.map_findSome?, Function.comp_def, map_bare_groupResults?]
  rw [matchLetters_eq, matchLetters_eq]
  exact (bare_answer ..).trans ((congrArg _ hfound).trans (bare_answer ..).symm)

end TermQuery

/-! ### Values that are no texts -/

section Other

variable (v : Value)

/-- Without a text to look through there are no spans to ask for. -/
theorem Term.matchOther_withMatches (term : Term) :
    term.matchOther (options.withMatches includeMatches) v = term.matchOther options v := rfl

namespace TermQuery

theorem otherResults?_withMatches (terms : List Term) :
    otherResults? (options.withMatches includeMatches) v terms
      = otherResults? options v terms := by
  induction terms with
  | nil => rfl
  | cons term rest ih => rw [otherResults?, otherResults?, Term.matchOther_withMatches, ih]

theorem firstOther?_withMatches (groups : List (List Term)) :
    firstOther? (options.withMatches includeMatches) v groups = firstOther? options v groups := by
  induction groups with
  | nil => rfl
  | cons terms rest ih => rw [firstOther?, firstOther?, otherResults?_withMatches, ih]

theorem bare_matchOther (groups : List (List Term)) :
    (matchOther ⟨groups, options.withMatches includeMatches⟩ v).map Comparison.bare
      = (matchOther ⟨groups, options⟩ v).map Comparison.bare := by
  have hcase : (options.withMatches includeMatches).caseSensitive = options.caseSensitive := rfl
  unfold matchOther
  simp only [firstOther?_withMatches, hcase]
  cases v.foldFailure? options.caseSensitive with
  | some e => rfl
  | none =>
    cases firstOther? options v groups with
    | error e => rfl
    | ok found => exact congrArg Except.ok ((bare_answer ..).trans (bare_answer ..).symm)

end TermQuery

end Other

/-! ### Matchers -/

namespace Matcher

variable {v : Value} (hother : ∀ s, v ≠ .text s)

include hother

theorem compareValue_extended (query : TermQuery α) :
    (extended query).compareValue v = query.matchOther v := by
  cases v with
  | text s => exact absurd rfl (hother s)
  | _ => rfl

theorem compareValue_fuzzy (pattern : FuzzyPattern α) :
    (fuzzy pattern).compareValue v = pattern.matchOther v := by
  cases v with
  | text s => exact absurd rfl (hother s)
  | _ => rfl

end Matcher

namespace MatcherFactory

/-- **A matcher of the standard factories finds the same in a value whether it is asked for spans or
not**, and fails for the same values. -/
theorem bare_compareValue (pattern : String) (v : Value) :
    ((matcher standard pattern (options.withMatches includeMatches)).compareValue v).map
        Comparison.bare
      = ((matcher standard pattern options).compareValue v).map Comparison.bare := by
  rw [matcher_standard, matcher_standard]
  simp only [show (options.withMatches includeMatches).extended = options.extended from rfl]
  by_cases htext : ∃ s, v = .text s
  · obtain ⟨s, rfl⟩ := htext
    split_ifs
    · exact congrArg Except.ok (TermQuery.bare_matchLetters options includeMatches _ _)
    · exact congrArg Except.ok (FuzzyPattern.bare_matchLetters options includeMatches _ _)
  · rw [not_exists] at htext
    split_ifs
    · rw [Matcher.compareValue_extended htext, Matcher.compareValue_extended htext]
      exact TermQuery.bare_matchOther options includeMatches v _
    · rw [Matcher.compareValue_fuzzy htext, Matcher.compareValue_fuzzy htext]
      rfl

end MatcherFactory

end FuzzySearch
