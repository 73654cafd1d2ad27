import FuzzySearch.Matcher
import FuzzySearch.Proofs.Bitap.Twin
import FuzzySearch.Proofs.Pattern.Anywhere

/-!
# Patterns under two thresholds

A fuzzy pattern goes on matching a text when the threshold grows, because each of its chunks does.
So does all that is made of fuzzy patterns: a term, a group of terms, a query of the extended
syntax, and in the end each matcher of the standard factories
(`MatcherFactory.isMatch_compareText_mono`).  The score of such a matcher is never negative
(`MatcherFactory.score_compareText_nonneg`).
-/

namespace FuzzySearch

open ScoreNumber

/-! ### Queries and matchers -/

namespace TermQuery

variable {α : Type} [ScoreNumber α]

theorem isSome_groupResults?_iff (options : MatchOptions α) (terms : List Term)
    (text : List Char) :
    (groupResults? options terms text).isSome = true ↔
      terms ≠ [] ∧ ∀ term ∈ terms, (term.matchLetters options text).isMatch = true := by
  simp [groupResults?]

/-- A text matches a query when it matches all terms of some group. -/
theorem isMatch_matchLetters_iff (q : TermQuery α) (text : List Char) :
    (q.matchLetters text).isMatch = true ↔
      ∃ terms ∈ q.groups, terms ≠ [] ∧ ∀ term ∈ terms,
        (term.matchLetters q.options (Text.fold q.options.caseSensitive text)).isMatch = true := by
  simp only [← isSome_groupResults?_iff, ← List.findSome?_isSome_iff, matchLetters, answer]
  split
  · rename_i hnone
    rw [hnone]
    rfl
  · rename_i results hsome
    rw [hsome]
    rfl

end TermQuery

/-- The standard factories make fuzzy patterns, or queries if the options ask for them. -/
theorem MatcherFactory.matcher_standard {α : Type} [ScoreNumber α] (pattern : String)
    (options : MatchOptions α) :
    matcher standard pattern options
      = if options.extended then .extended (TermQuery.ofLetters pattern.toList options)
        else .fuzzy (FuzzyPattern.ofLetters pattern.toList options) := by
  cases h : options.extended <;> simp [matcher, standard, extended, h]

/-! ### Matches under two thresholds -/

section

variable {options : MatchOptions Rat} {threshold threshold' : Rat} (hthreshold : 0 ≤ threshold)
  (hle : threshold ≤ threshold') (hone : threshold' ≤ 1)

include hthreshold hle hone

/-- A fuzzy pattern never loses a match under a greater threshold. -/
theorem FuzzyPattern.isMatch_matchLetters_mono {letters text : List Char}
    (h : (FuzzyPattern.matchLetters ⟨letters, { options with threshold := threshold }⟩
      text).isMatch = true) :
    (FuzzyPattern.matchLetters ⟨letters, { options with threshold := threshold' }⟩
      text).isMatch = true := by
  unfold FuzzyPattern.matchLetters at h ⊢
  -- a text that is the pattern matches under every threshold
  by_cases heq : letters = Text.fold options.caseSensitive text
  · simp only [if_pos heq]
  · simp only [if_neg heq, isMatch_combine, chunkResults, List.mem_map,
      exists_exists_and_eq_and] at h ⊢
    obtain ⟨chunk, hchunk, hmatch⟩ := h
    refine ⟨chunk, hchunk, ?_⟩
    exact @Bitap.isMatch_locate_mono _ chunk.letters (options.criteria chunk.start) threshold
      threshold' (letters_ne_nil_of_mem_chunks hchunk) (Int.natCast_nonneg options.distance)
      hthreshold hle hone hmatch

/-- A term never loses a match: the terms that are not fuzzy do not look at the threshold. -/
theorem Term.isMatch_matchLetters_mono {term : Term} {text : List Char}
    (h : (term.matchLetters { options with threshold := threshold } text).isMatch = true) :
    (term.matchLetters { options with threshold := threshold' } text).isMatch = true := by
  obtain ⟨kind, pattern⟩ := term
  cases kind with
  | fuzzy => exact FuzzyPattern.isMatch_matchLetters_mono hthreshold hle hone h
  | _ => exact h

/-- A query of the extended syntax never loses a match, although another group may give it. -/
theorem TermQuery.isMatch_matchLetters_mono {groups : List (List Term)} {text : List Char}
    (h : (TermQuery.matchLetters ⟨groups, { options with threshold := threshold }⟩
      text).isMatch = true) :
    (TermQuery.matchLetters ⟨groups, { options with threshold := threshold' }⟩
      text).isMatch = true := by
  rw [isMatch_matchLetters_iff] at h ⊢
  obtain ⟨terms, hterms, hne, hall⟩ := h
  exact ⟨terms, hterms, hne, fun term hterm =>
    Term.isMatch_matchLetters_mono hthreshold hle hone (hall term hterm)⟩

/-- **A matcher of the standard factories never loses a match under a greater threshold.** -/
theorem MatcherFactory.isMatch_compareText_mono {pattern text : String}
    (h : ((matcher standard pattern { options with threshold := threshold }).compareText
      text).isMatch = true) :
    ((matcher standard pattern { options with threshold := threshold' }).compareText
      text).isMatch = true := by
  rw [matcher_standard] at h ⊢
  split_ifs at h ⊢
  · exact TermQuery.isMatch_matchLetters_mono hthreshold hle hone h
  · exact FuzzyPattern.isMatch_matchLetters_mono hthreshold hle hone h

end

/-! ### Scores -/

theorem mean_nonneg {scores : List Rat} (h : ∀ score ∈ scores, 0 ≤ score) (count : Nat) :
    0 ≤ mean (sum scores) count := by
  rw [sum_rat, mean_rat]
  exact div_nonneg (List.sum_nonneg h) (Nat.cast_nonneg count)

theorem failed_score_nonneg : 0 ≤ (Comparison.failed : Comparison Rat).score := by
  rw [Comparison.failed, one_rat]
  exact zero_le_one

/-- The score of a search is at least its floor. -/
theorem Bitap.score_locate_nonneg (text pattern : List Char) (c : Criteria Rat) :
    0 ≤ (locate text pattern c).score := by
  rw [locate_eq, greater_rat]
  refine le_max_of_le_left ?_
  rw [floorScore_rat]
  norm_num

theorem FuzzyPattern.score_matchLetters_nonneg (p : FuzzyPattern Rat) (text : List Char) :
    0 ≤ (p.matchLetters text).score := by
  simp only [matchLetters, combine]
  split_ifs
  iterate 2 exact zero_rat.ge
  · exact failed_score_nonneg
  all_goals
    refine mean_nonneg (fun score hscore => ?_) _
    obtain ⟨result, hresult, rfl⟩ := List.mem_map.mp hscore
    obtain ⟨chunk, -, rfl⟩ := List.mem_map.mp hresult
    exact Bitap.score_locate_nonneg _ _ _

theorem Term.score_verdict_nonneg (holds : Bool) (spans : List Span) :
    0 ≤ (verdict holds spans : Comparison Rat).score := by
  cases holds
  · exact failed_score_nonneg
  · exact zero_rat.ge

theorem Term.score_matchLetters_nonneg (options : MatchOptions Rat) (term : Term)
    (text : List Char) : 0 ≤ (term.matchLetters options text).score := by
  obtain ⟨kind, pattern⟩ := term
  cases kind with
  | fuzzy => exact FuzzyPattern.score_matchLetters_nonneg _ _
  | _ => exact score_verdict_nonneg _ _

theorem TermQuery.score_matchLetters_nonneg (q : TermQuery Rat) (text : List Char) :
    0 ≤ (q.matchLetters text).score := by
  simp only [matchLetters, answer]
  split
  · exact failed_score_nonneg
  · rename_i results hresults
    refine mean_nonneg (fun score hscore => ?_) _
    obtain ⟨result, hresult, rfl⟩ := List.mem_map.mp hscore
    obtain ⟨terms, -, hterms⟩ := List.exists_of_findSome?_eq_some hresults
    simp only [groupResults?] at hterms
    split_ifs at hterms
    obtain rfl := Option.some.inj hterms
    obtain ⟨term, -, rfl⟩ := List.mem_map.mp hresult
    exact Term.score_matchLetters_nonneg _ _ _

/-- **The score of a matcher of the standard factories is not negative.** -/
theorem MatcherFactory.score_compareText_nonneg (options : MatchOptions Rat)
    (pattern text : String) :
    0 ≤ ((matcher standard pattern options).compareText text).score := by
  rw [matcher_standard]
  split_ifs
  · exact TermQuery.score_matchLetters_nonneg _ _
  · exact FuzzyPattern.score_matchLetters_nonneg _ _

end FuzzySearch
