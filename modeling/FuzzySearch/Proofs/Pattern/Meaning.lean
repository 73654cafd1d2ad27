import FuzzySearch.Proofs.Pattern.Threshold

/-!
# What terms say of texts

A term says something plain of a text (`Term.Holds`): that it is the pattern, has it in it, begins
or ends with it, or does not.  Only a fuzzy term leaves this to approximate matching.  A term
matches a text when it holds of it (`Term.isMatch_matchLetters_iff`), and a query that counts letter
case does when all terms of some group hold (`TermQuery.isMatch_iff_holds`).
-/

namespace FuzzySearch

/-! ### Occurrences -/

/-- A pattern has an occurrence when it stands somewhere in the text. -/
theorem Text.occurrencesFrom_ne_nil_iff {pattern : List Char} (hpattern : pattern ≠ [])
    (pos : Nat) (text : List Char) :
    occurrencesFrom pattern pos 0 text ≠ [] ↔ pattern <:+: text := by
  rw [← contains_iff]
  induction text generalizing pos with
  | nil =>
    refine iff_of_false (fun h => h (by rw [occurrencesFrom])) fun h => hpattern ?_
    exact List.isEmpty_iff.mp h
  | cons c rest ih =>
    rw [occurrencesFrom, contains, Bool.or_eq_true]
    split_ifs with hprefix
    · exact iff_of_true (List.cons_ne_nil _ _) (Or.inl hprefix)
    · rw [ih, or_iff_right hprefix]

variable {α : Type} [ScoreNumber α]

namespace Term

/-! ### Terms -/

/-- What a term says of a text. -/
def Holds (options : MatchOptions α) (term : Term) (text : List Char) : Prop :=
  match term.kind with
  | .equals => text = term.pattern
  | .includes => term.pattern <:+: text
  | .startsWith => term.pattern <+: text
  | .startsNotWith => ¬ term.pattern <+: text
  | .endsNotWith => ¬ term.pattern <:+ text
  | .endsWith => term.pattern <:+ text
  | .excludes => ¬ term.pattern <:+: text
  | .fuzzy =>
    ((FuzzyPattern.ofLetters term.pattern options).matchLetters text).isMatch = true

theorem isMatch_verdict_includes {pattern : List Char} (hpattern : pattern ≠ [])
    (text : List Char) :
    (!(occurrenceSpans pattern text).isEmpty) = true ↔ pattern <:+: text := by
  rw [← Text.occurrencesFrom_ne_nil_iff hpattern 0, occurrenceSpans, Text.occurrences,
    List.isEmpty_map, Bool.not_eq_true', ← Bool.not_eq_true, List.isEmpty_iff]

theorem not_eq_true_iff_of_iff {b : Bool} {p : Prop} (h : b = true ↔ p) : (!b) = true ↔ ¬p := by
  rw [Bool.not_eq_true', ← Bool.not_eq_true, h]

/-- **A term matches the texts that it holds of.** -/
theorem isMatch_matchLetters_iff (options : MatchOptions α) {term : Term}
    (hpattern : term.pattern ≠ []) (text : List Char) :
    (term.matchLetters options text).isMatch = true ↔ term.Holds options text := by
  obtain ⟨kind, pattern⟩ := term
  cases kind with
  | equals => exact decide_eq_true_iff
  | includes => exact isMatch_verdict_includes hpattern text
  | startsWith => exact List.isPrefixOf_iff_prefix
  | startsNotWith => exact not_eq_true_iff_of_iff List.isPrefixOf_iff_prefix
  | endsNotWith => exact not_eq_true_iff_of_iff List.isSuffixOf_iff_suffix
  | endsWith => exact List.isSuffixOf_iff_suffix
  | excludes => exact not_eq_true_iff_of_iff (Text.contains_iff pattern text)
  | fuzzy => exact Iff.rfl

end Term

/-! ### Queries -/

/-- **A query that counts letter case matches the texts that all terms of some group hold of.** -/
theorem TermQuery.isMatch_iff_holds {q : TermQuery α} (hcase : q.options.caseSensitive = true)
    (hterms : ∀ terms ∈ q.groups, terms ≠ [] ∧ ∀ term ∈ terms, term.pattern ≠ [])
    (text : List Char) :
    (q.matchLetters text).isMatch = true ↔
      ∃ terms ∈ q.groups, ∀ term ∈ terms, term.Holds q.options text := by
  rw [isMatch_matchLetters_iff, hcase, show Text.fold true text = text from rfl]
  refine exists_congr fun terms => and_congr_right fun hmem => ?_
  obtain ⟨hne, hpatterns⟩ := hterms terms hmem
  rw [and_iff_right hne]
  exact forall₂_congr fun term hterm => Term.isMatch_matchLetters_iff q.options
    (hpatterns term hterm) text

end FuzzySearch
