import FuzzySearch.Proofs.Bitap.Search

/-!
# Searches with and without spans

A search that is asked for spans marks the characters that it matches, and in the end looks for runs
of marks.  This does not change what it finds (`bare_locate`).  The rows of a search do not look at
the marks (`unmarked_scanRows`), so the same match is accepted with and without them.  When single
marks count, the marks never refuse it; and when they do not, a search keeps marks in any case.
-/

namespace FuzzySearch

/-- A comparison without its spans. -/
def Comparison.bare {α : Type} (result : Comparison α) : Comparison α := { result with spans := [] }

theorem Comparison.bare_eq_iff {α : Type} {result other : Comparison α} :
    result.bare = other.bare ↔ result.isMatch = other.isMatch ∧ result.score = other.score := by
  simp [bare]

theorem Comparison.map_score_bare {α : Type} (results : List (Comparison α)) :
    (results.map bare).map (·.score) = results.map (·.score) :=
  List.map_map

namespace Bitap

variable {α : Type}

/-- The same search, asked for spans or not. -/
def Criteria.withSpans (c : Criteria α) (includeSpans : Bool) : Criteria α :=
  { c with includeSpans := includeSpans }

/-- When single marks do not count, a search keeps marks whether it is asked for spans or not. -/
theorem needsMarks_withSpans {c : Criteria α} (hleast : 1 < c.minMatchLength)
    (includeSpans : Bool) : (c.withSpans includeSpans).needsMarks = c.needsMarks := by
  have hmarks : ∀ b, (decide (1 < c.minMatchLength) || b) = true := by
    intro b
    rw [decide_eq_true hleast, Bool.true_or]
  exact (hmarks includeSpans).trans (hmarks c.includeSpans).symm

/-- What a row hands on to the next, without the marks. -/
def Progress.unmarked (s : Progress α) : Progress α := { s with marks := #[] }

theorem best_of_unmarked {s s' : Progress α} (h : s.unmarked = s'.unmarked) :
    s.best = s'.best := by
  have hbest : s.unmarked.best = s'.unmarked.best := by rw [h]
  exact hbest

variable [ScoreNumber α]

/-! ### Rows without marks -/

theorem scan_of_marks (p : Problem) (errors : Nat) (last : Array Nat) (j start : Nat)
    (best : Best α) (row : Array Nat) (marks marks' : Array Bool) :
    (scan p errors last j start best row marks).1
        = (scan p errors last j start best row marks').1 ∧
      (scan p errors last j start best row marks).2.1
        = (scan p errors last j start best row marks').2.1 := by
  induction j generalizing start best row marks marks' with
  | zero => exact ⟨rfl, rfl⟩
  | succ j ih =>
    simp only [scan]
    split_ifs
    -- a scan ends at its start or with a match, and otherwise goes on
    all_goals first | exact ⟨rfl, rfl⟩ | exact ih ..

theorem unmarked_scanRow (p : Problem) (errors : Nat) {s s' : Progress α}
    (h : s.unmarked = s'.unmarked) :
    (scanRow p errors s).unmarked = (scanRow p errors s').unmarked := by
  obtain ⟨best, reach, row, marks⟩ := s
  obtain ⟨best', reach', row', marks'⟩ := s'
  simp only [Progress.unmarked, Progress.mk.injEq] at h
  obtain ⟨rfl, rfl, rfl, -⟩ := h
  simp only [scanRow, Progress.unmarked, Progress.mk.injEq, true_and, and_true]
  exact scan_of_marks p errors ..

theorem unmarked_scanRows (p : Problem) (remaining errors : Nat) {s s' : Progress α}
    (h : s.unmarked = s'.unmarked) :
    (scanRows p remaining errors s).unmarked = (scanRows p remaining errors s').unmarked := by
  induction remaining generalizing errors s s' with
  | zero => exact h
  | succ remaining ih =>
    have hrow := unmarked_scanRow p errors h
    have hbest : (scanRow p errors s).best = (scanRow p errors s').best := best_of_unmarked hrow
    rw [scanRows_succ, scanRows_succ, hbest]
    split_ifs
    · exact hrow
    · exact ih (errors + 1) hrow

/-! ### Searches -/

section

variable (text pattern : List Char) (c : Criteria α) (includeSpans : Bool)

theorem best_final :
    (final text pattern (c.withSpans includeSpans)).best = (final text pattern c).best := by
  have hinitial : (initial text pattern (c.withSpans includeSpans)).unmarked
      = (initial text pattern c).unmarked := rfl
  exact best_of_unmarked (unmarked_scanRows _ _ 0 hinitial)

variable {c} in
theorem final_withSpans (hleast : 1 < c.minMatchLength) :
    final text pattern (c.withSpans includeSpans) = final text pattern c := by
  have hmarks : exactMarks text pattern (c.withSpans includeSpans) = exactMarks text pattern c := by
    rw [exactMarks, needsMarks_withSpans hleast]
    rfl
  rw [final, initial, hmarks]
  rfl

/-- **Asking for spans does not change what a search finds.** -/
theorem bare_locate :
    (locate text pattern (c.withSpans includeSpans)).bare = (locate text pattern c).bare := by
  have hbest := best_final text pattern c includeSpans
  rw [Comparison.bare_eq_iff]
  constructor
  · rw [Bool.eq_iff_iff]
    rcases Int.lt_or_le 1 c.minMatchLength with hleast | hleast
    · rw [isMatch_locate_iff, isMatch_locate_iff, final_withSpans text pattern includeSpans hleast,
        needsMarks_withSpans hleast]
      rfl
    · rw [isMatch_locate text pattern hleast, ← hbest]
      exact isMatch_locate text pattern hleast
  · rw [locate_eq, locate_eq, hbest]

end

end Bitap

end FuzzySearch
