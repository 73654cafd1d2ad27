import FuzzySearch.Proofs.Bitap.Search

/-!
# The bounds of spans

The spans of a search lie inside its text (`inside_of_mem_spans_locate`): runs lie inside their
marks, and a search keeps one mark for each character of the text (`size_marks_final`).
-/

namespace FuzzySearch.Bitap

variable {α : Type} [ScoreNumber α]

theorem size_marks_scanRows (p : Problem) (remaining errors : Nat) (s : Progress α) :
    (scanRows p remaining errors s).marks.size = s.marks.size := by
  obtain ⟨-, -, hsize⟩ := @scanRows_induction α _ p
    (fun _ s' => s'.marks.size = s.marks.size) (errors + remaining)
    (fun errors s' _ hs => (size_scanRow_marks p errors s').trans hs) remaining errors s le_rfl rfl
  exact hsize

/-- A search that keeps marks has one for each character of the text. -/
theorem size_marks_final (text pattern : List Char) {c : Criteria α} (hc : c.needsMarks = true) :
    (final text pattern c).marks.size = text.length := by
  have hinitial := (marksSound_exactMarks text pattern hc).size_eq
  rw [size_masks_problem] at hinitial
  exact (size_marks_scanRows ..).trans hinitial

/-- **The spans of a search lie inside its text.** -/
theorem inside_of_mem_spans_locate {text pattern : List Char} {c : Criteria α} {s : Span}
    (h : s ∈ (locate text pattern c).spans) : s.Inside text.length := by
  rw [locate_eq] at h
  simp only [foundSpans] at h
  split_ifs at h with hinclude hmarks
  · have hinside := inside_of_mem_runs h
    rwa [Array.length_toList, size_marks_final text pattern hmarks] at hinside
  all_goals exact absurd h List.not_mem_nil

end FuzzySearch.Bitap
