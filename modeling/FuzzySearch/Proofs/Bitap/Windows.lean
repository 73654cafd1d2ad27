import FuzzySearch.Proofs.Bitap.Access
import Mathlib.Order.Bounds.Basic

/-!
# The windows of a search

Each row of a search first finds how far from the expected position it has to look.  In exact
arithmetic the search for that reach is exact: it finds the greatest way, up to the reach of the row
before, whose score passes the threshold (`isReach_scanRow`).  So windows only shrink, and no row
looks at a place that the row before did not have.

* `Scanned`: the rows that a run scans, each with the state before it.
* `exists_scanned_final`: the last of them leaves the outcome of the run.
* `search_windows`: the windows of a search are exact and shrink, and the search stays inside its
  arrays.
-/

namespace FuzzySearch.Bitap

open ScoreNumber

/-! ### Halving -/

/-- When every distance is refused, halving ends where it began. -/
theorem bisect_of_refused {accepts : Nat → Bool} (h : ∀ d, accepts d = false) (low high : Nat) :
    bisect accepts low high = low := by
  fun_induction bisect accepts low high with
  | case1 low high hlt middle hacc ih =>
    rw [h] at hacc
    exact Bool.noConfusion hacc
  | case2 low high hlt middle hacc ih => exact ih
  | case3 low high hlt => rfl

theorem reach_of_refused {accepts : Nat → Bool} (h : ∀ d, accepts d = false) (limit : Nat) :
    reach accepts limit = 0 := by
  rw [reach, h, if_neg Bool.false_ne_true, bisect_of_refused h]

/-- **Halving finds the greatest accepted distance**, if acceptance stops once and for all, and zero
if no distance is accepted. -/
theorem reach_spec {accepts : Nat → Bool}
    (hanti : ∀ a b, a ≤ b → accepts b = true → accepts a = true) (limit : Nat) :
    IsGreatest {d | d ≤ limit ∧ accepts d = true} (reach accepts limit) ∨
      (∀ d, d ≤ limit → ¬ accepts d = true) ∧ reach accepts limit = 0 := by
  by_cases hzero : accepts 0 = true
  · have hle := reach_le accepts limit
    refine .inl ⟨⟨hle, (le_reach_iff hzero hanti hle).mp le_rfl⟩, ?_⟩
    rintro d ⟨hd, hacc⟩
    exact (le_reach_iff hzero hanti hd).mpr hacc
  -- what is refused at zero is refused everywhere
  · have hnone : ∀ d, ¬ accepts d = true := fun d hacc => hzero (hanti 0 d (Nat.zero_le d) hacc)
    exact .inr ⟨fun d _ => hnone d, reach_of_refused (fun d => Bool.eq_false_iff.mpr (hnone d)) _⟩

/-! ### The rows of a run -/

section rows

variable {α : Type} [ScoreNumber α]

/-- The rows that a run scans: row `errors` is scanned in a state. -/
inductive Scanned (p : Problem) (first : Progress α) : Nat → Progress α → Prop
  | first (h : 0 < p.length) : Scanned p first 0 first
  | next {errors : Nat} {s : Progress α} (h : Scanned p first errors s)
      (hlength : errors + 1 < p.length)
      (hgoes : ¬ (scanRow p errors s).best.threshold < (p.score (errors + 1) p.expected : α)) :
      Scanned p first (errors + 1) (scanRow p errors s)

variable {p : Problem} {first : Progress α}

theorem Scanned.lt_length {errors : Nat} {s : Progress α} (h : Scanned p first errors s) :
    errors < p.length := by
  cases h with
  | first h => exact h
  | next _ hlength _ => exact hlength

/-- From a scanned row on, a run leaves what the last row of it leaves. -/
theorem Scanned.exists_last {remaining errors : Nat} {s : Progress α}
    (h : Scanned p first errors s) (hremaining : errors + (remaining + 1) = p.length) :
    ∃ last t, Scanned p first last t ∧
      scanRows p (remaining + 1) errors s = scanRow p last t := by
  induction remaining generalizing errors s with
  | zero =>
    refine ⟨errors, s, h, ?_⟩
    rw [scanRows_succ, scanRows, ite_self]
  | succ remaining ih =>
    rw [scanRows_succ]
    split_ifs with hstop
    · exact ⟨errors, s, h, rfl⟩
    · exact ih (h.next (by omega) hstop) (by omega)

/-- The last row that a search scans leaves its outcome. -/
theorem exists_scanned_final (text : List Char) {pattern : List Char} (c : Criteria α)
    (hpattern : pattern ≠ []) :
    ∃ errors s, Scanned (problem text pattern c) (initial text pattern c) errors s ∧
      final text pattern c = scanRow (problem text pattern c) errors s := by
  obtain ⟨remaining, hlength⟩ := Nat.exists_eq_succ_of_ne_zero
    (show (problem text pattern c).length ≠ 0 from mt List.length_eq_zero_iff.mp hpattern)
  rw [final, hlength]
  exact (Scanned.first (by omega)).exists_last (by omega)

end rows

/-! ### Exact windows -/

/-- The reach that row `errors` should find in a state: the greatest way, up to the reach of the row
before, whose score passes the threshold, or zero if there is none. -/
def IsReach (p : Problem) (errors : Nat) (s : Progress Rat) (reached : Nat) : Prop :=
  IsGreatest
      {d | d ≤ s.reach ∧ (p.score errors (p.expected + d) : Rat) ≤ s.best.threshold} reached ∨
    (∀ d, d ≤ s.reach → ¬ (p.score errors (p.expected + d) : Rat) ≤ s.best.threshold) ∧
      reached = 0

/-- **A row finds its reach.** -/
theorem isReach_scanRow {p : Problem} (hp : p.Proper) {errors : Nat} (herrors : errors ≤ p.length)
    (s : Progress Rat) : IsReach p errors s (scanRow p errors s).reach := by
  have hanti : ∀ a b, a ≤ b →
      decide ((p.score errors (p.expected + b) : Rat) ≤ s.best.threshold) = true →
      decide ((p.score errors (p.expected + a) : Rat) ≤ s.best.threshold) = true := by
    intro a b hab hb
    refine decide_eq_true (le_trans (score_mono hp le_rfl herrors ?_) (of_decide_eq_true hb))
    rwa [way_add, way_add]
  have hspec := reach_spec hanti s.reach
  simp only [decide_eq_true_eq] at hspec
  rw [scanRow_reach]
  exact hspec

/-- A row never reaches further than the row before. -/
theorem scanRow_reach_le {α : Type} [ScoreNumber α] (p : Problem) (errors : Nat)
    (s : Progress α) : (scanRow p errors s).reach ≤ s.reach := by
  rw [scanRow_reach]
  exact reach_le _ _

/-- **The windows of a search are exact and shrink, and its accesses stay inside them.**  The result
of a search is the answer of the last row that it scans, also when each access to an array is
checked.  Every row that is scanned finds its reach, which is at most that of the row before, and
its window ends no later than that of the row before. -/
theorem search_windows (text : List Char) {pattern : List Char} {c : Criteria Rat}
    (hpattern : pattern ≠ []) (hword : pattern.length ≤ wordSize) (hdistance : 0 ≤ c.distance) :
    (∃ errors s, Scanned (problem text pattern c) (initial text pattern c) errors s ∧
      search text pattern c = .ok ((scanRow (problem text pattern c) errors s).answer c) ∧
      Checked.locate text pattern c
        = some ((scanRow (problem text pattern c) errors s).answer c)) ∧
    ∀ errors s, Scanned (problem text pattern c) (initial text pattern c) errors s →
      IsReach (problem text pattern c) errors s (scanRow (problem text pattern c) errors s).reach ∧
        (scanRow (problem text pattern c) errors s).reach ≤ s.reach ∧
        finish (problem text pattern c) (scanRow (problem text pattern c) errors s).reach
          ≤ finish (problem text pattern c) s.reach := by
  constructor
  · obtain ⟨errors, s, hs, hfinal⟩ := exists_scanned_final text c hpattern
    refine ⟨errors, s, hs, ?_, ?_⟩
    · rw [search_eq_ok text c hpattern hword, locate_eq_answer, hfinal]
    · rw [checked_locate, locate_eq_answer, hfinal]
  · intro errors s hs
    have hle := scanRow_reach_le (problem text pattern c) errors s
    have hreach := isReach_scanRow (problem_proper text hpattern hdistance) hs.lt_length.le s
    exact ⟨hreach, hle, finish_mono _ hle⟩

/-- In `zabcd` the exact occurrence of `abcd` leaves a window of one step. -/
theorem search_windows_near_occurrence :
    let c : Criteria Rat := ⟨0, 100, 3 / 5, false, 1, false, false⟩
    let s := initial "zabcd".toList "abcd".toList c
    (∃ result, search "zabcd".toList "abcd".toList c = .ok result ∧
      Checked.locate "zabcd".toList "abcd".toList c = some result) ∧
    (scanRow (problem "zabcd".toList "abcd".toList c) 0 s).reach = 1 := by
  intro c s
  obtain ⟨⟨_, _, _, hsearch, hchecked⟩, hwindows⟩ :=
    @search_windows "zabcd".toList "abcd".toList c (by decide) (by decide) (by decide)
  refine ⟨⟨_, hsearch, hchecked⟩, ?_⟩
  have hone : ((problem "zabcd".toList "abcd".toList c).score 0 1 : Rat) ≤ s.best.threshold := by
    decide +kernel
  have htwo : ¬ ((problem "zabcd".toList "abcd".toList c).score 0 2 : Rat) ≤ s.best.threshold := by
    decide +kernel
  have hproper := @problem_proper Rat "zabcd".toList "abcd".toList c (by decide) (by decide)
  rcases (hwindows 0 s (.first (by decide))).1 with hgreatest | ⟨hnone, -⟩
  · obtain ⟨⟨-, hpasses⟩, hupper⟩ := hgreatest
    refine le_antisymm (Nat.le_of_lt_succ (lt_of_not_ge fun hge => htwo ?_))
      (hupper ⟨by decide, hone⟩)
    -- a way of two steps or more scores no better than one of two
    refine le_trans (score_mono hproper le_rfl (Nat.zero_le _) ?_) hpasses
    rwa [way_add, show (2 : Nat) = (problem "zabcd".toList "abcd".toList c).expected + 2 from rfl,
      way_add]
  · exact absurd hone (hnone 1 (by decide))

end FuzzySearch.Bitap
