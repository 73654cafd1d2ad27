import FuzzySearch.Text.Occurrence
import Mathlib.Order.Bounds.Basic

/-!
# The search for occurrences

A pattern is looked for from left to right: the first occurrence is found, the search goes on behind
it, and it ends when there is no further one.  `Scan` describes this as a finite run.  The positions
that a run finds are occurrences that do not overlap, and every occurrence overlaps one of them
(`Scan.exists_overlap`).  A pattern with letters has the run that `occurrences` follows
(`scan_iff`); for the empty pattern, which is found again and again at the same position,
there is none (`exists_scan_iff`).
-/

namespace FuzzySearch.Text

/-- A pattern stands in a text at a position.  The empty pattern also stands at the end. -/
def OccursAt (pattern text : List Char) (i : Nat) : Prop :=
  i ≤ text.length ∧ pattern <+: text.drop i

/-- A run of the search from a position on, and the positions that it finds. -/
inductive Scan (pattern text : List Char) : (start : Nat) → List Nat → Prop
  | ended {start : Nat} : (∀ i, start ≤ i → ¬ OccursAt pattern text i) → Scan pattern text start []
  | found {start i : Nat} {starts : List Nat} :
      IsLeast {j | start ≤ j ∧ OccursAt pattern text j} i →
      Scan pattern text (i + pattern.length) starts → Scan pattern text start (i :: starts)

variable {pattern text : List Char} {start : Nat} {starts : List Nat}

theorem occursAt_iff (hpattern : pattern ≠ []) {i : Nat} :
    OccursAt pattern text i ↔ pattern <+: text.drop i := by
  refine and_iff_right_of_imp ?_
  intro hprefix
  by_contra hbehind
  rw [List.drop_of_length_le (by omega), List.prefix_nil] at hprefix
  exact hpattern hprefix

/-! ### What a run finds -/

namespace Scan

theorem of_mem (h : Scan pattern text start starts) {i : Nat} (hi : i ∈ starts) :
    start ≤ i ∧ OccursAt pattern text i := by
  induction h with
  | ended _ => simp at hi
  | found hleast _ ih =>
    rcases List.mem_cons.mp hi with rfl | hi
    · exact hleast.1
    · obtain ⟨hle, hoccurs⟩ := ih hi
      have := hleast.1.1
      exact ⟨by omega, hoccurs⟩

/-- An occurrence that is found begins behind the one before it. -/
theorem pairwise (h : Scan pattern text start starts) :
    starts.Pairwise fun i j => i + pattern.length ≤ j := by
  induction h with
  | ended _ => exact .nil
  | found _ hrest ih => exact .cons (fun j hj => (hrest.of_mem hj).1) ih

/-- **Every occurrence overlaps one that is found.** -/
theorem exists_overlap (h : Scan pattern text start starts) {j : Nat} (hj : start ≤ j)
    (hoccurs : OccursAt pattern text j) :
    ∃ i ∈ starts, i < j + pattern.length ∧ j < i + pattern.length := by
  induction h with
  | ended hnone => exact absurd hoccurs (hnone j hj)
  | @found start i starts hleast _ ih =>
    have hle : i ≤ j := hleast.2 ⟨hj, hoccurs⟩
    by_cases hbehind : i + pattern.length ≤ j
    · obtain ⟨k, hk, hoverlap⟩ := ih hbehind
      exact ⟨k, List.mem_cons_of_mem i hk, hoverlap⟩
    · exact ⟨i, List.mem_cons_self .., by omega, by omega⟩

/-- Positions at which the pattern does not stand are passed over. -/
theorem of_succ (h : Scan pattern text (start + 1) starts) (hnot : ¬ OccursAt pattern text start) :
    Scan pattern text start starts := by
  have hlater : ∀ i, start ≤ i → OccursAt pattern text i → start + 1 ≤ i := by
    intro i hle hoccurs
    rcases Nat.lt_or_eq_of_le hle with hlt | rfl
    · exact hlt
    · exact absurd hoccurs hnot
  cases h with
  | ended hnone => exact .ended fun i hle hoccurs => hnone i (hlater i hle hoccurs) hoccurs
  | found hleast hrest =>
    refine .found ⟨⟨Nat.le_of_succ_le hleast.1.1, hleast.1.2⟩, ?_⟩ hrest
    rintro i ⟨hle, hoccurs⟩
    exact hleast.2 ⟨hlater i hle hoccurs, hoccurs⟩

/-- The positions that are found are determined by the pattern and the text. -/
theorem unique {others : List Nat} (h : Scan pattern text start starts)
    (h' : Scan pattern text start others) : starts = others := by
  induction h generalizing others with
  | ended hnone =>
    cases h' with
    | ended _ => rfl
    | found hleast _ => exact absurd hleast.1.2 (hnone _ hleast.1.1)
  | found hleast _ ih =>
    cases h' with
    | ended hnone => exact absurd hleast.1.2 (hnone _ hleast.1.1)
    | found hleast' hrest =>
      obtain rfl := hleast.unique hleast'
      rw [ih hrest]

end Scan

/-! ### Which runs there are -/

/-- What is found in the rest of a text from a position on. -/
theorem scan_occurrencesFrom (hpattern : pattern ≠ []) {pos skip : Nat} {rest : List Char}
    (hrest : text.drop pos = rest) :
    Scan pattern text (pos + skip) (occurrencesFrom pattern pos skip rest) := by
  induction rest generalizing pos skip with
  | nil =>
    apply Scan.ended
    intro i hle hoccurs
    rw [occursAt_iff hpattern, show i = pos + (i - pos) by omega, ← List.drop_drop, hrest,
      List.drop_nil, List.prefix_nil] at hoccurs
    exact hpattern hoccurs
  | cons c rest ih =>
    have hnext : text.drop (pos + 1) = rest := by
      rw [← List.drop_drop, hrest, List.drop_one, List.tail_cons]
    cases skip with
    | succ skip =>
      rw [occurrencesFrom, show pos + (skip + 1) = pos + 1 + skip by omega]
      exact ih hnext
    | zero =>
      have hhere : OccursAt pattern text pos ↔ pattern.isPrefixOf (c :: rest) = true := by
        rw [occursAt_iff hpattern, hrest, List.isPrefixOf_iff_prefix]
      rw [occurrencesFrom]
      split_ifs with hprefix
      · refine Scan.found ⟨⟨le_rfl, hhere.mpr hprefix⟩, fun i hi => hi.1⟩ ?_
        have hlength := List.length_pos_iff.mpr hpattern
        have hbehind := @ih (pos + 1) (pattern.length - 1) hnext
        rwa [show pos + 1 + (pattern.length - 1) = pos + pattern.length by omega] at hbehind
      · have hpassed : Scan pattern text (pos + 1) (occurrencesFrom pattern (pos + 1) 0 rest) :=
          @ih (pos + 1) 0 hnext
        exact hpassed.of_succ fun hoccurs => hprefix (hhere.mp hoccurs)

/-- **The search for a pattern with letters ends**, and what it finds are its occurrences. -/
theorem scan_iff (hpattern : pattern ≠ []) :
    Scan pattern text 0 starts ↔ starts = occurrences pattern text 0 := by
  have hscan : Scan pattern text 0 (occurrences pattern text 0) :=
    @scan_occurrencesFrom pattern text hpattern 0 0 text rfl
  constructor
  · intro h
    exact h.unique hscan
  · rintro rfl
    exact hscan

/-- The search for the empty pattern does not get on. -/
theorem not_scan_nil (hstart : start ≤ text.length) : ¬ Scan [] text start starts := by
  intro h
  induction h with
  | ended hnone => exact hnone _ le_rfl ⟨hstart, List.nil_prefix⟩
  | found hleast _ ih =>
    -- the search would go on from where it stands
    exact ih hleast.1.2.1

/-- **The search for a pattern ends exactly if the pattern is not empty.** -/
theorem exists_scan_iff (pattern text : List Char) :
    (∃ starts, Scan pattern text 0 starts) ↔ pattern ≠ [] := by
  constructor
  · rintro ⟨starts, h⟩ rfl
    exact not_scan_nil (Nat.zero_le _) h
  · intro hpattern
    exact ⟨_, (scan_iff hpattern).mpr rfl⟩

end FuzzySearch.Text
