import FuzzySearch.Proofs.Bitap.Row

/-!
# Rows of more and more errors

What one row hands on to the next, whatever the arithmetic of scores.

* `scanRow_spec`: a row is a sweep along the full row in the window that its reach gives.
* `scanRows_isSome`: a match that was accepted stays accepted.
* `mark_scanRow_iff`: a row marks the characters of its window that occur in the pattern, and never
  takes a mark away.
* `exists_mark_of_isSome`: when a match is accepted, some character of the text is marked; a pattern
  of `m` letters with fewer than `m` errors has a letter that is matched.
-/

namespace FuzzySearch.Bitap

open ScoreNumber

variable {α : Type} [ScoreNumber α]

/-! ### One row -/

section scanRow

variable (p : Problem) (errors : Nat) (s : Progress α)

/-- How far from the expected position a row reaches. -/
def rowReach : Nat :=
  reach (fun d => decide ((p.score errors (p.expected + d) : α) ≤ s.best.threshold)) s.reach

/-- The full row of the window of a row. -/
def rowBits : Nat → Nat :=
  fullRow p errors (fun i => s.row.getD i 0) (finish p (rowReach p errors s))

/-- The best match along a row, and the last vector that is not scanned. -/
def rowOutcome : Best α × Nat :=
  sweep p errors (hitAt p (rowBits p errors s)) (finish p (rowReach p errors s))
    (start p (rowReach p errors s)) s.best

theorem rowBits_step {j : Nat} (hj : j < finish p (rowReach p errors s)) :
    rowBits p errors s (j + 1)
      = cell errors (p.masks.getD j 0) (rowBits p errors s (j + 2)) (s.row.getD (j + 1) 0)
          (s.row.getD (j + 2) 0) :=
  fullRow_step p errors (fun i => s.row.getD i 0) _ hj

theorem rowBits_top :
    rowBits p errors s (finish p (rowReach p errors s) + 1) = (1 <<< errors) - 1 :=
  fullRow_top p errors _ _

theorem rowBits_of_gt {j : Nat} (hj : finish p (rowReach p errors s) + 1 < j) :
    rowBits p errors s j = 0 :=
  fullRow_of_gt p errors _ _ hj

/-- At the end of a row the set bits are those that errors alone account for. -/
theorem testBit_rowBits_top (k : Nat) :
    (rowBits p errors s (finish p (rowReach p errors s) + 1)).testBit k = true ↔ k < errors := by
  rw [rowBits_top, Nat.one_shiftLeft, Nat.testBit_two_pow_sub_one, decide_eq_true_iff]

/-- Past its end a row has no bits. -/
theorem le_finish_of_testBit_rowBits {j k : Nat}
    (hbit : (rowBits p errors s (j + 1)).testBit k = true) :
    j ≤ finish p (rowReach p errors s) := by
  by_contra hj
  rw [rowBits_of_gt p errors s (by omega), Nat.zero_testBit] at hbit
  exact Bool.noConfusion hbit

theorem lt_of_testBit_rowBits {j k : Nat} (hj : finish p (rowReach p errors s) ≤ j)
    (hbit : (rowBits p errors s (j + 1)).testBit k = true) : k < errors := by
  have hle := le_finish_of_testBit_rowBits p errors s hbit
  obtain rfl : j = finish p (rowReach p errors s) := by omega
  exact (testBit_rowBits_top p errors s k).mp hbit

/-- A bit is set where the letters agree, if that of the letters behind is set one vector further
on. -/
theorem testBit_rowBits_of_kept {j k : Nat} (hj : j < finish p (rowReach p errors s))
    (hmask : (p.masks.getD j 0).testBit k = true)
    (hright : ∀ l, k = l + 1 → (rowBits p errors s (j + 2)).testBit l = true) :
    (rowBits p errors s (j + 1)).testBit k = true := by
  rw [rowBits_step p errors s hj, testBit_cell]
  refine Or.inl ⟨?_, hmask⟩
  cases k with
  | zero => exact Or.inl rfl
  | succ k => exact Or.inr (hright k rfl)

/-- A bit is set where an error is spent, on both letters or on one of them, if the row before has
the bit of what is left. -/
theorem testBit_rowBits_of_spent {j k : Nat} (hj : j < finish p (rowReach p errors s))
    (herrors : errors ≠ 0)
    (hlast : (∀ l, k = l + 1 → (s.row.getD (j + 2) 0).testBit l = true) ∨
      (∀ l, k = l + 1 → (s.row.getD (j + 1) 0).testBit l = true) ∨
        (s.row.getD (j + 2) 0).testBit k = true) :
    (rowBits p errors s (j + 1)).testBit k = true := by
  rw [rowBits_step p errors s hj, testBit_cell]
  refine Or.inr ⟨herrors, ?_⟩
  cases k with
  | zero => exact Or.inl rfl
  | succ k => exact Or.inr (hlast.imp (fun h => h k rfl) (Or.imp_left fun h => h k rfl))

/-- **Where a bit comes from.**  `motive i k` speaks of the last `k` letters of the pattern from
position `i` on.  It holds wherever a bit is set if it holds of letters that are all errors, goes
over to a further letter that agrees, and follows from the bits of the row before. -/
theorem testBit_rowBits_induction (limit : Nat) {motive : Nat → Nat → Prop}
    (deleted : ∀ i k, k ≤ errors → k ≤ limit → motive i k)
    (kept : ∀ i k, k < limit → i < finish p (rowReach p errors s) →
      (p.masks.getD i 0).testBit k = true → motive (i + 1) k → motive i (k + 1))
    (spent : ∀ i k d, k + 1 < limit → i < finish p (rowReach p errors s) → errors = d + 1 →
      (s.row.getD (i + 2) 0).testBit k = true ∨ (s.row.getD (i + 1) 0).testBit k = true ∨
        (s.row.getD (i + 2) 0).testBit (k + 1) = true → motive i (k + 2))
    {i k : Nat} (hk : k < limit) (hbit : (rowBits p errors s (i + 1)).testBit k = true) :
    motive i (k + 1) := by
  -- from the end of the row to the left
  induction hn : finish p (rowReach p errors s) - i generalizing i k with
  | zero => exact deleted i (k + 1) (lt_of_testBit_rowBits p errors s (by omega) hbit) hk
  | succ n ih =>
    have hi : i < finish p (rowReach p errors s) := by omega
    rw [rowBits_step p errors s hi, testBit_cell] at hbit
    rcases hbit with ⟨hright, hmask⟩ | ⟨herr, hspent⟩
    · refine kept i k hk hi hmask ?_
      cases k with
      | zero => exact deleted (i + 1) 0 (Nat.zero_le errors) (Nat.zero_le limit)
      | succ k => exact ih (by omega) (hright.resolve_left (Nat.succ_ne_zero k)) (by omega)
    · cases k with
      | zero => exact deleted i 1 (Nat.pos_of_ne_zero herr) hk
      | succ k =>
        exact spent i k (errors - 1) hk hi (by omega) (hspent.resolve_left (Nat.succ_ne_zero k))

theorem getD_blankRow (top k : Nat) :
    (blankRow errors top).getD k 0 = if top + 1 = k then (1 <<< errors) - 1 else 0 := by
  have hzero : (Array.replicate (top + 2) 0).getD k 0 = 0 := by
    rw [Array.getD_eq_getD_getElem?, Array.getElem?_replicate]
    split_ifs <;> rfl
  rw [blankRow, getD_setIfInBounds, hzero, Array.size_replicate]
  by_cases hk : top + 1 = k
  · rw [if_pos ⟨hk, by omega⟩, if_pos hk]
  · rw [if_neg fun h => hk h.1, if_neg hk]

theorem scanRow_eq :
    ((scanRow p errors s).best, (scanRow p errors s).row, (scanRow p errors s).marks)
      = scan p errors s.row (finish p (rowReach p errors s)) (start p (rowReach p errors s)) s.best
          (blankRow errors (finish p (rowReach p errors s))) s.marks := by
  simp only [scanRow, rowReach]

/-- **A row is a sweep along the full row.** -/
theorem scanRow_spec :
    ScanSpec p (rowBits p errors s) (finish p (rowReach p errors s)) (rowOutcome p errors s)
      (finish p (rowReach p errors s) + 2) s.marks
      ((scanRow p errors s).best, (scanRow p errors s).row, (scanRow p errors s).marks) := by
  rw [scanRow_eq]
  refine scan_spec p errors (finish p (rowReach p errors s)) s.row
    (fun j hj => rowBits_step p errors s hj) (Nat.le_refl _) ?_ ?_
  · rw [blankRow, Array.size_setIfInBounds, Array.size_replicate]
  · intro k
    rw [getD_blankRow]
    by_cases hk : finish p (rowReach p errors s) + 1 = k
    · rw [if_pos hk, if_pos (by omega), ← hk]
      exact (rowBits_top p errors s).symm
    · rw [if_neg hk]
      split_ifs
      · exact (rowBits_of_gt p errors s (by omega)).symm
      · rfl

theorem scanRow_best : (scanRow p errors s).best = (rowOutcome p errors s).1 :=
  (scanRow_spec p errors s).best_eq

theorem scanRow_reach : (scanRow p errors s).reach = rowReach p errors s := by
  simp only [scanRow, rowReach]

theorem scanRow_getD (k : Nat) :
    (scanRow p errors s).row.getD k 0
      = if (rowOutcome p errors s).2 < k then rowBits p errors s k else 0 :=
  (scanRow_spec p errors s).row_getD k

theorem size_scanRow_marks : (scanRow p errors s).marks.size = s.marks.size :=
  (scanRow_spec p errors s).marks_size

theorem scanRow_mark (i : Nat) :
    (scanRow p errors s).marks.getD i false
      = markAfter p s.marks (rowOutcome p errors s).2 (finish p (rowReach p errors s)) i :=
  (scanRow_spec p errors s).marks_getD i

theorem scanRow_isSome (h : s.best.position.isSome = true) :
    (scanRow p errors s).best.position.isSome = true := by
  rw [scanRow_best]
  exact sweep_isSome _ _ _ _ _ h

/-- A row accepts nothing, or there is a last match that it accepts. -/
theorem rowOutcome_cases :
    Passes p errors (hitAt p (rowBits p errors s)) (finish p (rowReach p errors s))
        (start p (rowReach p errors s)) s.best (rowOutcome p errors s) ∨
      ∃ l, Accepts p errors (hitAt p (rowBits p errors s)) (finish p (rowReach p errors s))
        (rowOutcome p errors s) l :=
  sweep_outcome ..

end scanRow

theorem scanRows_succ (p : Problem) (remaining errors : Nat) (s : Progress α) :
    scanRows p (remaining + 1) errors s
      = if (scanRow p errors s).best.threshold < (p.score (errors + 1) p.expected : α) then
          scanRow p errors s
        else scanRows p remaining (errors + 1) (scanRow p errors s) := rfl

/-- What every row keeps is kept by all rows. -/
theorem scanRows_induction {p : Problem} {motive : Nat → Progress α → Prop} {limit : Nat}
    (step : ∀ errors s, errors < limit → motive errors s → motive (errors + 1) (scanRow p errors s))
    {remaining errors : Nat} {s : Progress α} (hlimit : errors + remaining ≤ limit)
    (h : motive errors s) :
    ∃ rows, rows ≤ limit ∧ motive rows (scanRows p remaining errors s) := by
  induction remaining generalizing errors s with
  | zero => exact ⟨errors, hlimit, h⟩
  | succ remaining ih =>
    have hnext := step errors s (by omega) h
    rw [scanRows_succ]
    split_ifs
    · exact ⟨errors + 1, by omega, hnext⟩
    · exact ih (by omega) hnext

theorem scanRows_isSome (p : Problem) (remaining errors : Nat) {s : Progress α}
    (h : s.best.position.isSome = true) :
    (scanRows p remaining errors s).best.position.isSome = true := by
  obtain ⟨-, -, hsome⟩ := scanRows_induction
    (motive := fun _ s => s.best.position.isSome = true)
    (fun errors s _ hs => scanRow_isSome p errors s hs) (Nat.le_refl (errors + remaining)) h
  exact hsome

/-- What the first of some rows accepts stays accepted. -/
theorem scanRows_isSome_of_scanRow (p : Problem) (remaining errors : Nat) (s : Progress α)
    (h : (scanRow p errors s).best.position.isSome = true) :
    (scanRows p (remaining + 1) errors s).best.position.isSome = true := by
  rw [scanRows_succ]
  split_ifs
  · exact h
  · exact scanRows_isSome p remaining (errors + 1) h

/-! ### Marks -/

/-- Marks with one place for every character of the text; only characters of the pattern are
marked. -/
structure MarksSound (p : Problem) (marks : Array Bool) : Prop where
  size_eq : marks.size = p.masks.size
  mask_ne : ∀ i, marks.getD i false = true → p.masks.getD i 0 ≠ 0

theorem lt_size_of_getD_ne {masks : Array Nat} {i : Nat} (h : masks.getD i 0 ≠ 0) :
    i < masks.size := by
  by_contra hi
  rw [Array.getD_eq_getD_getElem?, Array.getElem?_eq_none (Nat.le_of_not_lt hi)] at h
  exact h rfl

/-- A row marks the characters of its window that occur in the pattern, and takes no mark away. -/
theorem mark_scanRow_iff {p : Problem} {s : Progress α} (h : MarksSound p s.marks)
    (errors i : Nat) :
    (scanRow p errors s).marks.getD i false = true ↔
      s.marks.getD i false = true ∨
        (rowOutcome p errors s).2 ≤ i ∧ i < finish p (rowReach p errors s) ∧
          p.masks.getD i 0 ≠ 0 := by
  rw [scanRow_mark, markAfter]
  constructor
  · split_ifs with hi
    · intro hmask
      exact Or.inr ⟨hi.2.2.1, hi.2.2.2, by simpa using hmask⟩
    · exact Or.inl
  · rintro (hmark | ⟨hstop, hlt, hmask⟩)
    · split_ifs
      · simpa using h.mask_ne i hmark
      · exact hmark
    · have hi := lt_size_of_getD_ne hmask
      rw [if_pos ⟨h.size_eq ▸ hi, hi, hstop, hlt⟩]
      simpa using hmask

theorem MarksSound.scanRow {p : Problem} {s : Progress α} (h : MarksSound p s.marks)
    (errors : Nat) : MarksSound p (scanRow p errors s).marks where
  size_eq := (size_scanRow_marks p errors s).trans h.size_eq
  mask_ne i hi := by
    rcases (mark_scanRow_iff h errors i).mp hi with hmark | ⟨-, -, hmask⟩
    · exact h.mask_ne i hmark
    · exact hmask

/-- Rows take no mark away. -/
theorem mark_scanRows {p : Problem} {s : Progress α} (h : MarksSound p s.marks) {i : Nat}
    (hi : s.marks.getD i false = true) (remaining errors : Nat) :
    (scanRows p remaining errors s).marks.getD i false = true := by
  obtain ⟨-, -, -, hmark⟩ := scanRows_induction (p := p)
    (motive := fun _ s => MarksSound p s.marks ∧ s.marks.getD i false = true)
    (fun errors s _ hs => ⟨hs.1.scanRow errors, (mark_scanRow_iff hs.1 errors i).mpr (Or.inl hs.2)⟩)
    (Nat.le_refl (errors + remaining)) ⟨h, hi⟩
  exact hmark

/-! ### A match leaves a mark -/

/-- Some character of the text is marked. -/
def SomeMark (s : Progress α) : Prop := ∃ i, s.marks.getD i false = true

/-- Before row `errors`: a bit of the last row that stands for more letters than errors comes with a
mark, and so does a match that was accepted. -/
structure Marked (p : Problem) (errors : Nat) (s : Progress α) : Prop where
  sound : MarksSound p s.marks
  bit : ∀ j k, errors ≤ k + 1 → (s.row.getD j 0).testBit k = true → SomeMark s
  match_ : s.best.position.isSome = true → SomeMark s

theorem Marked.someMark {p : Problem} {errors : Nat} {s : Progress α} (h : Marked p errors s)
    {j k : Nat} (hstop : (rowOutcome p errors s).2 < j) (hk : errors ≤ k)
    (hbit : (rowBits p errors s j).testBit k = true) : SomeMark (scanRow p errors s) := by
  have hkeep : SomeMark s → SomeMark (scanRow p errors s) := by
    rintro ⟨i, hi⟩
    exact ⟨i, (mark_scanRow_iff h.sound errors i).mpr (Or.inl hi)⟩
  obtain ⟨j, rfl⟩ : ∃ i, j = i + 1 := ⟨j - 1, by omega⟩
  rcases Nat.lt_or_ge j (finish p (rowReach p errors s)) with hj | hj
  · rw [rowBits_step p errors s hj, testBit_cell] at hbit
    rcases hbit with ⟨-, hmask⟩ | ⟨herr, rfl | hright | hhere | hright⟩
    · -- the letters agree, so the character occurs in the pattern and is marked now
      refine ⟨j, (mark_scanRow_iff h.sound errors j).mpr (Or.inr ⟨by omega, hj, ?_⟩)⟩
      intro hzero
      rw [hzero, Nat.zero_testBit] at hmask
      exact Bool.noConfusion hmask
    · omega
    · exact hkeep (h.bit _ _ (by omega) hright)
    · exact hkeep (h.bit _ _ (by omega) hhere)
    · exact hkeep (h.bit _ _ (by omega) hright)
  -- past the end only the bits of so many errors are set, and `k` is none of them
  · have hlt := lt_of_testBit_rowBits p errors s hj hbit
    omega

theorem Marked.scanRow {p : Problem} {errors : Nat} {s : Progress α} (h : Marked p errors s)
    (herr : errors < p.length) : Marked p (errors + 1) (scanRow p errors s) where
  sound := h.sound.scanRow errors
  bit j k hk hbit := by
    rw [scanRow_getD] at hbit
    split_ifs at hbit with hstop
    · exact h.someMark hstop (by omega) hbit
    · rw [Nat.zero_testBit] at hbit
      exact Bool.noConfusion hbit
  match_ hsome := by
    rcases rowOutcome_cases p errors s with hpass | ⟨l, hl⟩
    · rw [scanRow_best, hpass.position_eq] at hsome
      obtain ⟨i, hi⟩ := h.match_ hsome
      exact ⟨i, (mark_scanRow_iff h.sound errors i).mpr (Or.inl hi)⟩
    -- the bit that gives the match stands for the whole pattern
    · have hstop := hl.stop
      exact h.someMark (by omega) (by omega) hl.hit

/-- **A match leaves a mark.** -/
theorem exists_mark_of_isSome {p : Problem} {s : Progress α} (h : Marked p 0 s)
    (hsome : (scanRows p p.length 0 s).best.position.isSome = true) :
    SomeMark (scanRows p p.length 0 s) := by
  obtain ⟨rows, -, hmarked⟩ := scanRows_induction (p := p) (motive := Marked p)
    (fun _ _ herr hs => hs.scanRow herr) (Nat.le_of_eq (Nat.zero_add p.length)) h
  exact hmarked.match_ hsome

end FuzzySearch.Bitap
