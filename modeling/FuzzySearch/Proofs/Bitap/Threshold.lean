import FuzzySearch.Proofs.Bitap.Search

/-!
# Runs under two thresholds

Two runs of one search, the second under a threshold that is at least that of the first.  As long as
the second run has accepted nothing, its windows contain those of the first and its rows have every
bit that the rows of the first have (`Below`).  So the first match that the first run accepts is met
by the second run too, unless that accepted one before: `isSome_scanRows_mono`.

The one bit a wider window could lose is that of the end of a row, where the first run still counts
letters that stand past its window as errors.  `LowBits` says that the second run has those bits
anyway.
-/

namespace FuzzySearch.Bitap

open ScoreNumber

variable {p : Problem} {errors : Nat} {s s' : Progress Rat}

/-! ### Windows -/

/-- A greater threshold lets a row reach further. -/
theorem rowReach_mono (hp : p.Proper) (h : Ready p errors s) (h' : Ready p errors s')
    (hthreshold : s.best.threshold ≤ s'.best.threshold) :
    rowReach p errors s ≤ rowReach p errors s' := by
  have hreach := rowReach_le h
  rw [le_rowReach_iff hp h' hreach]
  exact ((le_rowReach_iff hp h hreach).mp (Nat.le_refl _)).trans hthreshold

/-- A match that a row accepts is in the window of every row that reaches as far. -/
theorem Accepts.mem_window (hp : p.Proper) (h : Ready p errors s) {l : Nat}
    (hl : Accepts p errors (hitAt p (rowBits p errors s)) (finish p (rowReach p errors s))
      (rowOutcome p errors s) l) {reach : Nat} (hreach : rowReach p errors s ≤ reach) :
    start p reach ≤ l + 1 ∧ l < finish p reach := by
  have hscore : (p.score errors l : Rat) ≤ s.best.threshold := by
    rw [← hl.threshold_eq]
    exact sweep_threshold_le ..
  have hspan := (hl.lt.le).trans (finish_le_span p (rowReach p errors s))
  have hway := (way_le_rowReach_iff hp h hspan).mpr hscore
  refine ⟨?_, hl.lt.trans_le (finish_mono p hreach)⟩
  unfold Problem.way at hway
  unfold start
  omega

/-! ### The bits at the end of a row -/

/-- Before row `errors`: the last row has every bit that errors alone account for. -/
def LowBits (p : Problem) (errors : Nat) (s : Progress Rat) : Prop :=
  ∀ d, errors = d + 1 → ∀ j k, k < d → p.expected < j + 1 + s.reach → j ≤ finish p s.reach →
    (s.row.getD (j + 1) 0).testBit k = true

theorem testBit_rowBits_of_lt (h : LowBits p errors s) {j k : Nat} (hk : k < errors)
    (hj : p.expected < j + 1 + rowReach p errors s) (hle : j ≤ finish p (rowReach p errors s)) :
    (rowBits p errors s (j + 1)).testBit k = true := by
  have hreach : rowReach p errors s ≤ s.reach := reach_le _ _
  rcases Nat.eq_or_lt_of_le hle with rfl | hlt
  · exact (testBit_rowBits_top p errors s k).mpr hk
  · have hfinish := finish_mono p hreach
    obtain ⟨d, rfl⟩ : ∃ d, errors = d + 1 := ⟨errors - 1, by omega⟩
    refine testBit_rowBits_of_spent p _ s hlt (Nat.succ_ne_zero d) (.inr (.inl ?_))
    rintro k rfl
    exact h d rfl j k (by omega) (by omega) (by omega)

/-- A row that accepts nothing hands on the bits that errors alone account for. -/
theorem LowBits.scanRow (hp : p.Proper) (h : LowBits p errors s)
    (hpass : Passes p errors (hitAt p (rowBits p errors s)) (finish p (rowReach p errors s))
      (start p (rowReach p errors s)) s.best (rowOutcome p errors s)) :
    LowBits p (errors + 1) (scanRow p errors s) := by
  intro d hd j k hk hj hle
  obtain rfl : errors = d := by omega
  rw [scanRow_reach] at hj hle
  have hstop := hpass.stop_eq hp
  rw [scanRow_getD, if_pos (by omega)]
  exact testBit_rowBits_of_lt h hk hj hle

/-! ### The first run below the second -/

/-- Before row `errors` of two runs, none of which has accepted anything: the second run has the
greater threshold, it reached further, and its last row has all bits of that of the first. -/
structure Below (p : Problem) (errors : Nat) (s s' : Progress Rat) : Prop where
  ready : Ready p errors s
  ready' : Ready p errors s'
  threshold_le : s.best.threshold ≤ s'.best.threshold
  reach_le : s.reach ≤ s'.reach
  low : LowBits p errors s'
  bits : ∀ j k, (s.row.getD j 0).testBit k = true → (s'.row.getD j 0).testBit k = true
  position_eq : s.best.position = none

theorem Below.rowReach_le (hp : p.Proper) (h : Below p errors s s') :
    rowReach p errors s ≤ rowReach p errors s' :=
  rowReach_mono hp h.ready h.ready' h.threshold_le

/-- The full row of the second run has all bits of that of the first. -/
theorem Below.testBit_rowBits (hp : p.Proper) (h : Below p errors s s') {j k : Nat}
    (hbit : (rowBits p errors s (j + 1)).testBit k = true) :
    (rowBits p errors s' (j + 1)).testBit k = true := by
  have hreach := h.rowReach_le hp
  have hfinish := finish_mono p hreach
  -- from the end of the row of the first run to the left
  induction hn : finish p (rowReach p errors s) - j generalizing j k with
  | zero =>
    have hlt := lt_of_testBit_rowBits p errors s (by omega) hbit
    have hle := le_finish_of_testBit_rowBits p errors s hbit
    have hexpected := expected_le_finish hp (rowReach p errors s)
    exact testBit_rowBits_of_lt h.low hlt (by omega) (by omega)
  | succ n ih =>
    rw [rowBits_step p errors s (by omega), testBit_cell] at hbit
    rw [rowBits_step p errors s' (by omega), testBit_cell]
    rcases hbit with ⟨hright, hmask⟩ | ⟨herr, hspent⟩
    · exact Or.inl ⟨hright.imp_right fun hbit => ih hbit (by omega), hmask⟩
    · refine Or.inr ⟨herr, ?_⟩
      exact hspent.imp_right (Or.imp (h.bits _ _) (Or.imp (h.bits _ _) (h.bits _ _)))

/-- A match that the first run accepts makes the second accept, that match or another. -/
theorem Below.isSome_of_accepts (hp : p.Proper) (h : Below p errors s s') {l : Nat}
    (hl : Accepts p errors (hitAt p (rowBits p errors s)) (finish p (rowReach p errors s))
      (rowOutcome p errors s) l) :
    (scanRow p errors s').best.position.isSome = true := by
  obtain ⟨hstart, hfinish⟩ := hl.mem_window hp h.ready (h.rowReach_le hp)
  rw [scanRow_best]
  refine sweep_isSome_of_hit p errors _ hstart hfinish (h.testBit_rowBits hp hl.hit) ?_
  refine le_trans ?_ h.threshold_le
  rw [← hl.threshold_eq]
  exact sweep_threshold_le ..

/-- A row that neither run accepts anything in leaves the first run below the second. -/
theorem Below.scanRow (hp : p.Proper) (h : Below p errors s s') (herr : errors < p.length)
    (hpass : Passes p errors (hitAt p (rowBits p errors s)) (finish p (rowReach p errors s))
      (start p (rowReach p errors s)) s.best (rowOutcome p errors s))
    (hpass' : Passes p errors (hitAt p (rowBits p errors s')) (finish p (rowReach p errors s'))
      (start p (rowReach p errors s')) s'.best (rowOutcome p errors s'))
    (hexpected : (p.score (errors + 1) p.expected : Rat) ≤ s.best.threshold) :
    Below p (errors + 1) (scanRow p errors s) (scanRow p errors s') := by
  have hthreshold : (Bitap.scanRow p errors s).best.threshold = s.best.threshold := by
    rw [scanRow_best, hpass.threshold_eq]
  have hthreshold' : (Bitap.scanRow p errors s').best.threshold = s'.best.threshold := by
    rw [scanRow_best, hpass'.threshold_eq]
  have hreach := h.rowReach_le hp
  refine ⟨h.ready.next hp herr (by rwa [hthreshold]),
    h.ready'.next hp herr (by rw [hthreshold']; exact hexpected.trans h.threshold_le), ?_, ?_,
    h.low.scanRow hp hpass', ?_, ?_⟩
  · rw [hthreshold, hthreshold']
    exact h.threshold_le
  · rwa [scanRow_reach, scanRow_reach]
  -- both rows were scanned as a whole, so the cut rows compare as the full ones do
  · intro j k hbit
    rw [scanRow_getD] at hbit
    split_ifs at hbit with hj
    · have hstop := hpass.stop_eq hp
      have hstop' := hpass'.stop_eq hp
      obtain ⟨j, rfl⟩ : ∃ i, j = i + 1 := ⟨j - 1, by omega⟩
      rw [scanRow_getD, if_pos (by omega)]
      exact h.testBit_rowBits hp hbit
    · rw [Nat.zero_testBit] at hbit
      exact Bool.noConfusion hbit
  · rw [scanRow_best, hpass.position_eq, h.position_eq]

/-- **A greater threshold never loses a match.** -/
theorem isSome_scanRows_mono (hp : p.Proper) {remaining : Nat}
    (hsum : errors + remaining ≤ p.length) (h : Below p errors s s')
    (hsome : (scanRows p remaining errors s).best.position.isSome = true) :
    (scanRows p remaining errors s').best.position.isSome = true := by
  induction remaining generalizing errors s s' with
  | zero =>
    have hnone : (scanRows p 0 errors s).best.position = none := h.position_eq
    rw [hnone] at hsome
    exact Bool.noConfusion hsome
  | succ remaining ih =>
    have hkeep := scanRows_isSome_of_scanRow p remaining errors s'
    -- as long as neither run accepts anything the first stays below the second
    rcases rowOutcome_cases p errors s with hpass | ⟨l, hl⟩
    · rcases rowOutcome_cases p errors s' with hpass' | ⟨l, hl⟩
      · have hthreshold : (Bitap.scanRow p errors s).best.threshold = s.best.threshold := by
          rw [scanRow_best, hpass.threshold_eq]
        have hthreshold' : (Bitap.scanRow p errors s').best.threshold = s'.best.threshold := by
          rw [scanRow_best, hpass'.threshold_eq]
        rw [scanRows_succ, hthreshold] at hsome
        rw [scanRows_succ, hthreshold']
        split_ifs at hsome with hbreak
        · rw [scanRow_best, hpass.position_eq, h.position_eq] at hsome
          exact Bool.noConfusion hsome
        · have hexpected := not_lt.mp hbreak
          rw [if_neg (not_lt.mpr (hexpected.trans h.threshold_le))]
          exact ih (by omega) (h.scanRow hp (by omega) hpass hpass' hexpected) hsome
      · refine hkeep ?_
        rw [scanRow_best, hl.position_eq]
        rfl
    · exact hkeep (h.isSome_of_accepts hp hl)

end FuzzySearch.Bitap
