import FuzzySearch.Proofs.Bitap.MarkedArea

/-!
# Marks under two thresholds

Two runs of one search stay alike (`Twin`) as long as their rows reach equally far.  When a row of
the second run reaches further, the first run marks nothing any more that the second has not
marked: after the first row because the row before was scanned as a whole in both runs and reached
further than either does now, and in the first row because that is scanned at least as far to both
sides.  So a greater threshold never loses a mark (`mark_scanRows_mono`), and with
`isSome_scanRows_mono` it never loses a match, even one that needs a run of marks
(`isMatch_locate_mono`).
-/

namespace FuzzySearch.Bitap

open ScoreNumber

variable {p : Problem} {errors : Nat} {s s' : Progress Rat}

/-! ### Sweeps that accept the same matches -/

/-- Two sweeps along one row under thresholds that accept the same scores stop at the same vector.
Either they accept the same match last, or both accept nothing. -/
theorem sweep_twin {hit : Nat → Bool} {j start : Nat} {best best' : Best Rat}
    (hthreshold : best.threshold ≤ best'.threshold)
    (hsame : ∀ l, l < j → (p.score errors l : Rat) ≤ best'.threshold →
      (p.score errors l : Rat) ≤ best.threshold) :
    (sweep p errors hit j start best').2 = (sweep p errors hit j start best).2 ∧
      ((sweep p errors hit j start best').1.threshold
          = (sweep p errors hit j start best).1.threshold ∨
        (sweep p errors hit j start best').1.threshold = best'.threshold ∧
          (sweep p errors hit j start best).1.threshold = best.threshold ∧
          (sweep p errors hit j start best).2 = min j (start - 1)) := by
  induction j generalizing start best best' with
  | zero => exact ⟨rfl, Or.inr ⟨rfl, rfl, by rw [Nat.zero_min]; rfl⟩⟩
  | succ j ih =>
    have hrest := fun l hl => hsame l (Nat.lt_succ_of_lt hl)
    rcases sweep_cases p errors hit j start best with h | ⟨h, hhit | ⟨hhit, hs⟩ | ⟨hhit, hs⟩⟩
    · rw [sweep_of_lt p errors hit best h, sweep_of_lt p errors hit best' h]
      exact ⟨rfl, Or.inr ⟨rfl, rfl, (Nat.min_eq_left (by omega)).symm⟩⟩
    · rw [sweep_of_not_hit p errors hit best h hhit, sweep_of_not_hit p errors hit best' h hhit,
        Nat.min_eq_right (by omega), ← Nat.min_eq_right (show start - 1 ≤ j by omega)]
      exact ih hthreshold hrest
    -- both refuse the match, although they remember its score
    · have hs' : ¬ (p.score errors j : Rat) ≤ best'.threshold :=
        fun hs' => hs (hsame j (Nat.lt_succ_self j) hs')
      rw [sweep_of_rejected p errors hit best h hhit hs,
        sweep_of_rejected p errors hit best' h hhit hs', Nat.min_eq_right (by omega),
        ← Nat.min_eq_right (show start - 1 ≤ j by omega)]
      exact @ih start { best with score := p.score errors j }
        { best' with score := p.score errors j } hthreshold hrest
    · rw [sweep_of_accepted p errors hit best h hhit hs,
        sweep_of_accepted p errors hit best' h hhit (hs.trans hthreshold)]
      exact ⟨rfl, Or.inl rfl⟩

/-! ### Runs that are alike -/

/-- Before row `errors` of two runs, the second under the greater threshold: they have the same row
and the same marks.  Their thresholds are equal, or the row before was scanned as a whole and every
character of the pattern in its window is marked. -/
structure Twin (p : Problem) (errors : Nat) (s s' : Progress Rat) : Prop where
  ready : Ready p errors s
  ready' : Ready p errors s'
  sound : MarksSound p s.marks
  sound' : MarksSound p s'.marks
  threshold_le : s.best.threshold ≤ s'.best.threshold
  reach_eq : s'.reach = s.reach
  row_eq : ∀ k, s'.row.getD k 0 = s.row.getD k 0
  marks_eq : ∀ i, s'.marks.getD i false = s.marks.getD i false
  covered : s'.best.threshold = s.best.threshold ∨
    s.best.threshold < 1 ∧ ∀ d, errors = d + 1 → ∀ i, p.expected ≤ i + s.reach →
      i < finish p s.reach → p.masks.getD i 0 ≠ 0 → s.marks.getD i false = true

theorem Twin.rowBits_eq (h : Twin p errors s s')
    (hreach : rowReach p errors s' = rowReach p errors s) :
    rowBits p errors s' = rowBits p errors s := by
  unfold rowBits
  rw [hreach, funext h.row_eq]

/-- Rows that reach equally far are scanned equally far. -/
theorem Twin.outcome (hp : p.Proper) (h : Twin p errors s s')
    (hreach : rowReach p errors s' = rowReach p errors s) :
    (rowOutcome p errors s').2 = (rowOutcome p errors s).2 ∧
      ((rowOutcome p errors s').1.threshold = (rowOutcome p errors s).1.threshold ∨
        (rowOutcome p errors s').1.threshold = s'.best.threshold ∧
          (rowOutcome p errors s).1.threshold = s.best.threshold ∧
          (rowOutcome p errors s).2 = p.expected - rowReach p errors s) := by
  have hsame : ∀ l, l < finish p (rowReach p errors s) →
      (p.score errors l : Rat) ≤ s'.best.threshold →
      (p.score errors l : Rat) ≤ s.best.threshold := by
    intro l hl hscore
    have hspan := hl.le.trans (finish_le_span p _)
    have hway := (way_le_rowReach_iff hp h.ready' hspan).mpr hscore
    rw [hreach] at hway
    exact (way_le_rowReach_iff hp h.ready hspan).mp hway
  have hsweep := @sweep_twin p errors (hitAt p (rowBits p errors s)) _
    (start p (rowReach p errors s)) _ _ h.threshold_le hsame
  have hstop : min (finish p (rowReach p errors s)) (start p (rowReach p errors s) - 1)
      = p.expected - rowReach p errors s := by
    have := expected_le_finish hp (rowReach p errors s)
    unfold start
    omega
  rw [hstop] at hsweep
  unfold rowOutcome
  rw [h.rowBits_eq hreach, hreach]
  exact hsweep

theorem Twin.mark_scanRow_eq (hp : p.Proper) (h : Twin p errors s s')
    (hreach : rowReach p errors s' = rowReach p errors s) (i : Nat) :
    (scanRow p errors s').marks.getD i false = (scanRow p errors s).marks.getD i false := by
  rw [Bool.eq_iff_iff, mark_scanRow_iff h.sound' errors i, mark_scanRow_iff h.sound errors i,
    h.marks_eq, (h.outcome hp hreach).1, hreach]

theorem Twin.threshold_scanRow_le (hp : p.Proper) (h : Twin p errors s s')
    (hreach : rowReach p errors s' = rowReach p errors s) :
    (scanRow p errors s).best.threshold ≤ (scanRow p errors s').best.threshold := by
  rw [scanRow_best, scanRow_best]
  rcases (h.outcome hp hreach).2 with heq | ⟨heq', heq, -⟩
  · rw [heq]
  · rw [heq', heq]
    exact h.threshold_le

/-- Runs whose rows reach equally far stay alike. -/
theorem Twin.scanRow (hp : p.Proper) (h : Twin p errors s s')
    (hreach : rowReach p errors s' = rowReach p errors s) (herr : errors < p.length)
    (hexpected : (p.score (errors + 1) p.expected : Rat) ≤ (scanRow p errors s).best.threshold) :
    Twin p (errors + 1) (scanRow p errors s) (scanRow p errors s') := by
  have hthreshold := h.threshold_scanRow_le hp hreach
  obtain ⟨hstop, houtcome⟩ := h.outcome hp hreach
  refine ⟨h.ready.next hp herr hexpected, h.ready'.next hp herr (hexpected.trans hthreshold),
    h.sound.scanRow errors, h.sound'.scanRow errors, hthreshold, ?_, ?_,
    h.mark_scanRow_eq hp hreach, ?_⟩
  · rw [scanRow_reach, scanRow_reach, hreach]
  · intro k
    rw [scanRow_getD, scanRow_getD, hstop, h.rowBits_eq hreach]
  · rw [scanRow_best, scanRow_best, scanRow_reach]
    -- equal thresholds stay equal; otherwise nothing was accepted and the whole row was scanned
    rcases houtcome with heq | ⟨heq', heq, hwhole⟩
    · exact Or.inl heq
    · rw [heq', heq]
      refine h.covered.imp_right fun hold => ⟨hold.1, fun _ _ i hleft hright hmask => ?_⟩
      exact (mark_scanRow_iff h.sound errors i).mpr (Or.inr ⟨by omega, hright, hmask⟩)

/-! ### When the second run reaches further -/

/-- The rows behind a first row that accepts a match are closer to the expected position than that
match, so a run marks only what its first row came by. -/
theorem mark_scanRows_of_accepts (hp : p.Proper) (hready : Ready p 0 s)
    (hsound : MarksSound p s.marks) (hone : s.best.threshold < 1) {l : Nat}
    (hl : Accepts p 0 (hitAt p (rowBits p 0 s)) (finish p (rowReach p 0 s)) (rowOutcome p 0 s) l)
    {remaining : Nat} (hsum : 0 + (remaining + 1) ≤ p.length) {i : Nat}
    (hi : (scanRows p (remaining + 1) 0 s).marks.getD i false = true) :
    s.marks.getD i false = true ∨
      (rowOutcome p 0 s).2 ≤ i ∧ i < finish p (rowReach p 0 s) ∧ p.masks.getD i 0 ≠ 0 := by
  rw [scanRows_succ] at hi
  split_ifs at hi with hbreak
  · exact (mark_scanRow_iff hsound 0 i).mp hi
  · have hnext := hready.next hp (by omega) (not_lt.mp hbreak)
    have hthreshold : (Bitap.scanRow p 0 s).best.threshold = p.score 0 l := by
      rw [scanRow_best, hl.threshold_eq]
    have hscore : (p.score 0 l : Rat) < 1 := by
      rw [← hthreshold]
      exact (scanRow_threshold_le p 0 s).trans_lt hone
    have hway : ∀ k, (p.score 1 k : Rat) ≤ p.score 0 l → p.way k ≤ p.way l - 1 := by
      intro k hk
      have := way_lt_of_score_one_le hp hscore hk
      omega
    have hpos : 0 < p.way l := by
      have hexpected := not_lt.mp hbreak
      rw [hthreshold] at hexpected
      have := way_lt_of_score_one_le hp hscore hexpected
      omega
    have hwithin : Within p (p.way l - 1) 1 (Bitap.scanRow p 0 s) := by
      refine ⟨?_, fun k _ hk => hway k (by rwa [← hthreshold])⟩
      have hreach := (le_rowReach_iff hp hnext (rowReach_le hnext)).mp (Nat.le_refl _)
      rw [hthreshold] at hreach
      have hle := hway _ hreach
      rwa [way_add] at hle
    rcases mark_scanRows_within hp (hsound.scanRow 0) hwithin (by omega) hi with
      hmark | ⟨hleft, hright, hmask⟩
    · exact (mark_scanRow_iff hsound 0 i).mp hmark
    · have hstop := hl.stop
      have hlreach : p.way l ≤ rowReach p 0 s := by
        refine (way_le_rowReach_iff hp hready (hl.lt.le.trans (finish_le_span p _))).mpr ?_
        rw [← hl.threshold_eq]
        exact sweep_threshold_le ..
      have hfinish := finish_mono p (show p.way l - 1 ≤ rowReach p 0 s by omega)
      unfold Problem.way at hleft hpos
      exact Or.inr ⟨by omega, by omega, hmask⟩

/-- The first row under a greater threshold marks all that the first run ever marks. -/
theorem Twin.mark_first_row (hp : p.Proper) (h : Twin p 0 s s')
    (hreach : rowReach p 0 s < rowReach p 0 s') (hone : s.best.threshold < 1) {remaining : Nat}
    (hsum : 0 + (remaining + 1) ≤ p.length) {i : Nat}
    (hi : (scanRows p (remaining + 1) 0 s).marks.getD i false = true) :
    (Bitap.scanRow p 0 s').marks.getD i false = true := by
  have hfinish := finish_mono p hreach.le
  rw [mark_scanRow_iff h.sound' 0 i, h.marks_eq]
  rcases rowOutcome_cases p 0 s with hpass | ⟨l, hl⟩
  · -- all rows of the first run stay within the reach of its first row
    have hstop := stop_le_of_passes hp h.ready hreach hpass
    rcases mark_scanRows_within hp h.sound (h.ready.within hp) hsum hi with
      hmark | ⟨hleft, hright, hmask⟩
    · exact Or.inl hmark
    · exact Or.inr ⟨by omega, by omega, hmask⟩
  · have hstop := stop_le_stop hp h.ready h.ready' h.threshold_le
    exact (mark_scanRows_of_accepts hp h.ready h.sound hone hl hsum hi).imp_right
      fun ⟨hleft, hright, hmask⟩ => ⟨by omega, by omega, hmask⟩

/-- **A greater threshold never loses a mark.** -/
theorem mark_scanRows_mono (hp : p.Proper) {remaining : Nat} (hsum : errors + remaining ≤ p.length)
    (h : Twin p errors s s') {i : Nat}
    (hi : (scanRows p remaining errors s).marks.getD i false = true) :
    (scanRows p remaining errors s').marks.getD i false = true := by
  induction remaining generalizing errors s s' with
  | zero => exact (h.marks_eq i).trans hi
  | succ remaining ih =>
    have hle := rowReach_mono hp h.ready h.ready' h.threshold_le
    have hkeep : (Bitap.scanRow p errors s').marks.getD i false = true →
        (scanRows p (remaining + 1) errors s').marks.getD i false = true := by
      intro hmark
      rw [scanRows_succ]
      split_ifs
      · exact hmark
      · exact mark_scanRows (h.sound'.scanRow errors) hmark _ _
    -- the runs stay alike until a row of the second reaches further
    rcases Nat.eq_or_lt_of_le hle with heq | hlt
    · rw [scanRows_succ] at hi
      split_ifs at hi with hbreak
      · exact hkeep ((h.mark_scanRow_eq hp heq.symm i).trans hi)
      · have hexpected := not_lt.mp hbreak
        have hthreshold := h.threshold_scanRow_le hp heq.symm
        rw [scanRows_succ, if_neg (not_lt.mpr (hexpected.trans hthreshold))]
        exact ih (by omega) (h.scanRow hp heq.symm (by omega) hexpected) hi
    · rcases h.covered with hthreshold | ⟨hone, hcovered⟩
      · -- equal thresholds reach equally far
        refine absurd (rowReach_mono hp h.ready' h.ready hthreshold.le) (by omega)
      · cases errors with
        | zero => exact hkeep (h.mark_first_row hp hlt hone hsum hi)
        | succ d =>
          have hreach : rowReach p (d + 1) s' ≤ s'.reach := reach_le _ _
          rw [h.reach_eq] at hreach
          have hfinish := finish_mono p (hlt.le.trans hreach)
          rcases mark_scanRows_within hp h.sound (h.ready.within hp) hsum hi with
            hmark | ⟨hleft, hright, hmask⟩
          · exact mark_scanRows h.sound' ((h.marks_eq i).trans hmark) _ _
          · refine mark_scanRows h.sound' ((h.marks_eq i).trans ?_) _ _
            exact hcovered d rfl i (by omega) (by omega) hmask

/-! ### Searches -/

section

variable {text pattern : List Char} {c : Criteria Rat} {threshold threshold' : Rat}

theorem exactThreshold_mono (hle : threshold ≤ threshold') :
    exactThreshold text pattern { c with threshold := threshold }
      ≤ exactThreshold text pattern { c with threshold := threshold' } :=
  foldl_smaller_mono _ _ hle

theorem below_initial (hpattern : pattern ≠ []) (hdistance : 0 ≤ c.distance)
    (hthreshold : 0 ≤ threshold) (hle : threshold ≤ threshold') :
    Below (problem text pattern c) 0 (initial text pattern { c with threshold := threshold })
      (initial text pattern { c with threshold := threshold' }) where
  ready := @ready_initial text pattern { c with threshold := threshold } hpattern hdistance
    hthreshold
  ready' := @ready_initial text pattern { c with threshold := threshold' } hpattern hdistance
    (hthreshold.trans hle)
  threshold_le := exactThreshold_mono hle
  reach_le := Nat.le_refl _
  low d hd := absurd hd.symm (Nat.succ_ne_zero d)
  bits _ _ hbit := hbit
  position_eq := rfl

theorem twin_initial (hpattern : pattern ≠ []) (hdistance : 0 ≤ c.distance)
    (hthreshold : 0 ≤ threshold) (hle : threshold ≤ threshold') (hone : threshold' ≤ 1)
    (hmarks : c.needsMarks = true) :
    Twin (problem text pattern c) 0 (initial text pattern { c with threshold := threshold })
      (initial text pattern { c with threshold := threshold' }) where
  ready := @ready_initial text pattern { c with threshold := threshold } hpattern hdistance
    hthreshold
  ready' := @ready_initial text pattern { c with threshold := threshold' } hpattern hdistance
    (hthreshold.trans hle)
  sound := marksSound_exactMarks text pattern hmarks
  sound' := marksSound_exactMarks text pattern hmarks
  threshold_le := exactThreshold_mono hle
  reach_eq := rfl
  row_eq _ := rfl
  marks_eq _ := rfl
  covered := by
    rcases (@exactThreshold_mono text pattern c _ _ hle).eq_or_lt with heq | hlt
    · exact Or.inl heq.symm
    · exact Or.inr ⟨hlt.trans_le (exactThreshold_le.trans hone),
        fun d hd => absurd hd.symm (Nat.succ_ne_zero d)⟩

/-- **A search never loses a match under a greater threshold.** -/
theorem isMatch_locate_mono (hpattern : pattern ≠ []) (hdistance : 0 ≤ c.distance)
    (hthreshold : 0 ≤ threshold) (hle : threshold ≤ threshold') (hone : threshold' ≤ 1)
    (h : (locate text pattern { c with threshold := threshold }).isMatch = true) :
    (locate text pattern { c with threshold := threshold' }).isMatch = true := by
  have hproper := problem_proper text hpattern hdistance
  have hall : 0 + (problem text pattern c).length ≤ (problem text pattern c).length :=
    Nat.le_of_eq (Nat.zero_add _)
  rw [isMatch_locate_iff] at h ⊢
  refine ⟨isSome_scanRows_mono hproper hall
    (below_initial hpattern hdistance hthreshold hle) h.1, fun hmarks => ?_⟩
  refine runs_ne_nil_mono (fun k hk => ?_) (h.2 hmarks)
  rw [getElem?_toList_eq_some_true_iff] at hk ⊢
  exact mark_scanRows_mono hproper hall
    (twin_initial hpattern hdistance hthreshold hle hone hmarks) hk

end

end FuzzySearch.Bitap
