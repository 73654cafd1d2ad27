import FuzzySearch.Proofs.Bitap.Threshold

/-!
# Where a run marks

A row marks what it scans, and how far it scans is steered by the matches it accepts.

* `mark_scanRows_within`: once a row stays within some reach, all later rows do, and nothing is
  marked that is further away from the expected position than that reach and one.
* `stop_le_of_passes` and `stop_le_stop`: the first row, under a greater threshold, is scanned at
  least as far to the left.  It sees the same matches within the lesser reach; a match that only the
  greater threshold accepts lies further away, and a scan goes on to the mirror image of a match.
-/

namespace FuzzySearch.Bitap

open ScoreNumber

/-! ### Comparing sweeps -/

section

variable {α : Type} [ScoreNumber α] (p : Problem) (errors : Nat)

/-- A sweep depends only on the matches below the vector where it begins. -/
theorem sweep_congr {hit hit' : Nat → Bool} {j : Nat} (h : ∀ l, l < j → hit (l + 1) = hit' (l + 1))
    (start : Nat) (best : Best α) :
    sweep p errors hit j start best = sweep p errors hit' j start best := by
  induction j generalizing start best with
  | zero => rfl
  | succ j ih =>
    have hrest := ih fun l hl => h l (Nat.lt_succ_of_lt hl)
    rw [sweep, sweep, h j (Nat.lt_succ_self j)]
    simp only [hrest]

/-- Vectors without a match on the right change nothing. -/
theorem sweep_of_no_hit_right {hit : Nat → Bool} {j j' start : Nat} (best : Best α)
    (hstart : start ≤ j + 1) (hj : j ≤ j') (hno : ∀ l, j ≤ l → hit (l + 1) = false) :
    sweep p errors hit j' start best = sweep p errors hit j start best := by
  induction j' with
  | zero => rw [Nat.le_zero.mp hj]
  | succ j' ih =>
    rcases Nat.eq_or_lt_of_le hj with rfl | hlt
    · rfl
    · rw [sweep_of_not_hit p errors hit best (by omega) (hno j' (by omega)), ih (by omega)]

end

section

variable {p : Problem} {errors : Nat}

/-- The scan of a window goes no further to the left than one step past the reach of the matches it
could accept. -/
theorem expected_le_sweep_stop {hit : Nat → Bool} {reach j start : Nat} {best : Best Rat}
    (hway : ∀ l, l < j → (p.score errors l : Rat) ≤ best.threshold → p.way l ≤ reach)
    (hstart : p.expected ≤ start + reach) (hj : p.expected ≤ j + reach + 1) :
    p.expected ≤ (sweep p errors hit j start best).2 + reach + 1 := by
  induction j generalizing start best with
  | zero => exact hj
  | succ j ih =>
    have hrest : ∀ l, l < j → (p.score errors l : Rat) ≤ best.threshold → p.way l ≤ reach :=
      fun l hl => hway l (Nat.lt_succ_of_lt hl)
    rcases sweep_cases p errors hit j start best with h | ⟨h, hhit | ⟨hhit, hs⟩ | ⟨hhit, hs⟩⟩
    · rwa [sweep_of_lt p errors hit best h]
    · rw [sweep_of_not_hit p errors hit best h hhit]
      exact ih hrest hstart (by omega)
    · rw [sweep_of_rejected p errors hit best h hhit hs]
      exact ih hrest hstart (by omega)
    -- an accepted match is within reach, and so is its mirror image, where the window begins now
    · have hwayj := hway j (Nat.lt_succ_self j) hs
      unfold Problem.way at hwayj
      rw [sweep_of_accepted p errors hit best h hhit hs]
      split_ifs with hle
      · show p.expected ≤ j + reach + 1
        omega
      · exact ih (fun l hl hscore => hrest l hl (hscore.trans hs)) (by omega) (by omega)

/-- A sweep under a greater threshold, and from a window that begins further to the left, stops no
earlier.  `reach` is how far the lesser threshold lets a match be accepted, and the matches so far
to the right and everywhere on the left are the same. -/
theorem sweep_stop_le_sweep_stop {hit hit' : Nat → Bool} {reach : Nat}
    (hhit : ∀ l, l ≤ p.expected + reach → hit (l + 1) = hit' (l + 1)) {j start' : Nat}
    {best best' : Best Rat}
    (hway : ∀ l, l < j → (p.way l ≤ reach ↔ (p.score errors l : Rat) ≤ best.threshold))
    (hstart : start' ≤ start p reach) (hthreshold : best.threshold ≤ best'.threshold) :
    (sweep p errors hit' j start' best').2 ≤ (sweep p errors hit j (start p reach) best).2 := by
  induction j generalizing start' best best' with
  | zero => exact Nat.le_refl 0
  | succ j ih =>
    have hrest := fun l hl => hway l (Nat.lt_succ_of_lt hl)
    rcases Nat.lt_or_ge (j + 1) (start p reach) with h | h
    · rw [sweep_of_lt p errors hit best h]
      exact sweep_stop_le p errors hit' (j + 1) start' best'
    · have h' : start' ≤ j + 1 := hstart.trans h
      by_cases hreach : p.way j ≤ reach
      · -- the same match, if there is one, and both accept it
        have hs := (hway j (Nat.lt_succ_self j)).mp hreach
        unfold Problem.way at hreach
        have hsame := hhit j (by omega)
        cases hj : hit (j + 1) with
        | false =>
          rw [sweep_of_not_hit p errors hit best h hj,
            sweep_of_not_hit p errors hit' best' h' (hsame.symm.trans hj)]
          exact ih hrest hstart hthreshold
        | true =>
          rw [sweep_of_accepted p errors hit best h hj hs,
            sweep_of_accepted p errors hit' best' h' (hsame.symm.trans hj) (hs.trans hthreshold),
            sweep_congr p errors fun l hl => hhit l (by omega)]
      · have hs : ¬ (p.score errors j : Rat) ≤ best.threshold :=
          fun hs => hreach ((hway j (Nat.lt_succ_self j)).mpr hs)
        have hright : p.expected + reach < j := by
          unfold start at h
          unfold Problem.way at hreach
          omega
        -- the first sweep goes on with the same threshold
        obtain ⟨best₁, hgo, hbest₁⟩ : ∃ best₁ : Best Rat,
            sweep p errors hit (j + 1) (start p reach) best
              = sweep p errors hit j (start p reach) best₁ ∧
            best₁.threshold = best.threshold := by
          cases hj : hit (j + 1) with
          | false => exact ⟨best, sweep_of_not_hit p errors hit best h hj, rfl⟩
          | true => exact ⟨_, sweep_of_rejected p errors hit best h hj hs, rfl⟩
        rw [hgo]
        have hgoes := fun start' best' => @ih start' best₁ best' (by rw [hbest₁]; exact hrest)
        rw [hbest₁] at hgoes
        rcases sweep_cases p errors hit' j start' best' with hlt | ⟨-, hj | ⟨hj, hs'⟩ | ⟨hj, hs'⟩⟩
        · omega
        · rw [sweep_of_not_hit p errors hit' best' h' hj]
          exact hgoes _ _ hstart hthreshold
        · rw [sweep_of_rejected p errors hit' best' h' hj hs']
          exact hgoes _ _ hstart hthreshold
        -- the window of the second sweep now begins at a mirror image that lies beyond the reach
        · rw [sweep_of_accepted p errors hit' best' h' hj hs', if_neg (by omega)]
          refine hgoes _ _ ?_ (le_of_lt (not_le.mp hs))
          unfold start
          omega

/-! ### Nothing is marked further away -/

/-- Before row `errors`: the row stays within a reach, and no later match could be further away. -/
structure Within (p : Problem) (reach errors : Nat) (s : Progress Rat) : Prop where
  reach_le : rowReach p errors s ≤ reach
  way_le : ∀ l, l ≤ p.span → (p.score errors l : Rat) ≤ s.best.threshold → p.way l ≤ reach

/-- The characters of the pattern that are within a reach, or one further to the left, or not
further to the right than a window of that reach. -/
def Inside (p : Problem) (reach i : Nat) : Prop :=
  p.expected ≤ i + reach + 1 ∧ i < finish p reach ∧ p.masks.getD i 0 ≠ 0

variable {s s' : Progress Rat} {reach : Nat}

theorem Ready.within (hp : p.Proper) (h : Ready p errors s) :
    Within p (rowReach p errors s) errors s :=
  ⟨Nat.le_refl _, fun _ hl hscore => (way_le_rowReach_iff hp h hl).mpr hscore⟩

theorem Within.scanRow (hp : p.Proper) (h : Within p reach errors s) (herr : errors < p.length) :
    Within p reach (errors + 1) (scanRow p errors s) where
  reach_le := by
    have hreach : rowReach p (errors + 1) (Bitap.scanRow p errors s)
        ≤ (Bitap.scanRow p errors s).reach := Bitap.reach_le _ _
    rw [scanRow_reach] at hreach
    exact hreach.trans h.reach_le
  way_le l hl hscore := by
    refine h.way_le l hl ?_
    calc (p.score errors l : Rat)
        ≤ p.score (errors + 1) l := score_mono hp (Nat.le_succ errors) herr.le (Nat.le_refl _)
      _ ≤ (Bitap.scanRow p errors s).best.threshold := hscore
      _ ≤ s.best.threshold := scanRow_threshold_le p errors s

/-- The row marks nothing further away. -/
theorem Within.inside (hp : p.Proper) (h : Within p reach errors s) {i : Nat}
    (hstop : (rowOutcome p errors s).2 ≤ i) (hi : i < finish p (rowReach p errors s))
    (hmask : p.masks.getD i 0 ≠ 0) : Inside p reach i := by
  refine ⟨?_, hi.trans_le (finish_mono p h.reach_le), hmask⟩
  have hreach := h.reach_le
  have hexpected := expected_le_finish hp (rowReach p errors s)
  have hleft : p.expected ≤ (rowOutcome p errors s).2 + reach + 1 := by
    refine expected_le_sweep_stop (fun l hl hscore => h.way_le l ?_ hscore) ?_ (by omega)
    · exact hl.le.trans (finish_le_span p _)
    · unfold start
      omega
  omega

/-- **A run marks nothing further away than its first row could reach.** -/
theorem mark_scanRows_within (hp : p.Proper) (hsound : MarksSound p s.marks)
    (h : Within p reach errors s) {remaining : Nat} (hsum : errors + remaining ≤ p.length) {i : Nat}
    (hi : (scanRows p remaining errors s).marks.getD i false = true) :
    s.marks.getD i false = true ∨ Inside p reach i := by
  obtain ⟨-, -, -, -, hmarks⟩ := scanRows_induction (p := p)
    (motive := fun errors t => Within p reach errors t ∧ MarksSound p t.marks ∧
      (t.marks.getD i false = true → s.marks.getD i false = true ∨ Inside p reach i))
    (fun errors t herr ⟨hwithin, hsound, hmarks⟩ => by
      refine ⟨hwithin.scanRow hp herr, hsound.scanRow errors, fun hmark => ?_⟩
      rcases (mark_scanRow_iff hsound errors i).mp hmark with hold | ⟨hstop, hlt, hmask⟩
      · exact hmarks hold
      · exact Or.inr (hwithin.inside hp hstop hlt hmask))
    hsum ⟨h, hsound, Or.inl⟩
  exact hmarks hi

/-! ### The first row -/

/-- The bits of the first row: the letters agree one by one, up to the end of the row. -/
theorem testBit_rowBits_zero (s : Progress Rat) (i k : Nat) :
    (rowBits p 0 s (i + 1)).testBit k = true ↔
      i + k < finish p (rowReach p 0 s) ∧
        ∀ c, c ≤ k → (p.masks.getD (i + c) 0).testBit (k - c) = true := by
  induction k generalizing i with
  | zero =>
    rcases Nat.lt_or_ge i (finish p (rowReach p 0 s)) with hi | hi
    · rw [rowBits_step p 0 s hi, testBit_cell]
      simp [hi]
    · exact ⟨fun h => absurd (lt_of_testBit_rowBits p 0 s hi h) (Nat.not_lt_zero _),
        fun h => by omega⟩
  | succ k ih =>
    rcases Nat.lt_or_ge i (finish p (rowReach p 0 s)) with hi | hi
    · rw [rowBits_step p 0 s hi, testBit_cell]
      constructor
      · rintro (⟨hright, hmask⟩ | ⟨hzero, -⟩)
        · obtain ⟨hlt, hletters⟩ := (ih (i + 1)).mp (hright.resolve_left (Nat.succ_ne_zero k))
          refine ⟨by omega, fun c hc => ?_⟩
          cases c with
          | zero => exact hmask
          | succ c =>
            rw [show i + (c + 1) = i + 1 + c by omega, show k + 1 - (c + 1) = k - c by omega]
            exact hletters c (by omega)
        · exact absurd rfl hzero
      · rintro ⟨hlt, hletters⟩
        refine Or.inl ⟨Or.inr ((ih (i + 1)).mpr ⟨by omega, fun c hc => ?_⟩), ?_⟩
        · have hletter := hletters (c + 1) (by omega)
          rwa [show i + (c + 1) = i + 1 + c by omega,
            show k + 1 - (c + 1) = k - c by omega] at hletter
        · exact hletters 0 (Nat.zero_le _)
    · exact ⟨fun h => absurd (lt_of_testBit_rowBits p 0 s hi h) (Nat.not_lt_zero _),
        fun h => by omega⟩

/-- The first row has no match past its window. -/
theorem hitAt_zero_of_finish_le (s : Progress Rat) {l : Nat}
    (hl : finish p (rowReach p 0 s) ≤ l) : hitAt p (rowBits p 0 s) (l + 1) = false := by
  refine Bool.eq_false_iff.mpr fun hhit => ?_
  obtain ⟨hlt, -⟩ := (testBit_rowBits_zero s l _).mp hhit
  omega

/-- The first row has the same matches up to the reach of a lesser one: they are exact, so they end
inside the text. -/
theorem hitAt_zero_congr (hp : p.Proper) (hreach : rowReach p 0 s ≤ rowReach p 0 s') {l : Nat}
    (hl : l ≤ p.expected + rowReach p 0 s) :
    hitAt p (rowBits p 0 s) (l + 1) = hitAt p (rowBits p 0 s') (l + 1) := by
  have hlength := hp.length_pos
  have hfinish := finish_mono p hreach
  rw [Bool.eq_iff_iff, hitAt, hitAt, testBit_rowBits_zero, testBit_rowBits_zero]
  refine and_congr_left fun hletters => ⟨fun hlt => by omega, fun _ => ?_⟩
  -- the last letter agrees with a character of the text, so the match ends inside it
  have hlast := hletters (p.length - 1) (Nat.le_refl _)
  have hinside : l + (p.length - 1) < p.masks.size := by
    refine lt_size_of_getD_ne fun hzero => ?_
    rw [hzero, Nat.zero_testBit] at hlast
    exact Bool.noConfusion hlast
  unfold finish
  split_ifs <;> omega

/-- If the lesser threshold accepts nothing in the first row, the greater one is scanned further to
the left than the lesser one reaches. -/
theorem stop_le_of_passes (hp : p.Proper) (h : Ready p 0 s)
    (hreach : rowReach p 0 s < rowReach p 0 s')
    (hpass : Passes p 0 (hitAt p (rowBits p 0 s)) (finish p (rowReach p 0 s))
      (start p (rowReach p 0 s)) s.best (rowOutcome p 0 s)) :
    (rowOutcome p 0 s').2 ≤ p.expected - (rowReach p 0 s + 1) := by
  rcases rowOutcome_cases p 0 s' with hpass' | ⟨l, hl⟩
  · rw [hpass'.stop_eq hp]
    omega
  · -- a match within the lesser reach would have been accepted under the lesser threshold
    have hway : rowReach p 0 s < p.way l := by
      by_contra hle
      have hle := Nat.le_of_not_lt hle
      have hspan := hl.lt.le.trans (finish_le_span p (rowReach p 0 s'))
      have hscore := (way_le_rowReach_iff hp h hspan).mp hle
      unfold Problem.way at hle
      have hhit : hitAt p (rowBits p 0 s) (l + 1) = true := by
        rw [hitAt_zero_congr hp hreach.le (by omega)]
        exact hl.hit
      refine hpass.refused l ?_ ?_ hhit hscore
      · unfold start
        omega
      · by_contra hge
        rw [hitAt_zero_of_finish_le s (Nat.le_of_not_lt hge)] at hhit
        exact Bool.noConfusion hhit
    have hstop := hl.stop
    unfold Problem.way at hway
    omega

/-- The first row is scanned at least as far to the left under a greater threshold. -/
theorem stop_le_stop (hp : p.Proper) (h : Ready p 0 s) (h' : Ready p 0 s')
    (hthreshold : s.best.threshold ≤ s'.best.threshold) :
    (rowOutcome p 0 s').2 ≤ (rowOutcome p 0 s).2 := by
  have hreach := rowReach_mono hp h h' hthreshold
  have hexpected := expected_le_finish hp (rowReach p 0 s)
  -- the lesser window can be taken as wide as the greater: it has no match past its end
  have hwide : rowOutcome p 0 s
      = sweep p 0 (hitAt p (rowBits p 0 s)) (finish p (rowReach p 0 s'))
          (start p (rowReach p 0 s)) s.best := by
    refine (sweep_of_no_hit_right p 0 s.best ?_ (finish_mono p hreach) fun l hl =>
      hitAt_zero_of_finish_le s hl).symm
    unfold start
    omega
  rw [hwide]
  refine sweep_stop_le_sweep_stop (fun l hl => hitAt_zero_congr hp hreach hl) (fun l hl => ?_)
    (start_anti p hreach) hthreshold
  exact way_le_rowReach_iff hp h (hl.le.trans (finish_le_span p _))

/-- After an exact match, matches with an error are closer to the expected position. -/
theorem way_lt_of_score_one_le {i l : Nat} (hp : p.Proper) (hone : (p.score 0 l : Rat) < 1)
    (hscore : (p.score 1 i : Rat) ≤ p.score 0 l) : p.way i < p.way l := by
  have hshare : (0 : Rat) < ((1 : Nat) : Rat) / p.length := by
    have hlen : (0 : Rat) < p.length := by exact_mod_cast hp.length_pos
    positivity
  cases hl : p.ignoreLocation with
  | true =>
    rw [score_anywhere hl, score_anywhere hl, Nat.cast_zero, zero_div] at hscore
    exact absurd hscore (not_le.mpr hshare)
  | false =>
    rw [score_located hl, Nat.cast_zero, zero_div] at hone
    rw [score_located hl, score_located hl, Nat.cast_zero, zero_div] at hscore
    by_cases hd : p.distance = 0
    · rw [if_pos hd] at hone
      rw [if_pos hd, if_pos hd] at hscore
      split_ifs at hone hscore
      · exact absurd hscore (not_le.mpr hshare)
      · exact absurd hscore (not_le.mpr zero_lt_one)
      all_goals exact absurd hone (lt_irrefl _)
    -- the error costs something, so the way has to be shorter
    · have hpos : (0 : Rat) < p.distance := by
        exact_mod_cast lt_of_le_of_ne hp.distance_nonneg (Ne.symm hd)
      rw [if_neg hd, if_neg hd, zero_add] at hscore
      have hlt : (p.way i : Rat) / p.distance < (p.way l : Rat) / p.distance := by linarith
      exact_mod_cast (div_lt_div_iff_of_pos_right hpos).mp hlt

end

end FuzzySearch.Bitap
