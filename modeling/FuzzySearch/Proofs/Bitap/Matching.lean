import FuzzySearch.Proofs.Bitap.Search

/-!
# Which matches are found

`Found` says that some part of the text is within fewer errors of the pattern than the pattern has
letters, and that its score passes the threshold.

* `found_of_isSome`: a search accepts a match only if there is one.  No row is needed in full for
  that: what a row sees of the one before is sound wherever the rows were cut.
* `isSome_of_found`: a search accepts a match if there is one, provided that one error is worth at
  least one step (`Slack`).  Then the window of a row is always wider by one than that of the next,
  so nothing that the next row needs lies outside it.

`located_search` puts them together for a search near an expected position.
-/

namespace FuzzySearch.Bitap

open ScoreNumber Text

/-- Some part of a text that begins at one of its characters is within fewer errors of a pattern
than the pattern has letters, and passes a threshold. -/
def Found (p : Problem) (text pattern : List Char) (threshold : Rat) : Prop :=
  ∃ e l, e < pattern.length ∧ l < text.length ∧ Near e pattern (text.drop l) ∧
    (p.score e l : Rat) ≤ threshold

theorem Found.mono {p : Problem} {text pattern : List Char} {threshold threshold' : Rat}
    (h : Found p text pattern threshold) (hle : threshold ≤ threshold') :
    Found p text pattern threshold' := by
  obtain ⟨e, l, he, hl, hnear, hscore⟩ := h
  exact ⟨e, l, he, hl, hnear, hscore.trans hle⟩

section

variable {p : Problem} {text pattern : List Char}

/-! ### What is accepted is there -/

/-- Before row `errors`: the last row is sound, and what was accepted is there. -/
structure RunSound (p : Problem) (text pattern : List Char) (threshold : Rat) (errors : Nat)
    (s : Progress Rat) : Prop where
  row : RowSound text pattern errors fun i => s.row.getD i 0
  threshold_le : s.best.threshold ≤ threshold
  found : s.best.position.isSome = true → Found p text pattern threshold

theorem RunSound.scanRow (hp : p.Reads text pattern) {threshold : Rat} {errors : Nat}
    {s : Progress Rat} (herr : errors < pattern.length)
    (h : RunSound p text pattern threshold errors s) :
    RunSound p text pattern threshold (errors + 1) (scanRow p errors s) where
  row := h.row.scanRow hp
  threshold_le := (scanRow_threshold_le p errors s).trans h.threshold_le
  found hsome := by
    rcases rowOutcome_cases p errors s with hpass | ⟨l, hl⟩
    · rw [scanRow_best, hpass.position_eq] at hsome
      exact h.found hsome
    · have hpattern : pattern ≠ [] := List.length_pos_iff.mp (by omega)
      have hnear := near_of_hitAt hp hpattern h.row hl.hit
      refine ⟨errors, l, herr, lt_length_of_near herr hnear, hnear, ?_⟩
      rw [← hl.threshold_eq, ← scanRow_best]
      exact (scanRow_threshold_le p errors s).trans h.threshold_le

/-- **A match is accepted only if there is one.** -/
theorem found_of_isSome (hp : p.Reads text pattern) {threshold : Rat} {s : Progress Rat}
    (h : RunSound p text pattern threshold 0 s)
    (hsome : (scanRows p p.length 0 s).best.position.isSome = true) :
    Found p text pattern threshold := by
  obtain ⟨rows, -, hsound⟩ := scanRows_induction (p := p)
    (motive := RunSound p text pattern threshold)
    (fun errors s herr hs => hs.scanRow hp (by rwa [← hp.length_eq]))
    (Nat.le_of_eq (Nat.zero_add p.length)) h
  exact hsound.found hsome

/-! ### What is there is accepted -/

/-- One error is worth at least one step: with one error less, a match that is one step further away
still passes. -/
def Slack (p : Problem) (threshold : Rat) : Prop :=
  ∀ e w, w + 1 ≤ p.span → (p.score (e + 1) (p.expected + w) : Rat) ≤ threshold →
    (p.score e (p.expected + w + 1) : Rat) ≤ threshold

/-- Before row `errors` of a run that has accepted nothing: the threshold is still the first, and the
last row reached as far as its errors allow. -/
structure Idle (p : Problem) (threshold : Rat) (errors : Nat) (s : Progress Rat) : Prop where
  ready : Ready p errors s
  position_eq : s.best.position = none
  threshold_eq : s.best.threshold = threshold
  le_reach : ∀ d, errors = d + 1 → ∀ w, w ≤ p.span →
    (p.score d (p.expected + w) : Rat) ≤ threshold → w ≤ s.reach

/-- Before row `errors` of a run that has accepted nothing: the last row is complete in its
window. -/
structure Quiet (p : Problem) (text pattern : List Char) (threshold : Rat) (errors : Nat)
    (s : Progress Rat) : Prop extends Idle p threshold errors s where
  complete : RowComplete p text pattern errors s.reach fun i => s.row.getD i 0

variable {threshold : Rat} {errors : Nat} {s : Progress Rat}

/-- A row that accepts nothing leaves the run idle. -/
theorem Idle.scanRow (hproper : p.Proper) (h : Idle p threshold errors s) (herr : errors < p.length)
    (hpass : Passes p errors (hitAt p (rowBits p errors s)) (finish p (rowReach p errors s))
      (start p (rowReach p errors s)) s.best (rowOutcome p errors s))
    (hexpected : (p.score (errors + 1) p.expected : Rat) ≤ threshold) :
    Idle p threshold (errors + 1) (scanRow p errors s) := by
  have hthreshold : (Bitap.scanRow p errors s).best.threshold = threshold := by
    rw [scanRow_best, hpass.threshold_eq, h.threshold_eq]
  refine ⟨h.ready.next hproper herr (by rwa [hthreshold]), ?_, hthreshold, ?_⟩
  · rw [scanRow_best, hpass.position_eq, h.position_eq]
  · intro d hd w hw hscore
    obtain rfl : errors = d := by omega
    rw [scanRow_reach, le_rowReach_iff hproper h.ready hw, h.threshold_eq]
    exact hscore

/-- A row accepts a match in reach that passes the threshold, or another one. -/
theorem Idle.isSome_scanRow (hproper : p.Proper) (h : Idle p threshold errors s) {l : Nat}
    (hl : l < p.masks.size) (hscore : (p.score errors l : Rat) ≤ threshold)
    (hhit : p.way l ≤ rowReach p errors s → l < finish p (rowReach p errors s) →
      hitAt p (rowBits p errors s) (l + 1) = true) :
    (Bitap.scanRow p errors s).best.position.isSome = true := by
  rw [← h.threshold_eq] at hscore
  have hway := (way_le_rowReach_iff hproper h.ready (hl.le.trans (size_le_span p))).mpr hscore
  obtain ⟨hstart, hfinish⟩ := mem_window hproper hway hl
  rw [scanRow_best]
  exact sweep_isSome_of_hit p errors _ hstart hfinish (hhit hway hfinish) hscore

/-- A property of the states of idle runs that every row keeps that accepts nothing. -/
structure IdleInvariant (p : Problem) (threshold : Rat) (motive : Nat → Progress Rat → Prop) :
    Prop where
  idle : ∀ errors s, motive errors s → Idle p threshold errors s
  next : ∀ errors s, errors < p.length → motive errors s →
    Passes p errors (hitAt p (rowBits p errors s)) (finish p (rowReach p errors s))
      (start p (rowReach p errors s)) s.best (rowOutcome p errors s) →
    (p.score (errors + 1) p.expected : Rat) ≤ threshold →
    motive (errors + 1) (Bitap.scanRow p errors s)

/-- A run comes to a row whose errors could pass the threshold unless it accepts something before;
so it accepts something if that row does. -/
theorem IdleInvariant.isSome_of_row {motive : Nat → Progress Rat → Prop}
    (hmotive : IdleInvariant p threshold motive) (hproper : p.Proper) {e l : Nat}
    (he : e < p.length) (hscore : (p.score e l : Rat) ≤ threshold)
    (last : ∀ s, motive e s → (Bitap.scanRow p e s).best.position.isSome = true)
    {remaining : Nat} (hsum : errors + remaining = p.length) (herr : errors ≤ e)
    (h : motive errors s) : (scanRows p remaining errors s).best.position.isSome = true := by
  induction remaining generalizing errors s with
  | zero => omega
  | succ remaining ih =>
    have hkeep := scanRows_isSome_of_scanRow p remaining errors s
    rcases Nat.eq_or_lt_of_le herr with rfl | hlt
    · exact hkeep (last s h)
    · rcases rowOutcome_cases p errors s with hpass | ⟨k, hk⟩
      · -- the run does not stop here: a match at the expected position costs no more than the one
        -- at `l`, even with the errors of the next row
        have hexpected : (p.score (errors + 1) p.expected : Rat) ≤ threshold := by
          refine (score_mono hproper hlt (by omega) ?_).trans hscore
          rw [way_expected]
          exact Nat.zero_le _
        have hkept := ((hmotive.idle errors s h).scanRow hproper (by omega) hpass
          hexpected).threshold_eq
        rw [scanRows_succ, if_neg (by rw [hkept]; exact not_lt.mpr hexpected)]
        exact ih (by omega) hlt (hmotive.next errors s (by omega) h hpass hexpected)
      · refine hkeep ?_
        rw [scanRow_best, hk.position_eq]
        rfl

/-- The first row of a run that accepts something is one that the run comes to idle. -/
theorem IdleInvariant.exists_accepts {motive : Nat → Progress Rat → Prop}
    (hmotive : IdleInvariant p threshold motive) {remaining : Nat}
    (hsum : errors + remaining = p.length) (h : motive errors s)
    (hsome : (scanRows p remaining errors s).best.position.isSome = true) :
    ∃ e s l, e < p.length ∧ motive e s ∧
      Accepts p e (hitAt p (rowBits p e s)) (finish p (rowReach p e s)) (rowOutcome p e s) l := by
  induction remaining generalizing errors s with
  | zero =>
    have hnone : (scanRows p 0 errors s).best.position = none := (hmotive.idle errors s h).position_eq
    rw [hnone] at hsome
    exact Bool.noConfusion hsome
  | succ remaining ih =>
    rcases rowOutcome_cases p errors s with hpass | ⟨l, hl⟩
    · have hidle := hmotive.idle errors s h
      rw [scanRows_succ] at hsome
      split_ifs at hsome with hbreak
      · rw [scanRow_best, hpass.position_eq, hidle.position_eq] at hsome
        exact Bool.noConfusion hsome
      · rw [scanRow_best, hpass.threshold_eq, hidle.threshold_eq, not_lt] at hbreak
        exact ih (by omega) (hmotive.next errors s (by omega) h hpass hbreak) hsome
    · exact ⟨errors, s, l, by omega, h, hl⟩

/-- The window of the row before is wider by one, or wide enough for everything. -/
theorem Quiet.wider (hproper : p.Proper) (hslack : Slack p threshold)
    (h : Quiet p text pattern threshold errors s) {d : Nat} (hd : errors = d + 1) :
    min (p.length + p.masks.size) (rowReach p errors s + 1) ≤ s.reach := by
  have hreach := rowReach_le h.ready
  have hscore := (le_rowReach_iff hproper h.ready hreach).mp (Nat.le_refl _)
  rw [h.threshold_eq] at hscore
  subst hd
  rcases Nat.lt_or_ge (rowReach p (d + 1) s) p.span with hlt | hge
  -- one step further away a match with one error less passes, so the row before reached there
  · exact (min_le_right _ _).trans (h.le_reach d rfl _ hlt (hslack d _ hlt hscore))
  · refine (min_le_left _ _).trans (h.le_reach d rfl _ (Nat.le_refl p.span) ?_)
    rw [Nat.le_antisymm hreach hge] at hscore
    have herr := h.ready.errors_le
    exact (score_mono hproper (Nat.le_succ d) (by omega) (Nat.le_refl _)).trans hscore

/-- A row of errors enough for a match that passes the threshold accepts it, or another one. -/
theorem Quiet.isSome_scanRow (hp : p.Reads text pattern) (hproper : p.Proper)
    (hslack : Slack p threshold) (h : Quiet p text pattern threshold errors s) {l : Nat}
    (hl : l < text.length) (hnear : Near errors pattern (text.drop l))
    (hscore : (p.score errors l : Rat) ≤ threshold) :
    (scanRow p errors s).best.position.isSome = true := by
  have hlen := hproper.length_pos
  have hlength := hp.length_eq
  have hl' : l < p.masks.size := by rwa [hp.size_masks]
  refine h.toIdle.isSome_scanRow hproper hl' hscore fun hway _ => ?_
  -- the whole pattern fits, for a window goes on for its length past the reach
  have hfits : Fits p (rowReach p errors s) l (pattern.length - 1 + 1) := by
    unfold Problem.way at hway
    exact ⟨by omega, by omega, hl'.le⟩
  rw [hitAt, hlength]
  refine testBit_rowBits_of_near hp hproper.expected_le h.complete
    (fun d hd => h.wider hproper hslack hd) (by omega) hfits ?_
  rwa [Nat.sub_add_cancel (by omega), lastLetters_length]

/-- A row that accepts nothing leaves the run quiet. -/
theorem Quiet.scanRow (hp : p.Reads text pattern) (hproper : p.Proper)
    (hslack : Slack p threshold) (h : Quiet p text pattern threshold errors s)
    (herr : errors < p.length)
    (hpass : Passes p errors (hitAt p (rowBits p errors s)) (finish p (rowReach p errors s))
      (start p (rowReach p errors s)) s.best (rowOutcome p errors s))
    (hexpected : (p.score (errors + 1) p.expected : Rat) ≤ threshold) :
    Quiet p text pattern threshold (errors + 1) (scanRow p errors s) where
  toIdle := h.toIdle.scanRow hproper herr hpass hexpected
  complete := h.complete.scanRow hp hproper.expected_le (fun _ hd => h.wider hproper hslack hd)
    (hpass.stop_eq hproper).le

/-- **A match is accepted if there is one.** -/
theorem isSome_of_found (hp : p.Reads text pattern) (hproper : p.Proper)
    (hslack : Slack p threshold) (h : Quiet p text pattern threshold 0 s)
    (hfound : Found p text pattern threshold) :
    (scanRows p p.length 0 s).best.position.isSome = true := by
  obtain ⟨e, l, he, hl, hnear, hscore⟩ := hfound
  rw [← hp.length_eq] at he
  have hquiet : IdleInvariant p threshold (Quiet p text pattern threshold) :=
    ⟨fun _ _ h => h.toIdle, fun _ _ herr h => h.scanRow hp hproper hslack herr⟩
  -- the run is quiet up to row `e`, or it has accepted something before
  exact hquiet.isSome_of_row hproper he hscore
    (fun _ h => h.isSome_scanRow hp hproper hslack hl hnear hscore) (Nat.zero_add _)
    (Nat.zero_le e) h

theorem slack_anywhere (hproper : p.Proper) (h : p.ignoreLocation = true) (threshold : Rat) :
    Slack p threshold := by
  intro e w _ hscore
  rw [score_anywhere h] at hscore ⊢
  exact (share_mono hproper (Nat.le_succ e)).trans hscore

/-- An error costs as much as a step when the distance is at least the number of letters. -/
theorem slack_located (hproper : p.Proper) (h : p.ignoreLocation = false)
    (hdistance : (p.length : Int) ≤ p.distance) (threshold : Rat) : Slack p threshold := by
  intro e w _ hscore
  have hlength := hproper.length_pos
  have hne : p.distance ≠ 0 := by omega
  rw [Nat.add_assoc]
  rw [score_located h, if_neg hne, way_add] at hscore ⊢
  refine le_trans ?_ hscore
  have hpos : (0 : Rat) < p.length := by exact_mod_cast hlength
  have hle : (p.length : Rat) ≤ p.distance := by exact_mod_cast hdistance
  -- a step costs `1 / distance`, an error `1 / length`
  have hstep : (1 : Rat) / p.distance ≤ 1 / p.length := one_div_le_one_div_of_le hpos hle
  push_cast
  rw [add_div, add_div]
  linarith

end

/-! ### Searches -/

section

variable {text pattern : List Char} {c : Criteria Rat}

theorem runSound_initial (text pattern : List Char) (c : Criteria Rat) :
    RunSound (problem text pattern c) text pattern c.threshold 0 (initial text pattern c) where
  row := rowSound_zero _
  threshold_le := exactThreshold_le
  found h := Bool.noConfusion h

theorem idle_initial (hpattern : pattern ≠ []) (hdistance : 0 ≤ c.distance)
    (hthreshold : 0 ≤ c.threshold) :
    Idle (problem text pattern c) (exactThreshold text pattern c) 0 (initial text pattern c) where
  ready := ready_initial hpattern hdistance hthreshold
  position_eq := rfl
  threshold_eq := rfl
  le_reach d hd := absurd hd.symm (Nat.succ_ne_zero d)

theorem quiet_initial (hpattern : pattern ≠ []) (hdistance : 0 ≤ c.distance)
    (hthreshold : 0 ≤ c.threshold) :
    Quiet (problem text pattern c) text pattern (exactThreshold text pattern c) 0
      (initial text pattern c) where
  toIdle := idle_initial hpattern hdistance hthreshold
  complete := rowComplete_zero _ _

/-- The exact occurrence that lowered the threshold passes it. -/
theorem found_exactThreshold (hpattern : pattern ≠ [])
    (h : Found (problem text pattern c) text pattern c.threshold) :
    Found (problem text pattern c) text pattern (exactThreshold text pattern c) := by
  rcases exactThreshold_eq text pattern c with heq | ⟨i, hi, hprefix, heq⟩
  · rwa [heq]
  · exact ⟨0, i, List.length_pos_iff.mpr hpattern, hi, (near_zero_iff _ _).mpr hprefix, heq.ge⟩

/-- **A search accepts a match only if there is one**, and if there is one when an error is worth at
least one step. -/
theorem isSome_final_iff (hpattern : pattern ≠ []) (hdistance : 0 ≤ c.distance)
    (hthreshold : 0 ≤ c.threshold)
    (hslack : Slack (problem text pattern c) (exactThreshold text pattern c)) :
    (final text pattern c).best.position.isSome = true ↔
      Found (problem text pattern c) text pattern c.threshold := by
  have hreads := problem_reads text pattern c
  constructor
  · exact found_of_isSome hreads (runSound_initial text pattern c)
  · intro hfound
    exact isSome_of_found hreads (problem_proper text hpattern hdistance) hslack
      (quiet_initial hpattern hdistance hthreshold) (found_exactThreshold hpattern hfound)

end

/-- Some part of a text that begins at one of its characters is within fewer errors of a pattern
than the pattern has letters, and its score near the expected position passes the threshold. -/
def FoundNear (text pattern : List Char) (c : Criteria Rat) : Prop :=
  ∃ e l : Nat, e < pattern.length ∧ l < text.length ∧
    (∃ part, part <+: text.drop l ∧ editDistance pattern part ≤ e) ∧
    (score pattern.length ⟨min c.location text.length, c.distance, false⟩ e l : Rat) ≤ c.threshold

theorem foundNear_iff {text pattern : List Char} {c : Criteria Rat} (hlocation : 0 ≤ c.location)
    (hignore : c.ignoreLocation = false) :
    FoundNear text pattern c ↔ Found (problem text pattern c) text pattern c.threshold := by
  have hexpected : (((problem text pattern c).expected : Nat) : Int)
      = min c.location text.length := by
    show (((max 0 (min c.location (text.length : Int))).toNat : Nat) : Int) = _
    omega
  unfold FoundNear Found Problem.score
  rw [hexpected, show (problem text pattern c).ignoreLocation = false from hignore]
  rfl

/-- **A search near an expected position reports a match only if there is one, and if there is one
when the distance is at least the number of letters of the pattern.** -/
theorem located_search (text : List Char) {pattern : List Char} {c : Criteria Rat}
    (hpattern : pattern ≠ []) (hword : pattern.length ≤ wordSize) (hlocation : 0 ≤ c.location)
    (hdistance : 0 ≤ c.distance) (hthreshold : 0 ≤ c.threshold)
    (hignore : c.ignoreLocation = false) (hleast : c.minMatchLength = 1) :
    ∃ result, search text pattern c = .ok result ∧
      (result.isMatch = true → FoundNear text pattern c) ∧
      ((pattern.length : Int) ≤ c.distance → FoundNear text pattern c →
        result.isMatch = true) := by
  refine ⟨locate text pattern c, ?_, ?_, ?_⟩
  · rw [search, if_neg (Nat.not_lt.mpr hword), if_neg hpattern]
  · rw [isMatch_locate text pattern hleast.le, foundNear_iff hlocation hignore]
    exact found_of_isSome (problem_reads text pattern c) (runSound_initial text pattern c)
  · intro hlength hfound
    rw [foundNear_iff hlocation hignore] at hfound
    rw [isMatch_locate text pattern hleast.le]
    refine (isSome_final_iff hpattern hdistance hthreshold ?_).mpr hfound
    exact slack_located (problem_proper text hpattern hdistance) hignore hlength _

/-- A letter too few is one error, at the expected position. -/
theorem located_search_missing_letter :
    ∃ result, search "the fuzzy one".toList "fuzy".toList
        (⟨4, 100, 1 / 2, false, 1, false, false⟩ : Criteria Rat) = .ok result ∧
      result.isMatch = true := by
  obtain ⟨result, hresult, -, hcomplete⟩ := @located_search "the fuzzy one".toList "fuzy".toList
    ⟨4, 100, 1 / 2, false, 1, false, false⟩ (by decide) (by decide) (by decide) (by decide)
    (by norm_num) rfl rfl
  refine ⟨result, hresult, hcomplete (by decide) ⟨1, 4, by decide, by decide, ?_, ?_⟩⟩
  · exact ⟨"fuzzy".toList, by decide, by decide +kernel⟩
  · decide +kernel

end FuzzySearch.Bitap
