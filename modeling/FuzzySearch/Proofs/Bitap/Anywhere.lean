import FuzzySearch.Proofs.Bitap.Matching

/-!
# Searches that ignore positions

When positions do not count, all matches of a row have the same score, the share of its errors.  So
the first row with a match is that of the least distance of the pattern to a part of the text
(`score_scanRows`), and a search decides whether that distance is small enough and scores it
(`isMatch_locate_anywhere`, `score_locate_anywhere`).
-/

namespace FuzzySearch.Bitap

open ScoreNumber Text

/-- Some part of a text is within fewer errors of a pattern than the pattern has letters, and the
share of those errors passes a threshold. -/
def Close (text pattern : List Char) (threshold : Rat) : Prop :=
  infixDistance pattern text < pattern.length ∧
    (infixDistance pattern text : Rat) / pattern.length ≤ threshold

instance (text pattern : List Char) (threshold : Rat) : Decidable (Close text pattern threshold) :=
  inferInstanceAs (Decidable (_ ∧ _))

section

variable {p : Problem} {text pattern : List Char}

/-- With positions ignored, a match is there exactly when the pattern is close to the text. -/
theorem found_anywhere_iff (hp : p.Reads text pattern) (hproper : p.Proper)
    (hanywhere : p.ignoreLocation = true) (threshold : Rat) :
    Found p text pattern threshold ↔ Close text pattern threshold := by
  have hlength := hp.length_eq
  constructor
  · rintro ⟨e, l, he, hl, hnear, hscore⟩
    have hle : infixDistance pattern text ≤ e := (infixDistance_le_iff e pattern text).mpr
      ⟨l, hl.le, hnear⟩
    rw [score_anywhere hanywhere] at hscore
    have hshare := share_mono hproper hle
    rw [hlength] at hshare hscore
    exact ⟨by omega, hshare.trans hscore⟩
  · rintro ⟨hlt, hshare⟩
    obtain ⟨l, -, hnear⟩ := (infixDistance_le_iff _ pattern text).mp (Nat.le_refl _)
    refine ⟨_, l, hlt, lt_length_of_near hlt hnear, hnear, ?_⟩
    rwa [score_anywhere hanywhere, hlength]

variable {threshold : Rat} {errors : Nat} {s : Progress Rat}

/-- A row of fewer errors than the least distance has no match and changes nothing. -/
theorem rowOutcome_of_lt_infixDistance (hp : p.Reads text pattern) (hpattern : pattern ≠ [])
    (hlast : RowSound text pattern errors fun i => s.row.getD i 0) (herr : errors < p.length)
    (hlt : errors < infixDistance pattern text) :
    rowOutcome p errors s
      = (s.best, min (finish p (rowReach p errors s)) (start p (rowReach p errors s) - 1)) := by
  refine sweep_of_no_hit p errors _ s.best fun l _ _ => Bool.eq_false_iff.mpr fun hhit => ?_
  have hnear := near_of_hitAt hp hpattern hlast hhit
  have hl := lt_length_of_near (by rwa [← hp.length_eq]) hnear
  have := (infixDistance_le_iff errors pattern text).mpr ⟨l, hl.le, hnear⟩
  omega

/-- The row of the least distance accepts a match, and nothing after it could be better. -/
theorem scanRow_infixDistance (hp : p.Reads text pattern) (hproper : p.Proper)
    (hanywhere : p.ignoreLocation = true)
    (h : Quiet p text pattern threshold (infixDistance pattern text) s)
    (hclose : Close text pattern threshold) :
    (scanRow p (infixDistance pattern text) s).best.threshold
        = (infixDistance pattern text : Rat) / pattern.length ∧
      (scanRow p (infixDistance pattern text) s).best.score
        = (infixDistance pattern text : Rat) / pattern.length := by
  obtain ⟨l, -, hnear⟩ := (infixDistance_le_iff _ pattern text).mp (Nat.le_refl _)
  have hl := lt_length_of_near hclose.1 hnear
  have hsome := h.isSome_scanRow hp hproper (slack_anywhere hproper hanywhere threshold) hl hnear
    (by rw [score_anywhere hanywhere, hp.length_eq]; exact hclose.2)
  rw [scanRow_best] at hsome ⊢
  rcases rowOutcome_cases p (infixDistance pattern text) s with hpass | ⟨k, hk⟩
  · rw [hpass.position_eq, h.position_eq] at hsome
    exact Bool.noConfusion hsome
  · obtain ⟨i, hi⟩ := hk.score_eq
    rw [hk.threshold_eq, hi, score_anywhere hanywhere, score_anywhere hanywhere, hp.length_eq]
    exact ⟨rfl, rfl⟩

/-- **A run ends with the share of the least distance, or with no match looked at.** -/
theorem score_scanRows (hp : p.Reads text pattern) (hproper : p.Proper)
    (hanywhere : p.ignoreLocation = true) {remaining : Nat}
    (h : Quiet p text pattern threshold errors s)
    (hlast : RowSound text pattern errors fun i => s.row.getD i 0) (hscore : s.best.score = 1)
    (herr : errors ≤ infixDistance pattern text) (hsum : errors + remaining = p.length) :
    (scanRows p remaining errors s).best.score
      = if Close text pattern threshold then (infixDistance pattern text : Rat) / pattern.length
        else 1 := by
  have hlength := hp.length_eq
  have hpattern : pattern ≠ [] := by
    have := hproper.length_pos
    exact List.length_pos_iff.mp (by omega)
  induction remaining generalizing errors s with
  | zero =>
    rw [if_neg fun hclose => by have := hclose.1; omega]
    exact hscore
  | succ remaining ih =>
    rw [scanRows_succ]
    -- the row of the least distance is the first to find anything, and the run stops after it
    rcases Nat.eq_or_lt_of_le herr with rfl | hlt
    · have hclose : Close text pattern threshold := by
        refine ⟨by omega, ?_⟩
        have hexpected := h.ready.expected
        rwa [score_anywhere hanywhere, hlength, h.threshold_eq] at hexpected
      obtain ⟨hthreshold, hbest⟩ := scanRow_infixDistance hp hproper hanywhere h hclose
      rw [if_pos hclose, if_pos]
      · exact hbest
      · rw [hthreshold, score_anywhere hanywhere, ← hlength]
        exact share_lt_succ hproper _
    · have houtcome := rowOutcome_of_lt_infixDistance hp hpattern hlast (by omega) hlt
      have hpass := (rowOutcome_cases p errors s).resolve_right <| by
        rintro ⟨l, hl⟩
        have hposition := hl.position_eq
        rw [houtcome, h.position_eq] at hposition
        exact Option.noConfusion rfl (heq_of_eq hposition)
      have hbest : (scanRow p errors s).best = s.best := by rw [scanRow_best, houtcome]
      split_ifs with hbreak hclose hclose
      · -- the next row is out of reach, and so is that of the least distance
        rw [hbest, h.threshold_eq, score_anywhere hanywhere, hlength] at hbreak
        have hshare := share_mono hproper (Nat.succ_le_of_lt hlt)
        rw [hlength] at hshare
        exact absurd (hshare.trans hclose.2) (not_le.mpr hbreak)
      · rw [hbest, hscore]
      all_goals
        rw [hbest, h.threshold_eq, not_lt] at hbreak
        rw [ih (h.scanRow hp hproper (slack_anywhere hproper hanywhere threshold) (by omega) hpass
          hbreak) (hlast.scanRow hp) (by rw [hbest, hscore]) hlt (by omega)]
      · rw [if_pos hclose]
      · rw [if_neg hclose]

end

section

variable {text pattern : List Char} {c : Criteria Rat}

/-- **A search that ignores positions matches exactly when the pattern is close to the text.** -/
theorem isMatch_locate_anywhere (hpattern : pattern ≠ []) (hdistance : 0 ≤ c.distance)
    (hthreshold : 0 ≤ c.threshold) (hanywhere : c.ignoreLocation = true)
    (hleast : c.minMatchLength ≤ 1) :
    (locate text pattern c).isMatch = true ↔ Close text pattern c.threshold := by
  have hproper := problem_proper text hpattern hdistance
  rw [isMatch_locate text pattern hleast, isSome_final_iff hpattern hdistance hthreshold
    (slack_anywhere hproper hanywhere _)]
  exact found_anywhere_iff (problem_reads text pattern c) hproper hanywhere c.threshold

/-- The exact occurrences change nothing about what is close. -/
theorem close_exactThreshold_iff (hpattern : pattern ≠ []) (hdistance : 0 ≤ c.distance)
    (hanywhere : c.ignoreLocation = true) :
    Close text pattern (exactThreshold text pattern c) ↔ Close text pattern c.threshold := by
  have hproper := problem_proper text hpattern hdistance
  have hiff := found_anywhere_iff (problem_reads text pattern c) hproper hanywhere
  rw [← hiff, ← hiff]
  exact ⟨fun h => h.mono exactThreshold_le, found_exactThreshold hpattern⟩

/-- **Its score is the share of the least distance, but at least the floor, or one.** -/
theorem score_locate_anywhere (hpattern : pattern ≠ []) (hdistance : 0 ≤ c.distance)
    (hthreshold : 0 ≤ c.threshold) (hanywhere : c.ignoreLocation = true) :
    (locate text pattern c).score
      = if Close text pattern c.threshold then
          max (1 / 1000) ((infixDistance pattern text : Rat) / pattern.length)
        else 1 := by
  have hreads := problem_reads text pattern c
  have hscore := score_scanRows hreads (problem_proper text hpattern hdistance) hanywhere
    (quiet_initial hpattern hdistance hthreshold) (rowSound_zero _) one_rat (Nat.zero_le _)
    (Nat.zero_add (problem text pattern c).length)
  rw [locate_eq, greater_rat]
  show max (floorScore : Rat) (final text pattern c).best.score = _
  rw [floorScore_rat, final, hscore]
  by_cases hclose : Close text pattern c.threshold
  · rw [if_pos ((close_exactThreshold_iff hpattern hdistance hanywhere).mpr hclose),
      if_pos hclose]
  · rw [if_neg fun h => hclose ((close_exactThreshold_iff hpattern hdistance hanywhere).mp h),
      if_neg hclose]
    norm_num

end

end FuzzySearch.Bitap
