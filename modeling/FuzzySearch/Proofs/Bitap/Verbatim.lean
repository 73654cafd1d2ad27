import FuzzySearch.Proofs.Bitap.Search

/-!
# A pattern that stands where it is expected

When the exact pattern stands at the expected position, its occurrence lowers the threshold to zero
before the first row.  The scan of that row may look at other occurrences on the right first, but it
goes on to the expected position and ends there (`sweep_of_hit_expected`), and no further row is
scanned.  So the search matches with the least score, whatever the threshold, the distance and the
other options are, unless matched runs have to be longer than the pattern (`locate_verbatim`).
-/

namespace FuzzySearch.Bitap

open ScoreNumber Text

/-! ### The sweep of a row -/

/-- **A sweep ends at the expected position** if it meets a match there and nothing could score
better. -/
theorem sweep_of_hit_expected {p : Problem} (hp : p.Proper) {errors : Nat}
    (herrors : errors ≤ p.length) {hit : Nat → Bool} (hhit : hit (p.expected + 1) = true)
    {j start : Nat} (hj : p.expected < j) (hstart : start ≤ p.expected + 1) {best : Best Rat}
    (hbest : best.threshold = p.score errors p.expected) :
    sweep p errors hit j start best
      = (⟨p.score errors p.expected, some p.expected, p.score errors p.expected⟩, p.expected) := by
  -- on the right of the expected position a match is refused, or accepted with the same score
  induction j generalizing start best with
  | zero => exact absurd hj (Nat.not_lt_zero _)
  | succ j ih =>
    rcases Nat.eq_or_lt_of_le (Nat.le_of_lt_succ hj) with hj | hj
    · subst hj
      rw [sweep_of_accepted p errors hit best hstart hhit hbest.ge, if_pos le_rfl]
    · have hworse : (p.score errors p.expected : Rat) ≤ p.score errors j := by
        apply score_mono hp le_rfl herrors
        rw [way_expected]
        exact Nat.zero_le _
      rcases sweep_cases p errors hit j start best with h | ⟨h, hno | ⟨hyes, hs⟩ | ⟨hyes, hs⟩⟩
      · omega
      · rw [sweep_of_not_hit p errors hit best h hno]
        exact ih hj hstart hbest
      · rw [sweep_of_rejected p errors hit best h hyes hs]
        exact ih hj hstart hbest
      · have hsame : (p.score errors j : Rat) = p.score errors p.expected :=
          le_antisymm (hs.trans hbest.le) hworse
        rw [sweep_of_accepted p errors hit best h hyes hs, if_neg (not_le.mpr hj)]
        apply ih hj _ hsame
        omega

/-! ### The threshold -/

/-- An occurrence at the start is among the occurrences. -/
theorem start_mem_occurrencesFrom {pattern text : List Char} (hpattern : pattern ≠ [])
    (pos : Nat) {skip : Nat} (h : pattern <+: text.drop skip) :
    pos + skip ∈ occurrencesFrom pattern pos skip text := by
  induction text generalizing pos skip with
  | nil =>
    rw [List.drop_nil] at h
    exact absurd (List.prefix_nil.mp h) hpattern
  | cons letter rest ih =>
    cases skip with
    | zero =>
      have hprefix : pattern.isPrefixOf (letter :: rest) = true :=
        List.isPrefixOf_iff_prefix.mpr h
      simp [occurrencesFrom, hprefix]
    | succ skip =>
      have hrest := ih (pos + 1) h
      rwa [occurrencesFrom, show pos + (skip + 1) = pos + 1 + skip by omega]

/-- The least of some numbers and a bound is at most each of the numbers. -/
theorem foldl_smaller_le_of_mem (f : Nat → Rat) {positions : List Nat} {i : Nat}
    (hi : i ∈ positions) (threshold : Rat) :
    positions.foldl (fun threshold i => smaller (f i) threshold) threshold ≤ f i := by
  induction positions generalizing threshold with
  | nil => exact absurd hi List.not_mem_nil
  | cons first rest ih =>
    rw [List.foldl_cons]
    rcases List.mem_cons.mp hi with rfl | hi
    · apply (foldl_smaller_le f rest _).trans
      rw [smaller_rat]
      exact min_le_left _ _
    · exact ih hi _

/-! ### The search -/

section

variable {text pattern : List Char} {c : Criteria Rat} {location : Nat}

theorem expected_of_prefix (hpattern : pattern ≠ []) (hlocation : c.location = location)
    (hoccurs : pattern <+: text.drop location) : (problem text pattern c).expected = location := by
  have hlength := hoccurs.length_le
  have hpos := List.length_pos_iff.mpr hpattern
  rw [List.length_drop] at hlength
  show (max 0 (min c.location (text.length : Int))).toNat = location
  omega

/-- An exact occurrence at the expected position leaves no room for errors. -/
theorem exactThreshold_of_prefix (hpattern : pattern ≠ []) (hdistance : 0 ≤ c.distance)
    (hthreshold : 0 ≤ c.threshold)
    (hoccurs : pattern <+: text.drop (problem text pattern c).expected) :
    exactThreshold text pattern c = 0 := by
  have hmem : (problem text pattern c).expected ∈ exactPositions text pattern c := by
    have hstart := start_mem_occurrencesFrom hpattern 0 hoccurs
    rwa [Nat.zero_add] at hstart
  apply le_antisymm
  · have hle := foldl_smaller_le_of_mem ((problem text pattern c).score 0) hmem c.threshold
    rwa [score_zero_expected] at hle
  · exact exactThreshold_nonneg hpattern hdistance hthreshold

end

section

variable {p : Problem} {text pattern : List Char}

/-- An occurrence at the expected position lies in the window of every row. -/
theorem occurrence_le_finish (hp : p.Reads text pattern) (hpattern : pattern ≠ [])
    (hoccurs : pattern <+: text.drop p.expected) (reach : Nat) :
    p.expected + p.length ≤ p.masks.size ∧ p.expected + p.length ≤ finish p reach := by
  have hpos : 0 < pattern.length := List.length_pos_iff.mpr hpattern
  have hlength : pattern.length ≤ text.length - p.expected := by
    simpa using hoccurs.length_le
  have hinside : p.expected + p.length ≤ p.masks.size := by
    rw [hp.size_masks, hp.length_eq]
    omega
  refine ⟨hinside, ?_⟩
  unfold finish
  split_ifs <;> omega

/-- The first row has a match at the expected position. -/
theorem hitAt_expected (hp : p.Reads text pattern) (hpattern : pattern ≠ [])
    (hoccurs : pattern <+: text.drop p.expected) (s : Progress Rat) :
    hitAt p (rowBits p 0 s) (p.expected + 1) = true := by
  have hpos : 0 < pattern.length := List.length_pos_iff.mpr hpattern
  have hlength := hp.length_eq
  obtain ⟨hinside, -⟩ := occurrence_le_finish hp hpattern hoccurs 0
  have hfits : Fits p (rowReach p 0 s) p.expected (p.length - 1 + 1) :=
    ⟨by omega, by omega, by omega⟩
  have hnear : Near 0 (lastLetters pattern (p.length - 1 + 1)) (text.drop p.expected) := by
    rw [Nat.sub_add_cancel (by omega), hlength, lastLetters_length, near_zero_iff]
    exact hoccurs
  rw [hitAt]
  apply testBit_rowBits_of_near hp (by omega) (rowComplete_zero _ _) _ (by omega) hfits hnear
  intro d hd
  exact absurd hd.symm (Nat.succ_ne_zero d)

/-- **The first row ends at the expected position**, and no other row is scanned. -/
theorem scanRows_of_prefix (hp : p.Reads text pattern) (hproper : p.Proper)
    (hoccurs : pattern <+: text.drop p.expected) {s : Progress Rat}
    (hthreshold : s.best.threshold = 0) :
    rowOutcome p 0 s = (⟨0, some p.expected, 0⟩, p.expected) ∧
      scanRows p p.length 0 s = scanRow p 0 s := by
  have hlength := hproper.length_pos
  have hpattern : pattern ≠ [] := by
    apply List.length_pos_iff.mp
    rwa [← hp.length_eq]
  obtain ⟨-, hfinish⟩ := occurrence_le_finish hp hpattern hoccurs (rowReach p 0 s)
  have houtcome : rowOutcome p 0 s = (⟨0, some p.expected, 0⟩, p.expected) := by
    have hsweep := sweep_of_hit_expected hproper (Nat.zero_le _)
      (hitAt_expected hp hpattern hoccurs s) (show p.expected < finish p (rowReach p 0 s) by omega)
      (show start p (rowReach p 0 s) ≤ p.expected + 1 by unfold start; omega)
      (show s.best.threshold = p.score 0 p.expected by rw [hthreshold, score_zero_expected])
    rwa [score_zero_expected] at hsweep
  refine ⟨houtcome, ?_⟩
  -- one error at the expected position is too much already
  have hbreak : (scanRow p 0 s).best.threshold < p.score 1 p.expected := by
    have hshare := share_lt_succ hproper 0
    rw [scanRow_best, houtcome, score_expected]
    simpa using hshare
  obtain ⟨rows, hrows⟩ : ∃ rows, p.length = rows + 1 := ⟨p.length - 1, by omega⟩
  rw [hrows, scanRows_succ, if_pos hbreak]

end

section

variable {text pattern : List Char} {c : Criteria Rat} {location : Nat}

/-- **A pattern that stands exactly where it is expected is found with the least score**, if matched
runs need not be longer than the pattern. -/
theorem locate_verbatim (hpattern : pattern ≠ []) (hdistance : 0 ≤ c.distance)
    (hthreshold : 0 ≤ c.threshold) (hlocation : c.location = location)
    (hoccurs : pattern <+: text.drop location) (hleast : c.minMatchLength ≤ pattern.length) :
    (locate text pattern c).isMatch = true ∧ (locate text pattern c).score = 1 / 1000 := by
  have hreads : (problem text pattern c).Reads text pattern := problem_reads text pattern c
  have hproper := problem_proper text hpattern hdistance
  rw [← expected_of_prefix hpattern hlocation hoccurs] at hoccurs
  have hexact := exactThreshold_of_prefix hpattern hdistance hthreshold hoccurs
  obtain ⟨houtcome, hrows⟩ :=
    scanRows_of_prefix (s := initial text pattern c) hreads hproper hoccurs hexact
  have hfinal : final text pattern c
      = scanRow (problem text pattern c) 0 (initial text pattern c) :=
    hrows
  have hbest : (final text pattern c).best = ⟨0, some (problem text pattern c).expected, 0⟩ := by
    rw [hfinal, scanRow_best, houtcome]
  constructor
  · rw [isMatch_locate_iff, hbest]
    refine ⟨rfl, fun hneeds => ?_⟩
    -- the characters of the occurrence are marked side by side
    rw [runs_ne_nil_iff]
    refine ⟨(problem text pattern c).expected, pattern.length, List.length_pos_iff.mpr hpattern,
      hleast, fun k hk => ?_⟩
    rw [List.getElem?_drop, getElem?_toList_eq_some_true_iff, hfinal,
      mark_scanRow_iff (marksSound_exactMarks text pattern hneeds), houtcome]
    have hmask := mask_ne_of_prefix hreads hoccurs hk
    obtain ⟨-, hfinish⟩ := occurrence_le_finish hreads hpattern hoccurs
      (rowReach (problem text pattern c) 0 (initial text pattern c))
    rw [hreads.length_eq] at hfinish
    exact Or.inr ⟨by omega, by omega, hmask⟩
  · rw [locate_eq, greater_rat, hbest, floorScore_rat]
    norm_num

end

end FuzzySearch.Bitap
