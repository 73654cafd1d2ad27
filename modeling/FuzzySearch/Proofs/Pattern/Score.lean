import FuzzySearch.Proofs.Bitap.Looks
import FuzzySearch.Proofs.Pattern.Anywhere

/-!
# The range of scores

The score of a fuzzy pattern that matches is the mean of the scores of its chunks, and a chunk scores
what its search looked at last.  `score_matchLetters`: the score is never negative, zero for identity
alone, and at most one unless a chunk was scored by a match that its search refused.  Such a match
may be further away than the accepted distance, and then its position alone is worth more than a full
point.
-/

namespace FuzzySearch

open ScoreNumber

/-! ### The score of a fuzzy pattern -/

/-- What a chunk adds to the score of its pattern. -/
def Chunk.points (chunk : Chunk) (text : List Char) (options : MatchOptions Rat) : Rat :=
  max (1 / 1000) (Bitap.lastScore text chunk.letters (options.criteria chunk.start))

/-- Whether the search for a chunk accepts what it looks at last. -/
def Chunk.EndsAccepted (chunk : Chunk) (text : List Char) (options : MatchOptions Rat) : Prop :=
  (Bitap.looks text chunk.letters (options.criteria chunk.start)).getLast?
    = (Bitap.acceptedLooks text chunk.letters (options.criteria chunk.start)).getLast?

instance (chunk : Chunk) (text : List Char) (options : MatchOptions Rat) :
    Decidable (chunk.EndsAccepted text options) :=
  inferInstanceAs (Decidable (_ = _))

theorem Chunk.points_le_one {chunk : Chunk} {text : List Char} {options : MatchOptions Rat}
    (hthreshold : options.threshold ≤ 1)
    (h : chunk.EndsAccepted text options ∨ options.ignoreLocation = true ∨ options.distance = 0) :
    chunk.points text options ≤ 1 := by
  refine max_le (by norm_num) (Bitap.lastScore_le_one hthreshold ?_)
  refine h.imp_right (Or.imp_right fun hzero => ?_)
  show (options.distance : Int) = 0
  rw [hzero, Nat.cast_zero]

/-- What the chunks of a pattern add up to. -/
def totalPoints (letters text : List Char) (options : MatchOptions Rat) : Rat :=
  ((chunks letters).map fun chunk => chunk.points text options).sum

/-- More points than chunks come from a chunk that adds more than one point. -/
theorem exists_points_of_lt_totalPoints {letters text : List Char} {options : MatchOptions Rat}
    (h : ((chunks letters).length : Rat) < totalPoints letters text options) :
    ∃ chunk ∈ chunks letters, 1 < chunk.points text options := by
  by_contra hno
  push Not at hno
  refine absurd h (not_lt.mpr ?_)
  have hsum := List.sum_le_card_nsmul _ (1 : Rat) (List.forall_mem_map.mpr hno)
  rwa [List.length_map, nsmul_eq_mul, mul_one] at hsum

namespace FuzzyPattern

theorem map_score_chunkResults (p : FuzzyPattern Rat) (text : List Char) :
    (p.chunkResults text).map (·.score)
      = (chunks p.letters).map fun chunk => chunk.points text p.options := by
  rw [chunkResults, List.map_map]
  exact List.map_congr_left fun chunk _ => Bitap.score_locate ..

theorem combine_eq_failed {α : Type} [ScoreNumber α] {includeSpans : Bool}
    {results : List (Comparison α)} (h : (combine includeSpans results).isMatch = false) :
    combine includeSpans results = Comparison.failed := by
  simp only [combine] at h ⊢
  split_ifs at h ⊢
  all_goals rfl

section

variable {p : FuzzyPattern Rat} {text : List Char}

/-- A match has the mean of the points of the chunks, and there are chunks. -/
theorem score_combine_chunkResults
    (h : (combine p.options.includeMatches (p.chunkResults text)).isMatch = true) :
    chunks p.letters ≠ [] ∧
      (combine p.options.includeMatches (p.chunkResults text)).score
        = totalPoints p.letters text p.options / (chunks p.letters).length := by
  constructor
  · obtain ⟨result, hresult, -⟩ := (isMatch_combine _ _).mp h
    obtain ⟨chunk, hchunk, -⟩ := List.mem_map.mp hresult
    exact List.ne_nil_of_mem hchunk
  · rw [score_combine h, map_score_chunkResults, sum_rat, mean_rat, chunkResults, List.length_map]
    rfl

/-- What is not identical scores at least the floor. -/
theorem floor_le_score_combine :
    1 / 1000 ≤ (combine p.options.includeMatches (p.chunkResults text)).score := by
  cases h : (combine p.options.includeMatches (p.chunkResults text)).isMatch with
  | false =>
    rw [combine_eq_failed h, Comparison.failed, one_rat]
    norm_num
  | true =>
    obtain ⟨hne, hscore⟩ := score_combine_chunkResults h
    have hlen : (0 : Rat) < (chunks p.letters).length := by
      exact_mod_cast List.length_pos_iff.mpr hne
    have hfloor := List.card_nsmul_le_sum
      ((chunks p.letters).map fun chunk => chunk.points text p.options) (1 / 1000 : Rat)
      (List.forall_mem_map.mpr fun chunk _ => le_max_left _ _)
    rw [List.length_map, nsmul_eq_mul, mul_comm] at hfloor
    rwa [hscore, le_div_iff₀ hlen]

/-- What scores above one matches, with more points than chunks. -/
theorem one_lt_score_combine_iff :
    1 < (combine p.options.includeMatches (p.chunkResults text)).score ↔
      (combine p.options.includeMatches (p.chunkResults text)).isMatch = true ∧
        ((chunks p.letters).length : Rat) < totalPoints p.letters text p.options := by
  cases h : (combine p.options.includeMatches (p.chunkResults text)).isMatch with
  | false =>
    rw [combine_eq_failed h, Comparison.failed, one_rat]
    exact iff_of_false (lt_irrefl 1) fun hfalse => Bool.noConfusion hfalse.1
  | true =>
    obtain ⟨hne, hscore⟩ := score_combine_chunkResults h
    have hlen : (0 : Rat) < (chunks p.letters).length := by
      exact_mod_cast List.length_pos_iff.mpr hne
    rw [hscore, one_lt_div hlen]
    exact (and_iff_right rfl).symm

end

/-- **The score of a fuzzy pattern is zero for identity and positive otherwise, and it is at most
one unless a chunk is scored by a match that its search refused.**  It exceeds one exactly when the
pattern matches and its chunks add up to more points than there are chunks. -/
theorem score_matchLetters (pattern text : List Char) {options : MatchOptions Rat}
    (hthreshold : options.threshold ≤ 1) :
    let letters := Text.fold options.caseSensitive pattern
    let folded := Text.fold options.caseSensitive text
    let result := (ofLetters pattern options).matchLetters text
    0 ≤ result.score ∧ (result.score = 0 ↔ letters = folded) ∧
      (1 < result.score ↔
        letters ≠ folded ∧ result.isMatch = true ∧
          ((chunks letters).length : Rat) < totalPoints letters folded options) ∧
      (1 < result.score →
        options.ignoreLocation = false ∧ options.distance ≠ 0 ∧
          ∃ chunk ∈ chunks letters,
            1 < chunk.points folded options ∧ ¬ chunk.EndsAccepted folded options) := by
  intro letters folded result
  by_cases heq : letters = folded
  · have hscore : result.score = 0 := by
      have hresult : result = { isMatch := true, score := zero, spans := _ } := if_pos heq
      rw [hresult, zero_rat]
    have hle : ¬ 1 < result.score := by
      rw [hscore]
      exact not_lt.mpr zero_le_one
    exact ⟨hscore.ge, iff_of_true hscore heq, iff_of_false hle fun h => h.1 heq,
      fun h => absurd h hle⟩
  · have hresult : result = combine options.includeMatches
        ((ofLetters pattern options).chunkResults folded) := if_neg heq
    have hfloor : 1 / 1000 ≤ result.score := by
      rw [hresult]
      exact @floor_le_score_combine (ofLetters pattern options) folded
    have hpos : 0 < result.score := lt_of_lt_of_le (by norm_num) hfloor
    have hone : 1 < result.score ↔ result.isMatch = true ∧
        ((chunks letters).length : Rat) < totalPoints letters folded options := by
      rw [hresult]
      exact @one_lt_score_combine_iff (ofLetters pattern options) folded
    refine ⟨hpos.le, iff_of_false hpos.ne' heq, hone.trans (and_iff_right heq).symm, fun h => ?_⟩
    obtain ⟨chunk, hchunk, hpoints⟩ := exists_points_of_lt_totalPoints (hone.mp h).2
    have hnot := fun h => not_le.mpr hpoints (Chunk.points_le_one hthreshold h)
    refine ⟨?_, fun hzero => hnot (Or.inr (Or.inr hzero)), chunk, hchunk, hpoints,
      fun haccepted => hnot (Or.inl haccepted)⟩
    exact Bool.eq_false_iff.mpr fun hanywhere => hnot (Or.inr (Or.inl hanywhere))

/-- A match with one letter too few is accepted, and its score is in range. -/
theorem score_matchLetters_missing_letter :
    let result := (ofLetters "Fuzy".toList (MatchOptions.standard : MatchOptions Rat)).matchLetters
      "a fuzzy".toList
    (0 : Rat) ≤ result.score ∧ result.score ≠ 0 ∧ result.score ≤ 1 := by
  intro result
  obtain ⟨hnonneg, hzero, -, hone⟩ := @score_matchLetters "Fuzy".toList "a fuzzy".toList
    MatchOptions.standard (by decide +kernel)
  refine ⟨hnonneg, fun h => absurd (hzero.mp h) (by decide +kernel), not_lt.mp fun h => ?_⟩
  obtain ⟨-, -, chunk, hchunk, -, haccepted⟩ := hone h
  have hchunks : chunks (Text.fold false "Fuzy".toList) = [⟨"fuzy".toList, 0⟩] := by decide +kernel
  obtain rfl := List.mem_singleton.mp (hchunks ▸ hchunk)
  exact haccepted (by decide +kernel)

/-- A letter is found next to its expected position.  The same letter two positions away was looked
at after it, and counts two full points. -/
theorem score_of_remote_letter :
    let options : MatchOptions Rat :=
      { (MatchOptions.standard : MatchOptions Rat) with
        location := 2, distance := 1, threshold := 1 }
    let result := (ofLetters "a".toList options).matchLetters "abba".toList
    options.threshold = 1 ∧ result.isMatch = true ∧ result.score = 2 := by
  decide +kernel

end FuzzyPattern

end FuzzySearch
