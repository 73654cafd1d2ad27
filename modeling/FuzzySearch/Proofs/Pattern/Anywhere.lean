import FuzzySearch.Pattern.Fuzzy
import FuzzySearch.Proofs.Bitap.Anywhere

/-!
# Fuzzy patterns that ignore positions

A fuzzy pattern is matched chunk by chunk.  `isMatch_combine` and `score_combine` say what the
results of the chunks make together, and `anywhere_matchLetters` what a pattern that ignores
positions decides: whether one of its chunks is close to the text in the sense of edit distance, and
how close its chunks are on average.
-/

namespace FuzzySearch

open ScoreNumber

/-! ### Chunks -/

/-- **A chunk is a part of its pattern** that has a word's length, or all letters if they are
fewer. -/
theorem of_mem_chunks {letters : List Char} {chunk : Chunk} (h : chunk ∈ chunks letters) :
    letters ≠ [] ∧
      ∃ start, start + min Bitap.wordSize letters.length ≤ letters.length ∧
        chunk = Chunk.at letters start := by
  have hword : 0 < Bitap.wordSize := by decide
  unfold chunks at h
  simp only at h
  split_ifs at h with hzero hfits hmod
  · simp at h
  · refine ⟨List.length_pos_iff.mp (Nat.pos_of_ne_zero hzero), 0, by omega, ?_⟩
    rw [List.mem_singleton.mp h, Chunk.at, List.drop_zero, List.take_of_length_le hfits]
  all_goals
    refine ⟨List.length_pos_iff.mp (Nat.pos_of_ne_zero hzero), ?_⟩
    -- the chunks that follow one another end inside the pattern
    have hwhole : ∀ c ∈ (List.range (letters.length / Bitap.wordSize)).map
        (fun k => Chunk.at letters (Bitap.wordSize * k)),
        ∃ start, start + min Bitap.wordSize letters.length ≤ letters.length ∧
          c = Chunk.at letters start := by
      intro c hc
      obtain ⟨k, hk, rfl⟩ := List.mem_map.mp hc
      have hle := Nat.mul_le_of_le_div _ _ _ (Nat.succ_le_of_lt (List.mem_range.mp hk))
      rw [Nat.succ_mul, Nat.mul_comm] at hle
      exact ⟨Bitap.wordSize * k, by omega, rfl⟩
  · exact hwhole chunk h
  · rcases List.mem_append.mp h with h | h
    · exact hwhole chunk h
    · exact ⟨letters.length - Bitap.wordSize, by omega, List.mem_singleton.mp h⟩

/-- A chunk stands in its pattern where it begins. -/
theorem prefix_of_mem_chunks {letters : List Char} {chunk : Chunk} (h : chunk ∈ chunks letters) :
    chunk.letters <+: letters.drop chunk.start := by
  obtain ⟨-, start, -, rfl⟩ := of_mem_chunks h
  exact List.take_prefix _ _

theorem length_of_mem_chunks {letters : List Char} {chunk : Chunk} (h : chunk ∈ chunks letters) :
    chunk.letters.length = min Bitap.wordSize letters.length := by
  obtain ⟨-, start, hstart, rfl⟩ := of_mem_chunks h
  rw [Chunk.at, List.length_take, List.length_drop]
  omega

/-- Every chunk has letters. -/
theorem letters_ne_nil_of_mem_chunks {letters : List Char} {chunk : Chunk}
    (h : chunk ∈ chunks letters) : chunk.letters ≠ [] := by
  have hword : 0 < Bitap.wordSize := by decide
  have hpos := List.length_pos_iff.mpr (of_mem_chunks h).1
  have hlength := length_of_mem_chunks h
  apply List.length_pos_iff.mp
  omega

/-! ### The result of all chunks -/

namespace FuzzyPattern

variable {α : Type} [ScoreNumber α]

/-- A pattern matches when one of its chunks does. -/
theorem isMatch_combine (includeSpans : Bool) (results : List (Comparison α)) :
    (combine includeSpans results).isMatch = true ↔ ∃ r ∈ results, r.isMatch = true := by
  simp only [combine, List.isEmpty_iff]
  split_ifs with h
  · rw [List.filter_eq_nil_iff] at h
    constructor
    · exact fun hfalse => Bool.noConfusion hfalse
    · rintro ⟨r, hr, hmatch⟩
      exact absurd hmatch (h r hr)
  all_goals
    obtain ⟨r, hr⟩ := List.exists_mem_of_ne_nil _ h
    exact ⟨fun _ => ⟨r, List.mem_filter.mp hr⟩, fun _ => rfl⟩

theorem score_combine {includeSpans : Bool} {results : List (Comparison α)}
    (h : (combine includeSpans results).isMatch = true) :
    (combine includeSpans results).score
      = mean (sum (results.map (·.score))) results.length := by
  simp only [combine] at h ⊢
  split_ifs at h ⊢ with hempty
  · exact Bool.noConfusion h
  all_goals rfl

end FuzzyPattern

/-! ### Patterns that ignore positions -/

/-- What a chunk adds to the score of its pattern when positions do not count: the share of its
letters that are in error where it comes closest to a text, but at least a thousandth; or one when
it does not come close enough. -/
def Chunk.cost (chunk : Chunk) (text : List Char) (threshold : Rat) : Rat :=
  if Bitap.Close text chunk.letters threshold then
    max (1 / 1000) ((Text.infixDistance chunk.letters text : Rat) / chunk.letters.length)
  else 1

namespace FuzzyPattern

/-- **A fuzzy pattern that ignores positions decides approximate matching of its chunks**: it
matches a text that is not the pattern itself exactly when a chunk is close to the text, and its
score is then the mean of the costs of its chunks. -/
theorem anywhere_matchLetters (pattern text : List Char) {options : MatchOptions Rat}
    (hanywhere : options.ignoreLocation = true) (hleast : options.minMatchLength = 1)
    (hthreshold : 0 ≤ options.threshold)
    (hne : Text.fold options.caseSensitive pattern ≠ Text.fold options.caseSensitive text) :
    let folded := Text.fold options.caseSensitive text
    let parts := chunks (Text.fold options.caseSensitive pattern)
    let result := (ofLetters pattern options).matchLetters text
    (result.isMatch = true ↔
        ∃ chunk ∈ parts, Bitap.Close folded chunk.letters options.threshold) ∧
      (result.isMatch = true →
        result.score
          = (parts.map fun chunk => chunk.cost folded options.threshold).sum / parts.length) := by
  intro folded parts result
  have hresult : result = combine options.includeMatches
      ((ofLetters pattern options).chunkResults folded) := if_neg hne
  have hresults : (ofLetters pattern options).chunkResults folded
      = parts.map fun chunk =>
          Bitap.locate folded chunk.letters (options.criteria chunk.start) := rfl
  rw [hresult, hresults]
  constructor
  · rw [isMatch_combine]
    simp only [List.mem_map, exists_exists_and_eq_and]
    refine exists_congr fun chunk => and_congr_right fun hchunk => ?_
    refine Bitap.isMatch_locate_anywhere (letters_ne_nil_of_mem_chunks hchunk) ?_ hthreshold
      hanywhere ?_
    · exact Int.natCast_nonneg options.distance
    · show (options.minMatchLength : Int) ≤ 1
      omega
  · intro hmatch
    rw [score_combine hmatch, List.map_map, List.length_map, sum_rat, mean_rat]
    refine congrArg (fun costs : List Rat => costs.sum / (parts.length : Rat))
      (List.map_congr_left fun chunk hchunk => ?_)
    exact Bitap.score_locate_anywhere (letters_ne_nil_of_mem_chunks hchunk)
      (Int.natCast_nonneg options.distance) hthreshold hanywhere

/-- One letter of four is missing. -/
theorem anywhere_matchLetters_missing_letter :
    let options : MatchOptions Rat := { MatchOptions.standard with ignoreLocation := true }
    let result := (ofLetters "Fuzy".toList options).matchLetters "so fuzzy".toList
    result.isMatch = true ∧ result.score = 1 / 4 := by
  intro options result
  obtain ⟨hmatch, hscore⟩ := @anywhere_matchLetters "Fuzy".toList "so fuzzy".toList options rfl rfl
    (by decide +kernel) (by decide +kernel)
  have hresult : result.isMatch = true :=
    hmatch.mpr ⟨⟨"fuzy".toList, 0⟩, by decide +kernel, by decide +kernel⟩
  refine ⟨hresult, (hscore hresult).trans ?_⟩
  decide +kernel

end FuzzyPattern

end FuzzySearch
