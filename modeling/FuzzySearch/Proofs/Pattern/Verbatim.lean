import FuzzySearch.Proofs.Bitap.Verbatim
import FuzzySearch.Proofs.Pattern.Anywhere

/-!
# Verbatim patterns

When a text contains a pattern verbatim at the expected position, every chunk of the pattern stands
where it is expected, so each of them is found with the least score and so is the pattern
(`verbatim_matchLetters`).
-/

namespace FuzzySearch

open ScoreNumber

theorem chunks_ne_nil {letters : List Char} (h : letters ≠ []) : chunks letters ≠ [] := by
  have hpos := List.length_pos_iff.mpr h
  have hword : Bitap.wordSize = 32 := rfl
  unfold chunks
  simp only
  split_ifs with hzero hfits hmod
  · omega
  · exact List.cons_ne_nil _ _
  · have hcount : 0 < letters.length / Bitap.wordSize := Nat.div_pos (by omega) (by omega)
    simp [hcount.ne']
  · simp

/-- A part of an occurrence stands in the text as far on as in the pattern. -/
theorem prefix_drop_add {part letters text : List Char} {start location : Nat}
    (hpart : part <+: letters.drop start) (hoccurs : letters <+: text.drop location) :
    part <+: text.drop (location + start) := by
  obtain ⟨rest, hrest⟩ := hoccurs
  have hdrop : letters.drop start <+: text.drop (location + start) := by
    rw [← List.drop_drop, ← hrest]
    exact List.IsPrefix.drop (List.prefix_append letters rest) start
  exact hpart.trans hdrop

/-- The mean of numbers that are all the same. -/
theorem mean_of_forall_eq {scores : List Rat} {score : Rat} (hne : scores ≠ [])
    (h : ∀ x ∈ scores, x = score) : mean (sum scores) scores.length = score := by
  have hlength : (scores.length : Rat) ≠ 0 := by
    exact_mod_cast (List.length_pos_iff.mpr hne).ne'
  have hsum : scores.sum = scores.length * score := by
    rw [List.eq_replicate_of_mem h, List.sum_replicate, List.length_replicate, nsmul_eq_mul]
  rw [sum_rat, mean_rat, hsum]
  field_simp

namespace FuzzyPattern

/-- **A pattern that a text contains verbatim at the expected position is found perfectly**: each of
its chunks matches with the least score, and so does the pattern. -/
theorem verbatim_matchLetters (pattern text : List Char) {options : MatchOptions Rat}
    (hthreshold : 0 ≤ options.threshold)
    (hpattern : Text.fold options.caseSensitive pattern ≠ [])
    (hne : Text.fold options.caseSensitive pattern ≠ Text.fold options.caseSensitive text)
    (hoccurs : Text.fold options.caseSensitive pattern
      <+: (Text.fold options.caseSensitive text).drop options.location)
    (hleast : options.minMatchLength
      ≤ min Bitap.wordSize (Text.fold options.caseSensitive pattern).length) :
    let results := (ofLetters pattern options).chunkResults (Text.fold options.caseSensitive text)
    let result := (ofLetters pattern options).matchLetters text
    (∀ chunk ∈ results, chunk.isMatch = true ∧ chunk.score = 1 / 1000) ∧
      result.isMatch = true ∧ result.score = 1 / 1000 := by
  intro results result
  have hresult : result = combine options.includeMatches results := if_neg hne
  have hchunks : ∀ chunk ∈ results, chunk.isMatch = true ∧ chunk.score = 1 / 1000 := by
    intro outcome houtcome
    obtain ⟨chunk, hchunk, rfl⟩ := List.mem_map.mp houtcome
    have hplace : (options.criteria chunk.start).location
        = ((options.location + chunk.start : Nat) : Int) := by
      simp [MatchOptions.criteria]
    have hrun : (options.criteria chunk.start).minMatchLength ≤ chunk.letters.length := by
      rw [length_of_mem_chunks hchunk]
      exact Int.ofNat_le.mpr hleast
    apply Bitap.locate_verbatim (letters_ne_nil_of_mem_chunks hchunk)
      (Int.natCast_nonneg options.distance) hthreshold hplace _ hrun
    exact prefix_drop_add (prefix_of_mem_chunks hchunk) hoccurs
  have hresults : results ≠ [] := by
    intro hnil
    exact chunks_ne_nil hpattern (List.map_eq_nil_iff.mp hnil)
  have hmatch : result.isMatch = true := by
    rw [hresult, isMatch_combine]
    obtain ⟨first, hfirst⟩ := List.exists_mem_of_ne_nil _ hresults
    exact ⟨first, hfirst, (hchunks first hfirst).1⟩
  refine ⟨hchunks, hmatch, ?_⟩
  have hscores : ∀ x ∈ results.map (·.score), x = (1 / 1000 : Rat) := by
    intro x hx
    obtain ⟨chunk, hchunk, rfl⟩ := List.mem_map.mp hx
    exact (hchunks chunk hchunk).2
  rw [hresult] at hmatch ⊢
  have hmean := mean_of_forall_eq (by simpa using hresults) hscores
  rwa [List.length_map, ← score_combine hmatch] at hmean

/-- Two words, of which only the one behind the other copy is expected, without any tolerance. -/
theorem verbatim_matchLetters_longer_than_word :
    let options : MatchOptions Rat :=
      { (MatchOptions.standard : MatchOptions Rat) with
        includeMatches := true, minMatchLength := 32, location := 1, threshold := 0, distance := 0 }
    let result := (ofLetters "the quick brown fox jumps over it".toList options).matchLetters
      "-The Quick Brown Fox Jumps Over It, the quick brown fox jumps over it".toList
    result.isMatch = true ∧ result.score = 1 / 1000 := by
  intro options result
  exact (@verbatim_matchLetters "the quick brown fox jumps over it".toList
    "-The Quick Brown Fox Jumps Over It, the quick brown fox jumps over it".toList options
    (by decide +kernel) (by decide +kernel) (by decide +kernel) (by decide +kernel)
    (by decide +kernel)).2

end FuzzyPattern

end FuzzySearch
