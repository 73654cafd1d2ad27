import FuzzySearch.Proofs.Calls
import FuzzySearch.Proofs.Pattern.Verbatim
import FuzzySearch.Proofs.Text.Case
import Mathlib.Data.List.Chain
import Mathlib.Data.List.Range

/-!
# The chunks of a pattern

The chunks of a pattern tile it (`Tiles`): each stands in the pattern where it begins, the first at
its beginning and the last at its end, and none begins behind the end of the one before.  So every
letter of the pattern is looked for.  Each chunk has letters and fits a word, hence none of the
checks that a match makes on its way can fail (`chunks_tile`).
-/

namespace FuzzySearch

open ScoreNumber

/-! ### Tilings -/

/-- Where a chunk ends in its pattern. -/
def Chunk.stop (chunk : Chunk) : Nat := chunk.start + chunk.letters.length

/-- Chunks that cover a pattern from its beginning to its end, in order and without a gap. -/
structure Tiles (letters : List Char) (parts : List Chunk) : Prop where
  stands : ∀ part ∈ parts, part.letters <+: letters.drop part.start
  begins : ∃ first ∈ parts.head?, first.start = 0
  ascends : parts.IsChain fun part next => part.start < next.start ∧ next.start ≤ part.stop
  ends : ∃ last ∈ parts.getLast?, last.stop = letters.length

/-- What lies between the beginning of the first and the end of the last of some chunks lies in one
of them, if there is no gap between them. -/
theorem exists_chunk_of_isChain {parts : List Chunk}
    (hchain : parts.IsChain fun part next => next.start ≤ part.stop) {i : Nat}
    (hbegin : ∃ first ∈ parts.head?, first.start ≤ i)
    (hend : ∃ last ∈ parts.getLast?, i < last.stop) :
    ∃ part ∈ parts, part.start ≤ i ∧ i < part.stop := by
  induction parts with
  | nil => simp at hbegin
  | cons part rest ih =>
    obtain ⟨_, ⟨⟩, hstart⟩ := hbegin
    rcases Nat.lt_or_ge i part.stop with hlt | hge
    · exact ⟨part, List.mem_cons_self, hstart, hlt⟩
    · cases rest with
      | nil =>
        obtain ⟨_, ⟨⟩, hlt⟩ := hend
        exact absurd hlt (Nat.not_lt.mpr hge)
      | cons next rest =>
        rw [List.isChain_cons_cons] at hchain
        rw [List.getLast?_cons_cons] at hend
        obtain ⟨found, hfound, hcovers⟩ := ih hchain.2 ⟨next, rfl, hchain.1.trans hge⟩ hend
        exact ⟨found, List.mem_cons_of_mem part hfound, hcovers⟩

/-- **Every letter of a pattern stands in one of the chunks that tile it.** -/
theorem Tiles.exists_chunk {letters : List Char} {parts : List Chunk} (h : Tiles letters parts)
    {i : Nat} {letter : Char} (hletter : letters[i]? = some letter) :
    ∃ part ∈ parts, part.start ≤ i ∧ part.letters[i - part.start]? = some letter := by
  obtain ⟨hi, -⟩ := List.getElem?_eq_some_iff.mp hletter
  obtain ⟨first, hfirst, hbegin⟩ := h.begins
  obtain ⟨last, hlast, hend⟩ := h.ends
  obtain ⟨part, hpart, hstart, hstop⟩ := exists_chunk_of_isChain
    (h.ascends.imp fun _ _ hnext => hnext.2) ⟨first, hfirst, hbegin.trans_le (Nat.zero_le i)⟩
    ⟨last, hlast, hi.trans_eq hend.symm⟩
  refine ⟨part, hpart, hstart, ?_⟩
  obtain ⟨rest, hrest⟩ := h.stands part hpart
  have hinside : i - part.start < part.letters.length := by
    unfold Chunk.stop at hstop
    omega
  rw [← List.getElem?_append_left hinside, hrest, List.getElem?_drop,
    Nat.add_sub_cancel' hstart, hletter]

/-! ### The chunks -/

/-- Where the chunks of a pattern of some size begin. -/
def chunkStarts (size : Nat) : List Nat :=
  if size ≤ Bitap.wordSize then [0]
  else (List.range (size / Bitap.wordSize)).map (Bitap.wordSize * ·) ++
    if size % Bitap.wordSize = 0 then [] else [size - Bitap.wordSize]

theorem chunks_eq {letters : List Char} (h : letters ≠ []) :
    chunks letters = (chunkStarts letters.length).map (Chunk.at letters) := by
  have hsize : letters.length ≠ 0 := fun hzero => h (List.length_eq_zero_iff.mp hzero)
  unfold chunks chunkStarts
  simp only [if_neg hsize]
  split_ifs with hfits hmod
  · rw [List.map_singleton, Chunk.at, List.drop_zero, List.take_of_length_le hfits]
  · rw [List.append_nil, List.map_map]
    rfl
  · rw [List.map_append, List.map_map]
    rfl

theorem Chunk.stop_at (letters : List Char) (start : Nat) :
    (Chunk.at letters start).stop = start + min Bitap.wordSize (letters.length - start) := by
  rw [Chunk.stop, Chunk.at, List.length_take, List.length_drop]

theorem head?_chunkStarts (size : Nat) : (chunkStarts size).head? = some 0 := by
  unfold chunkStarts
  split_ifs with hfits
  · rfl
  all_goals
    have hcount : size / Bitap.wordSize ≠ 0 := by
      unfold Bitap.wordSize at hfits ⊢
      omega
    simp [List.head?_range, hcount]

theorem getLast?_chunkStarts (size : Nat) :
    (chunkStarts size).getLast? = some (size - Bitap.wordSize) := by
  unfold chunkStarts
  split_ifs with hfits hmod
  · rw [Nat.sub_eq_zero_of_le hfits]
    rfl
  -- the last whole chunk ends with the pattern
  · have hlast : Bitap.wordSize * (size / Bitap.wordSize - 1) = size - Bitap.wordSize := by
      rw [Nat.mul_sub, Nat.mul_div_cancel' (Nat.dvd_of_mod_eq_zero hmod), Nat.mul_one]
    have hcount : size / Bitap.wordSize ≠ 0 := by
      unfold Bitap.wordSize at hfits ⊢
      omega
    rw [List.append_nil, List.getLast?_map, List.getLast?_range, if_neg hcount, Option.map_some,
      hlast]
  · simp

/-- A chunk begins behind the beginning of the one before, and not behind its end. -/
theorem isChain_chunkStarts (size : Nat) :
    (chunkStarts size).IsChain fun a b => a < b ∧ b ≤ a + Bitap.wordSize ∧ b ≤ size := by
  unfold chunkStarts
  split_ifs with hfits hmod
  · exact .singleton 0
  all_goals
    have hwhole : ((List.range (size / Bitap.wordSize)).map (Bitap.wordSize * ·)).IsChain
        fun a b => a < b ∧ b ≤ a + Bitap.wordSize ∧ b ≤ size := by
      rw [List.isChain_map, List.isChain_range]
      intro k hk
      unfold Bitap.wordSize at hk ⊢
      omega
  · rwa [List.append_nil]
  · rw [List.isChain_append]
    refine ⟨hwhole, .singleton _, ?_⟩
    intro a ha b hb
    obtain rfl : size - Bitap.wordSize = b := Option.some.inj hb
    rw [List.getLast?_map, List.getLast?_range] at ha
    obtain ⟨k, hk, rfl⟩ := Option.map_eq_some_iff.mp ha
    split_ifs at hk with hcount
    obtain rfl := Option.some.inj hk
    unfold Bitap.wordSize at hcount hfits hmod ⊢
    omega

theorem tiles_chunks {letters : List Char} (h : letters ≠ []) : Tiles letters (chunks letters) where
  stands part hpart := prefix_of_mem_chunks hpart
  begins := by
    rw [chunks_eq h, List.head?_map, head?_chunkStarts]
    exact ⟨_, rfl, rfl⟩
  ascends := by
    rw [chunks_eq h, List.isChain_map]
    apply (isChain_chunkStarts letters.length).imp
    rintro a b ⟨hlt, hgap, hsize⟩
    refine ⟨hlt, ?_⟩
    show b ≤ _
    rw [Chunk.stop_at]
    omega
  ends := by
    rw [chunks_eq h, List.getLast?_map, getLast?_chunkStarts]
    refine ⟨_, rfl, ?_⟩
    rw [Chunk.stop_at]
    omega

/-! ### Matches with all their checks -/

namespace FuzzyPattern

variable {α : Type} [ScoreNumber α]

/-- The mean of some scores, of which there has to be one. -/
def mean? (scores : List α) : Except SearchError α :=
  if scores = [] then .error .divisionByZero else .ok (mean (sum scores) scores.length)

/-- One result out of the results of the chunks, of which there has to be one if one is to match. -/
def tryCombine (includeSpans : Bool) (results : List (Comparison α)) :
    Except SearchError (Comparison α) :=
  let matched := results.filter (·.isMatch)
  if matched.isEmpty then .ok Comparison.failed
  else (mean? (results.map (·.score))).map fun score =>
    ⟨true, score, if includeSpans then matched.flatMap (·.spans) else []⟩

/-- The match of a pattern with all its checks: that each chunk fits a word and has letters, and
that there are scores to take the mean of. -/
def tryMatch (p : FuzzyPattern α) (text : List Char) : Except SearchError (Comparison α) :=
  let text := Text.fold p.options.caseSensitive text
  if p.letters = text then
    .ok ⟨true, zero, if p.options.includeMatches then [⟨0, (text.length : Int) - 1⟩] else []⟩
  else do
    let results ← (chunks p.letters).mapM fun chunk =>
      Bitap.search text chunk.letters (p.options.criteria chunk.start)
    tryCombine p.options.includeMatches results

theorem tryCombine_eq_ok (includeSpans : Bool) (results : List (Comparison α)) :
    tryCombine includeSpans results = .ok (combine includeSpans results) := by
  unfold tryCombine combine
  cases results with
  | nil => rfl
  | cons result rest =>
    have hmean : mean? ((result :: rest).map (·.score))
        = .ok (mean (sum ((result :: rest).map (·.score))) (result :: rest).length) := by
      rw [mean?, if_neg (by simp), List.length_map]
    simp only [hmean]
    split_ifs <;> rfl

/-- Every chunk can be searched for. -/
theorem search_chunk_eq_ok (text : List Char) {letters : List Char} {chunk : Chunk}
    (h : chunk ∈ chunks letters) (c : Bitap.Criteria α) :
    Bitap.search text chunk.letters c = .ok (Bitap.locate text chunk.letters c) := by
  apply Bitap.search_eq_ok text c (letters_ne_nil_of_mem_chunks h)
  rw [length_of_mem_chunks h]
  exact Nat.min_le_left _ _

/-- **No check of a match fails.** -/
theorem tryMatch_eq_ok (p : FuzzyPattern α) (text : List Char) :
    p.tryMatch text = .ok (p.matchLetters text) := by
  have hresults : (chunks p.letters).mapM (fun chunk => Bitap.search
        (Text.fold p.options.caseSensitive text) chunk.letters (p.options.criteria chunk.start))
      = .ok (p.chunkResults (Text.fold p.options.caseSensitive text)) :=
    mapM_eq_ok_map fun chunk hchunk => search_chunk_eq_ok _ hchunk _
  by_cases hsame : p.letters = Text.fold p.options.caseSensitive text
  · rw [tryMatch, matchLetters, if_pos hsame, if_pos hsame]
  · rw [tryMatch, matchLetters, if_neg hsame, if_neg hsame, hresults]
    exact tryCombine_eq_ok _ _

/-- **The chunks of a pattern tile it**: each stands in the pattern where it begins and has the
length of a word, or of the pattern if that is shorter; each begins behind the beginning of the one
before, but not behind its end; and the first begins and the last ends with the pattern.  So every
letter of the pattern is looked for, and no check of a match fails. -/
theorem chunks_tile {pattern : List Char} (hpattern : pattern ≠ []) (options : MatchOptions α) :
    let p := ofLetters pattern options
    let parts := chunks p.letters
    Tiles p.letters parts ∧
      (∀ part ∈ parts, part.letters.length = min Bitap.wordSize p.letters.length) ∧
      (∀ i letter, p.letters[i]? = some letter →
        ∃ part ∈ parts, part.start ≤ i ∧ part.letters[i - part.start]? = some letter) ∧
      ∀ text, p.tryMatch text = .ok (p.matchLetters text) := by
  intro p parts
  have hletters : p.letters ≠ [] := by
    have hlength : p.letters.length = _ := Text.length_fold options.caseSensitive pattern
    have hpos := List.length_pos_iff.mpr hpattern
    apply List.length_pos_iff.mp
    omega
  have htiles : Tiles p.letters parts := tiles_chunks hletters
  exact ⟨htiles, fun part hpart => length_of_mem_chunks hpart,
    fun i letter hletter => htiles.exists_chunk hletter, p.tryMatch_eq_ok⟩

/-- Seventeen letters that are twice as many when they are folded, so that they need two chunks. -/
theorem chunks_tile_dotted_letters :
    let p := ofLetters (List.replicate 17 '\u0130') (MatchOptions.standard : MatchOptions Rat)
    (∃ last ∈ (chunks p.letters).getLast?, last.start = 2 ∧ last.stop = 34) ∧
      p.tryMatch "i\u0307".toList = .ok (p.matchLetters "i\u0307".toList) := by
  intro p
  obtain ⟨htiles, hlength, -, hmatch⟩ := @chunks_tile Rat _ (List.replicate 17 '\u0130')
    (by decide) MatchOptions.standard
  have hsize : p.letters.length = 34 := by decide +kernel
  obtain ⟨last, hlast, hstop⟩ := htiles.ends
  have hword : last.letters.length = Bitap.wordSize :=
    (hlength last (List.mem_of_getLast? hlast)).trans (by rw [hsize]; rfl)
  have hbegin : last.stop = last.start + last.letters.length := rfl
  refine ⟨⟨last, hlast, ?_, hstop.trans hsize⟩, hmatch _⟩
  have hstart : last.stop = 34 := hstop.trans hsize
  rw [hbegin, hword] at hstart
  exact Nat.add_right_cancel hstart

end FuzzyPattern

end FuzzySearch
