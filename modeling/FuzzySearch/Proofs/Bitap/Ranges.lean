import FuzzySearch.Proofs.Bitap.Bounds
import FuzzySearch.Proofs.Text.Occurrence

/-!
# The ranges of a search

The spans of a search are the maximal runs of its marks that are long enough.  The exact occurrences
are marked before the first row (`mark_exactMarks`), and no row takes a mark away, so an exact
occurrence that is long enough lies inside one span (`exists_run_of_exactPosition`).  Rows mark only
letters of the pattern (`mem_pattern_of_mark`), so a span covers nothing else
(`search_ranges`).
-/

namespace FuzzySearch.Bitap

open Text

/-! ### What is marked before the first row -/

theorem mark_foldl_setIfInBounds {ks : List Nat} {position i : Nat} {marks : Array Bool}
    (hi : i < marks.size)
    (h : marks.getD i false = true ∨ ∃ k ∈ ks, i = position + k) :
    (ks.foldl (fun marks k => marks.setIfInBounds (position + k) true) marks).getD i false
      = true := by
  induction ks generalizing marks with
  | nil => simpa using h
  | cons k ks ih =>
    have hset : (marks.setIfInBounds (position + k) true).getD i false = true ↔
        position + k = i ∨ marks.getD i false = true := by
      rw [getD_setIfInBounds]
      split_ifs with hhere
      · exact iff_of_true rfl (.inl hhere.1)
      · exact (or_iff_right fun heq => hhere ⟨heq, hi⟩).symm
    apply ih (hi.trans_eq Array.size_setIfInBounds.symm)
    rcases h with hmark | ⟨l, hl, rfl⟩
    · exact .inl (hset.mpr (.inr hmark))
    · rcases List.mem_cons.mp hl with rfl | hl
      · exact .inl (hset.mpr (.inl rfl))
      · exact .inr ⟨l, hl, rfl⟩

/-- An exact occurrence is marked from its first letter to its last. -/
theorem mark_markOccurrence {length position i : Nat} {marks : Array Bool} (hi : i < marks.size)
    (h : marks.getD i false = true ∨ position ≤ i ∧ i < position + length) :
    (markOccurrence length marks position).getD i false = true := by
  apply mark_foldl_setIfInBounds hi
  refine h.imp_right fun ⟨hle, hlt⟩ => ⟨i - position, List.mem_range.mpr ?_, ?_⟩
  all_goals omega

theorem mark_foldl_markOccurrence {length i : Nat} {positions : List Nat} {marks : Array Bool}
    (hi : i < marks.size)
    (h : marks.getD i false = true ∨
      ∃ position ∈ positions, position ≤ i ∧ i < position + length) :
    (positions.foldl (markOccurrence length) marks).getD i false = true := by
  induction positions generalizing marks with
  | nil => simpa using h
  | cons position positions ih =>
    apply ih (hi.trans_eq (size_foldl_setIfInBounds _ position marks).symm)
    rcases h with hmark | ⟨other, hother, hcovers⟩
    · exact .inl (mark_markOccurrence hi (.inl hmark))
    · rcases List.mem_cons.mp hother with rfl | hother
      · exact .inl (mark_markOccurrence hi (.inr hcovers))
      · exact .inr ⟨other, hother, hcovers⟩

variable {α : Type} {text pattern : List Char} {c : Criteria α}

/-- An exact occurrence ends inside the text. -/
theorem exactPosition_add_le {position : Nat} (h : position ∈ exactPositions text pattern c) :
    position + pattern.length ≤ text.length := by
  obtain ⟨-, hlt, hprefix⟩ := mem_exactPositions h
  have hlength := hprefix.length_le
  rw [List.length_drop] at hlength
  omega

/-- **The exact occurrences are marked before the first row.** -/
theorem mark_exactMarks (hc : c.needsMarks = true) {position i : Nat}
    (h : position ∈ exactPositions text pattern c) (hle : position ≤ i)
    (hlt : i < position + pattern.length) : (exactMarks text pattern c).getD i false = true := by
  have hend := exactPosition_add_le h
  rw [exactMarks, if_pos hc]
  apply mark_foldl_markOccurrence
  · rw [Array.size_replicate]
    omega
  · exact .inr ⟨position, h, hle, hlt⟩

/-! ### What is marked after the last row -/

variable [ScoreNumber α]

theorem marksSound_final (text pattern : List Char) {c : Criteria α} (hc : c.needsMarks = true) :
    MarksSound (problem text pattern c) (final text pattern c).marks := by
  have hinitial : MarksSound (problem text pattern c) (initial text pattern c).marks :=
    marksSound_exactMarks text pattern hc
  obtain ⟨-, -, hsound⟩ := @scanRows_induction α _ (problem text pattern c)
    (fun _ s => MarksSound (problem text pattern c) s.marks) _
    (fun errors _ _ hs => hs.scanRow errors) (problem text pattern c).length 0 _ le_rfl hinitial
  exact hsound

/-- What is marked is a letter of the pattern. -/
theorem mem_pattern_of_mark (hc : c.needsMarks = true) {i : Nat}
    (h : (final text pattern c).marks.getD i false = true) :
    ∃ letter ∈ pattern, text[i]? = some letter := by
  have hmask := (marksSound_final text pattern hc).mask_ne i h
  obtain ⟨k, hbit⟩ := Nat.exists_testBit_of_ne_zero hmask
  obtain ⟨-, letter, htext, hletter⟩ :=
    ((problem_reads text pattern c).testBit_mask i k).mp hbit
  exact ⟨letter, List.mem_of_getElem? hletter, htext⟩

/-- No row takes away the mark of an exact occurrence. -/
theorem mark_final_of_exactPosition (hc : c.needsMarks = true) {position i : Nat}
    (h : position ∈ exactPositions text pattern c) (hle : position ≤ i)
    (hlt : i < position + pattern.length) : (final text pattern c).marks.getD i false = true := by
  have hinitial : MarksSound (problem text pattern c) (initial text pattern c).marks :=
    marksSound_exactMarks text pattern hc
  exact mark_scanRows hinitial (mark_exactMarks hc h hle hlt) _ 0

/-! ### The ranges -/

theorem isMarked_final_iff {i : Int} :
    IsMarked (final text pattern c).marks.toList i ↔
      0 ≤ i ∧ (final text pattern c).marks.getD i.toNat false = true := by
  rw [IsMarked, getElem?_toList_eq_some_true_iff]

/-- An exact occurrence that is long enough lies inside one run. -/
theorem exists_run_of_exactPosition (hpattern : pattern ≠ []) (hc : c.needsMarks = true)
    (hleast : c.minMatchLength ≤ pattern.length) {position : Nat}
    (h : position ∈ exactPositions text pattern c) :
    ∃ s ∈ runs c.minMatchLength (final text pattern c).marks.toList,
      s.covers position ∧ s.covers (position + pattern.length - 1) := by
  have hlength := List.length_pos_iff.mpr hpattern
  apply exists_run_of_block
  · omega
  · intro i hle hlt
    exact isMarked_final_iff.mpr
      ⟨by omega, mark_final_of_exactPosition hc h (by omega) (by omega)⟩
  · omega

theorem spans_locate (hspans : c.includeSpans = true) :
    (locate text pattern c).spans
      = runs c.minMatchLength (final text pattern c).marks.toList := by
  have hc : c.needsMarks = true := by rw [Criteria.needsMarks, hspans, Bool.or_true]
  rw [locate_eq]
  show (if c.includeSpans = true then foundSpans text pattern c else []) = _
  rw [if_pos hspans, foundSpans, if_pos hc]

variable (text) in
/-- **The ranges of a search are justified.**  They are in order and do not touch; each lies inside
the text, is long enough and covers only letters of the pattern.  The exact occurrences from the
expected position on, in the order in which a search from left to right finds them, each lie inside
one of the ranges, unless the pattern itself is too short for a range. -/
theorem search_ranges (hpattern : pattern ≠ []) (hword : pattern.length ≤ wordSize)
    (hspans : c.includeSpans = true) :
    ∃ result, search text pattern c = .ok result ∧ Separated result.spans ∧
      (∀ s ∈ result.spans, s.Inside text.length ∧ c.minMatchLength ≤ s.last - s.first + 1 ∧
        ∀ i, s.covers i → ∃ letter ∈ pattern, text[i.toNat]? = some letter) ∧
      (c.minMatchLength ≤ pattern.length →
        ∃ starts, Scan pattern text (max 0 (min c.location text.length)).toNat starts ∧
          ∀ start ∈ starts, ∃ s ∈ result.spans,
            s.covers start ∧ s.covers (start + pattern.length - 1)) := by
  have hc : c.needsMarks = true := by rw [Criteria.needsMarks, hspans, Bool.or_true]
  refine ⟨_, search_eq_ok text c hpattern hword, ?_⟩
  rw [spans_locate hspans]
  refine ⟨separated_runs _ _, fun s hs => ⟨?_, ?_, ?_⟩, fun hleast => ?_⟩
  · rw [← size_marks_final text pattern hc, ← Array.length_toList]
    exact inside_of_mem_runs hs
  · exact (mem_runs_iff.mp hs).2
  · intro i hi
    have hmark := (mem_runs_iff.mp hs).1.marked i hi
    exact mem_pattern_of_mark hc (isMarked_final_iff.mp hmark).2
  · have hscan := @scan_occurrencesFrom pattern text hpattern 0 (problem text pattern c).expected
      text rfl
    rw [Nat.zero_add] at hscan
    exact ⟨_, hscan, fun start hstart => exists_run_of_exactPosition hpattern hc hleast hstart⟩

/-- In `xabcabax`, the second `ab` lies inside a range. -/
theorem search_ranges_second_occurrence :
    let c : Criteria Rat := ⟨0, 100, 3 / 5, false, 2, true, false⟩
    ∃ result, search "xabcabax".toList "ab".toList c = .ok result ∧ Separated result.spans ∧
      ∃ s ∈ result.spans, s.covers 4 ∧ s.covers 5 := by
  intro c
  obtain ⟨result, hsearch, hseparated, -, hfound⟩ :=
    @search_ranges Rat "xabcabax".toList "ab".toList c _ (by decide) (by decide) rfl
  obtain ⟨starts, hscan, hinside⟩ := hfound (by decide)
  obtain rfl := (scan_iff (by decide)).mp hscan
  exact ⟨result, hsearch, hseparated, hinside 4 (by decide)⟩

end FuzzySearch.Bitap
