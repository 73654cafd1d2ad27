import FuzzySearch.Proofs.Bitap.Alignment
import FuzzySearch.Proofs.Bitap.Exact
import FuzzySearch.Proofs.Bitap.Runs

/-!
# The run of a search

A search is a run of rows (`locate_eq`) that begins with the state that the exact occurrences leave:
they lower the threshold and mark the characters they cover.

* `exactThreshold_eq`: the threshold is lowered, if at all, to the score of an exact occurrence.
* `marksSound_exactMarks`, `marked_initial`, `ready_initial`: what a run keeps from row to row holds
  at its beginning.
* `isMatch_locate`: with single marks counting, the marks never refuse a match.
-/

namespace FuzzySearch.Bitap

open ScoreNumber Text

variable {α : Type}

/-! ### The data of a search -/

section data

variable (text pattern : List Char) (c : Criteria α)

/-- The fixed data of a search. -/
def problem : Problem where
  length := pattern.length
  masks := (text.map (letterMask pattern)).toArray
  expected := (max 0 (min c.location text.length)).toNat
  distance := c.distance
  ignoreLocation := c.ignoreLocation
  findAll := c.findAll

/-- Whether a search keeps marks. -/
def Criteria.needsMarks (c : Criteria α) : Bool := 1 < c.minMatchLength || c.includeSpans

/-- The exact occurrences from the expected position on. -/
def exactPositions : List Nat := occurrences pattern text (problem text pattern c).expected

theorem problem_reads : (problem text pattern c).Reads text pattern := ⟨rfl, rfl⟩

theorem size_masks_problem : (problem text pattern c).masks.size = text.length :=
  (problem_reads text pattern c).size_masks

theorem expected_le : (problem text pattern c).expected ≤ (problem text pattern c).masks.size := by
  rw [size_masks_problem]
  show (max 0 (min c.location (text.length : Int))).toNat ≤ text.length
  omega

variable {pattern c} in
/-- A pattern with letters and a distance that is not negative make a proper problem. -/
theorem problem_proper (hpattern : pattern ≠ []) (hdistance : 0 ≤ c.distance) :
    (problem text pattern c).Proper where
  length_pos := List.length_pos_iff.mpr hpattern
  expected_le := expected_le text pattern c
  distance_nonneg := hdistance

end data

/-! ### Exact occurrences -/

theorem mem_occurrencesFrom {pattern text : List Char} {pos skip i : Nat}
    (h : i ∈ occurrencesFrom pattern pos skip text) :
    pos + skip ≤ i ∧ i < pos + text.length ∧ pattern <+: text.drop (i - pos) := by
  induction text generalizing pos skip with
  | nil => simp [occurrencesFrom] at h
  | cons c rest ih =>
    -- an occurrence in the rest is one in the text
    have hrest : ∀ {skip' : Nat}, i ∈ occurrencesFrom pattern (pos + 1) skip' rest →
        pos + 1 + skip' ≤ i ∧ i < pos + (c :: rest).length ∧
          pattern <+: (c :: rest).drop (i - pos) := by
      intro skip' hi
      obtain ⟨hle, hlt, hprefix⟩ := ih hi
      refine ⟨hle, by rw [List.length_cons]; omega, ?_⟩
      rwa [show i - pos = i - (pos + 1) + 1 by omega, List.drop_succ_cons]
    cases skip with
    | succ skip =>
      rw [occurrencesFrom] at h
      obtain ⟨hle, hi⟩ := hrest h
      exact ⟨by omega, hi⟩
    | zero =>
      rw [occurrencesFrom] at h
      split_ifs at h with hprefix
      · rcases List.mem_cons.mp h with rfl | h
        · refine ⟨Nat.le_refl _, by rw [List.length_cons]; omega, ?_⟩
          rw [Nat.sub_self]
          exact List.isPrefixOf_iff_prefix.mp hprefix
        · obtain ⟨hle, hi⟩ := hrest h
          exact ⟨by omega, hi⟩
      · obtain ⟨hle, hi⟩ := hrest h
        exact ⟨by omega, hi⟩

/-- The exact occurrences stand at or behind the expected position. -/
theorem mem_exactPositions {text pattern : List Char} {c : Criteria α} {i : Nat}
    (h : i ∈ exactPositions text pattern c) :
    (problem text pattern c).expected ≤ i ∧ i < text.length ∧ pattern <+: text.drop i := by
  obtain ⟨hle, hlt, hprefix⟩ := mem_occurrencesFrom h
  rw [Nat.zero_add] at hle hlt
  exact ⟨hle, hlt, hprefix⟩

variable [ScoreNumber α]

/-! ### A search as a run -/

section run

variable (text pattern : List Char) (c : Criteria α)

/-- The threshold that the exact occurrences leave. -/
def exactThreshold : α :=
  (exactPositions text pattern c).foldl
    (fun threshold position => smaller ((problem text pattern c).score 0 position) threshold)
    c.threshold

/-- The marks that the exact occurrences leave. -/
def exactMarks : Array Bool :=
  if c.needsMarks then
    (exactPositions text pattern c).foldl (markOccurrence pattern.length)
      (Array.replicate text.length false)
  else #[]

/-- The state before the first row. -/
def initial : Progress α where
  best := ⟨exactThreshold text pattern c, none, one⟩
  reach := pattern.length + text.length
  row := #[]
  marks := exactMarks text pattern c

/-- The state after the last row. -/
def final : Progress α :=
  scanRows (problem text pattern c) (problem text pattern c).length 0 (initial text pattern c)

/-- The spans that a search finds in its marks. -/
def foundSpans : List Span :=
  if c.needsMarks then runs c.minMatchLength (final text pattern c).marks.toList else []

variable {pattern} in
/-- A search for a pattern that has letters and fits a word succeeds. -/
theorem search_eq_ok (hpattern : pattern ≠ []) (hword : pattern.length ≤ wordSize) :
    search text pattern c = .ok (locate text pattern c) := by
  rw [search, if_neg (Nat.not_lt.mpr hword), if_neg hpattern]

/-- **A search is the outcome of a run.** -/
theorem locate_eq :
    locate text pattern c =
      { isMatch := (final text pattern c).best.position.isSome &&
          (!c.needsMarks || !(foundSpans text pattern c).isEmpty)
        score := greater floorScore (final text pattern c).best.score
        spans := if c.includeSpans then foundSpans text pattern c else [] } :=
  rfl

/-- The answer that the state after the last row gives. -/
def Progress.answer (s : Progress α) : Comparison α :=
  let spans := if c.needsMarks then runs c.minMatchLength s.marks.toList else []
  { isMatch := s.best.position.isSome && (!c.needsMarks || !spans.isEmpty)
    score := greater floorScore s.best.score
    spans := if c.includeSpans then spans else [] }

theorem locate_eq_answer : locate text pattern c = (final text pattern c).answer c := rfl

end run

/-! ### The marks of exact occurrences -/

theorem getD_foldl_setIfInBounds {ks : List Nat} {position i : Nat} {marks : Array Bool}
    (h : (ks.foldl (fun marks k => marks.setIfInBounds (position + k) true) marks).getD i false
      = true) :
    marks.getD i false = true ∨ ∃ k ∈ ks, i = position + k := by
  induction ks generalizing marks with
  | nil => exact Or.inl h
  | cons k ks ih =>
    rcases ih h with hmark | ⟨k', hk', rfl⟩
    · rw [getD_setIfInBounds] at hmark
      split_ifs at hmark with hi
      · exact Or.inr ⟨k, List.mem_cons_self .., hi.1.symm⟩
      · exact Or.inl hmark
    · exact Or.inr ⟨k', List.mem_cons_of_mem _ hk', rfl⟩

theorem size_foldl_setIfInBounds (ks : List Nat) (position : Nat) (marks : Array Bool) :
    (ks.foldl (fun marks k => marks.setIfInBounds (position + k) true) marks).size
      = marks.size := by
  induction ks generalizing marks with
  | nil => rfl
  | cons k ks ih => exact (ih _).trans Array.size_setIfInBounds

/-- The letters of an exact occurrence occur in the pattern. -/
theorem mask_ne_of_prefix {p : Problem} {text pattern : List Char} (hp : p.Reads text pattern)
    {i k : Nat} (h : pattern <+: text.drop i) (hk : k < pattern.length) :
    p.masks.getD (i + k) 0 ≠ 0 := by
  obtain ⟨rest, hrest⟩ := h
  have hletter : text[i + k]? = some pattern[k] := by
    rw [← List.getElem?_drop, ← hrest, List.getElem?_append_left hk, List.getElem?_eq_getElem hk]
  intro hzero
  have hbit := (hp.testBit_mask (i + k) (pattern.length - 1 - k)).mpr
    ⟨by omega, pattern[k], hletter, by
      rw [show pattern.length - 1 - (pattern.length - 1 - k) = k by omega]
      exact List.getElem?_eq_getElem hk⟩
  rw [hzero, Nat.zero_testBit] at hbit
  exact Bool.noConfusion hbit

theorem MarksSound.markOccurrence {p : Problem} {text pattern : List Char}
    (hp : p.Reads text pattern) {marks : Array Bool} (h : MarksSound p marks) {i : Nat}
    (hi : pattern <+: text.drop i) : MarksSound p (markOccurrence pattern.length marks i) where
  size_eq := (size_foldl_setIfInBounds _ i marks).trans h.size_eq
  mask_ne j hj := by
    rcases getD_foldl_setIfInBounds hj with hmark | ⟨k, hk, rfl⟩
    · exact h.mask_ne j hmark
    · exact mask_ne_of_prefix hp hi (List.mem_range.mp hk)

omit [ScoreNumber α] in
/-- Exact occurrences mark only characters of the pattern. -/
theorem marksSound_exactMarks (text pattern : List Char) {c : Criteria α}
    (hc : c.needsMarks = true) :
    MarksSound (problem text pattern c) (exactMarks text pattern c) := by
  rw [exactMarks, if_pos hc]
  have hblank : MarksSound (problem text pattern c) (Array.replicate text.length false) := by
    refine ⟨?_, fun i hi => ?_⟩
    · rw [Array.size_replicate, size_masks_problem]
    · rw [Array.getD_eq_getD_getElem?, Array.getElem?_replicate] at hi
      split_ifs at hi <;> exact Bool.noConfusion hi
  have hall : ∀ i ∈ exactPositions text pattern c, pattern <+: text.drop i :=
    fun i hi => (mem_exactPositions hi).2.2
  generalize exactPositions text pattern c = positions at hall
  generalize Array.replicate text.length false = marks at hblank
  induction positions generalizing marks with
  | nil => exact hblank
  | cons i positions ih =>
    exact ih (fun j hj => hall j (List.mem_cons_of_mem i hj)) _
      (hblank.markOccurrence (problem_reads text pattern c) (hall i List.mem_cons_self))

theorem marked_initial (text pattern : List Char) {c : Criteria α} (hc : c.needsMarks = true) :
    Marked (problem text pattern c) 0 (initial text pattern c) where
  sound := marksSound_exactMarks text pattern hc
  bit j k _ hbit := by
    have hzero : (initial text pattern c).row.getD j 0 = 0 := rfl
    rw [hzero, Nat.zero_testBit] at hbit
    exact Bool.noConfusion hbit
  match_ h := Bool.noConfusion h

theorem getElem?_toList_eq_some_true_iff (marks : Array Bool) (k : Nat) :
    marks.toList[k]? = some true ↔ marks.getD k false = true := by
  rw [Array.getElem?_toList, Array.getD_eq_getD_getElem?]
  cases marks[k]? <;> simp

/-- A search matches when it accepted a match and, if it keeps marks, has a run of them. -/
theorem isMatch_locate_iff (text pattern : List Char) (c : Criteria α) :
    (locate text pattern c).isMatch = true ↔
      (final text pattern c).best.position.isSome = true ∧
        (c.needsMarks = true →
          runs c.minMatchLength (final text pattern c).marks.toList ≠ []) := by
  rw [locate_eq]
  simp only [foundSpans]
  cases c.needsMarks <;> simp

/-- With single marks counting, the marks never refuse a match. -/
theorem isMatch_locate (text pattern : List Char) {c : Criteria α} (hleast : c.minMatchLength ≤ 1) :
    (locate text pattern c).isMatch = true ↔
      (final text pattern c).best.position.isSome = true := by
  rw [isMatch_locate_iff]
  refine and_iff_left_of_imp fun hsome hc => ?_
  obtain ⟨i, hi⟩ := exists_mark_of_isSome (marked_initial text pattern hc) hsome
  exact runs_ne_nil_of_mark hleast ((getElem?_toList_eq_some_true_iff _ i).mpr hi)

/-! ### The threshold of exact occurrences -/

theorem foldl_smaller_le (f : Nat → Rat) (positions : List Nat) (threshold : Rat) :
    positions.foldl (fun threshold i => smaller (f i) threshold) threshold ≤ threshold := by
  induction positions generalizing threshold with
  | nil => exact le_rfl
  | cons i positions ih =>
    rw [List.foldl_cons, smaller_rat]
    exact (ih _).trans (min_le_right _ _)

theorem foldl_smaller_eq (f : Nat → Rat) (positions : List Nat) (threshold : Rat) :
    positions.foldl (fun threshold i => smaller (f i) threshold) threshold = threshold ∨
      ∃ i ∈ positions,
        positions.foldl (fun threshold i => smaller (f i) threshold) threshold = f i := by
  induction positions generalizing threshold with
  | nil => exact Or.inl rfl
  | cons i positions ih =>
    rw [List.foldl_cons, smaller_rat]
    -- either a later occurrence lowers the threshold, or this one was the last to do so
    rcases ih (min (f i) threshold) with h | ⟨k, hk, h⟩
    · rcases min_choice (f i) threshold with hmin | hmin
      · exact Or.inr ⟨i, List.mem_cons_self .., h.trans hmin⟩
      · exact Or.inl (h.trans hmin)
    · exact Or.inr ⟨k, List.mem_cons_of_mem _ hk, h⟩

theorem foldl_smaller_mono (f : Nat → Rat) (positions : List Nat) {threshold threshold' : Rat}
    (h : threshold ≤ threshold') :
    positions.foldl (fun threshold i => smaller (f i) threshold) threshold ≤
      positions.foldl (fun threshold i => smaller (f i) threshold) threshold' := by
  induction positions generalizing threshold threshold' with
  | nil => exact h
  | cons i positions ih =>
    rw [List.foldl_cons, List.foldl_cons, smaller_rat, smaller_rat]
    exact ih (min_le_min_left (f i) h)

section exact

variable {text pattern : List Char} {c : Criteria Rat}

theorem exactThreshold_le : exactThreshold text pattern c ≤ c.threshold := foldl_smaller_le ..

variable (text pattern c) in
/-- The threshold is lowered, if at all, to the score of an exact occurrence. -/
theorem exactThreshold_eq :
    exactThreshold text pattern c = c.threshold ∨
      ∃ i, i < text.length ∧ pattern <+: text.drop i ∧
        exactThreshold text pattern c = (problem text pattern c).score 0 i := by
  refine (foldl_smaller_eq _ _ _).imp_right ?_
  rintro ⟨i, hi, h⟩
  obtain ⟨-, hlt, hprefix⟩ := mem_exactPositions hi
  exact ⟨i, hlt, hprefix, h⟩

theorem score_zero_expected (p : Problem) : (p.score 0 p.expected : Rat) = 0 := by
  rw [score_expected, Nat.cast_zero, zero_div]

theorem exactThreshold_nonneg (hpattern : pattern ≠ []) (hdistance : 0 ≤ c.distance)
    (hthreshold : 0 ≤ c.threshold) : 0 ≤ exactThreshold text pattern c := by
  rcases exactThreshold_eq text pattern c with h | ⟨i, -, -, h⟩
  · rwa [h]
  · rw [h]
    exact score_nonneg (problem_proper text hpattern hdistance) 0 i

/-- A search that accepts perfect matches is ready for its first row. -/
theorem ready_initial (hpattern : pattern ≠ []) (hdistance : 0 ≤ c.distance)
    (hthreshold : 0 ≤ c.threshold) :
    Ready (problem text pattern c) 0 (initial text pattern c) where
  errors_le := Nat.zero_le _
  expected := by
    rw [score_zero_expected]
    exact exactThreshold_nonneg hpattern hdistance hthreshold
  reach_le := by
    rw [Problem.span, size_masks_problem]
    exact Nat.le_refl _
  le_reach d hd _ := by
    rwa [Problem.span, size_masks_problem] at hd

end exact

end FuzzySearch.Bitap
