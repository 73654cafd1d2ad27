import FuzzySearch.Proofs.Bitap.Search

/-!
# Words of a machine

The bit vectors of a row grow beyond the length of the pattern.  Here a search is carried out in
words: every letter mask, every vector of a row and every shift is cut to the lowest `width` bits.

* `cell_cut`: the low bits of a cell follow from the low bits of what it is computed from.
* `scan_cut`, `scanRow_cut`, `scanRows_cut`: so two runs, one of them in words, stay alike, and a
  match is seen at a bit that both have.
* `search_in_words`: a search in words of the size that limits the pattern gives what an unlimited
  one gives.
-/

namespace FuzzySearch.Bitap

open ScoreNumber

variable {α : Type} [ScoreNumber α]

/-- What a word of so many bits holds of a vector. -/
def cut (width n : Nat) : Nat := n % 2 ^ width

/-! ### A search in words -/

namespace Words

variable (width : Nat)

/-- The places of a pattern where a character stands, as bits of a word. -/
def letterMask : List Char → Char → Nat
  | [], _ => 0
  | p :: rest, c =>
    cut width ((if p = c then cut width (1 <<< rest.length) else 0) ||| letterMask rest c)

/-- The word at a position, from the word to its right and from the two words of the row of one
error less. -/
def cell (errors mask right lastHere lastRight : Nat) : Nat :=
  let exact := (cut width (right <<< 1) ||| 1) &&& mask
  cut width
    (if errors = 0 then exact
    else exact ||| ((cut width ((lastRight ||| lastHere) <<< 1) ||| 1) ||| lastRight))

/-- Scans a row of words from word `j` down to word `start`. -/
def scan (p : Problem) (errors : Nat) (last : Array Nat) :
    (j : Nat) → (start : Nat) → Best α → (row : Array Nat) → (marks : Array Bool) →
      Best α × Array Nat × Array Bool
  | 0, _, best, row, marks => (best, row, marks)
  | j + 1, start, best, row, marks =>
    if j + 1 < start then (best, row, marks)
    else
      let mask := p.masks.getD j 0
      let marks := if j < p.masks.size then marks.setIfInBounds j (mask != 0) else marks
      let bits :=
        cell width errors mask (row.getD (j + 2) 0) (last.getD (j + 1) 0) (last.getD (j + 2) 0)
      let row := row.setIfInBounds (j + 1) bits
      if bits &&& cut width (1 <<< (p.length - 1)) ≠ 0 then
        let score : α := p.score errors j
        if score ≤ best.threshold then
          let best : Best α := ⟨score, some j, score⟩
          if j ≤ p.expected then (best, row, marks)
          else scan p errors last j (max 1 (2 * p.expected - j)) best row marks
        else scan p errors last j start { best with score := score } row marks
      else scan p errors last j start best row marks

/-- A row of words before it is scanned. -/
def blankRow (errors finish : Nat) : Array Nat :=
  (Array.replicate (finish + 2) 0).setIfInBounds (finish + 1)
    (cut width (cut width (1 <<< errors) - 1))

/-- Finds the window of a row and scans it in words. -/
def scanRow (p : Problem) (errors : Nat) (s : Progress α) : Progress α :=
  let reach := Bitap.reach
    (fun d => decide (p.score errors (p.expected + d) ≤ s.best.threshold)) s.reach
  let finish := Bitap.finish p reach
  let (best, row, marks) :=
    scan width p errors s.row finish (start p reach) s.best (blankRow width errors finish) s.marks
  ⟨best, reach, row, marks⟩

/-- Scans rows of words of more and more errors. -/
def scanRows (p : Problem) : (remaining errors : Nat) → Progress α → Progress α
  | 0, _, s => s
  | remaining + 1, errors, s =>
    let s := scanRow width p errors s
    if s.best.threshold < p.score (errors + 1) p.expected then s
    else scanRows p remaining (errors + 1) s

/-- The fixed data of a search in words. -/
def problem (text pattern : List Char) (c : Criteria α) : Problem :=
  { Bitap.problem text pattern c with masks := (text.map (letterMask width pattern)).toArray }

/-- Looks for an approximate occurrence with words for bit vectors. -/
def locate (text pattern : List Char) (c : Criteria α) : Comparison α :=
  (scanRows width (problem width text pattern c) pattern.length 0 (initial text pattern c)).answer c

/-- Looks for an approximate occurrence of any pattern, with words for bit vectors. -/
def search (text pattern : List Char) (c : Criteria α) : Except SearchError (Comparison α) :=
  if wordSize < pattern.length then .error (.patternTooLong wordSize)
  else if pattern = [] then .error .divisionByZero
  else .ok (locate width text pattern c)

end Words

/-! ### Cutting -/

section cut

variable {width : Nat}

theorem testBit_cut (n k : Nat) : (cut width n).testBit k = (decide (k < width) && n.testBit k) :=
  Nat.testBit_mod_two_pow n width k

theorem cut_eq_self {n : Nat} (h : n < 2 ^ width) : cut width n = n := Nat.mod_eq_of_lt h

theorem cut_zero : cut width 0 = 0 := Nat.zero_mod _

theorem cut_one_shiftLeft {k : Nat} (hk : k < width) : cut width (1 <<< k) = 1 <<< k := by
  rw [Nat.one_shiftLeft]
  exact cut_eq_self (Nat.pow_lt_pow_right (Nat.lt_succ_self 1) hk)

/-- A bit that a word holds is the bit of the vector. -/
theorem cut_and_bit_ne_zero_iff {k : Nat} (hk : k < width) (n : Nat) :
    cut width n &&& cut width (1 <<< k) ≠ 0 ↔ n.testBit k = true := by
  rw [cut_one_shiftLeft hk, Nat.one_shiftLeft, Nat.and_two_pow, testBit_cut, decide_eq_true hk,
    Bool.true_and]
  cases n.testBit k <;> simp

/-- **The low bits of a cell follow from low bits.** -/
theorem cell_cut (errors mask right lastHere lastRight : Nat) :
    Words.cell width errors (cut width mask) (cut width right) (cut width lastHere)
        (cut width lastRight)
      = cut width (cell errors mask right lastHere lastRight) := by
  apply Nat.eq_of_testBit_eq
  intro k
  unfold Words.cell cell
  by_cases hk : k < width
  -- a bit of a shifted vector is the bit before it, which the word holds too
  · have hk' : k - 1 < width := by omega
    split_ifs <;> simp [testBit_cut, Nat.testBit_shiftLeft, hk, hk']
  · simp [testBit_cut, hk]

/-- A cell can have more bits than the vectors that it is computed from. -/
example : cell 1 0 0 0 (2 ^ wordSize - 1) = 2 ^ (wordSize + 1) - 1 := by decide

/-- The letter masks of a pattern that is not longer than a word are words. -/
theorem letterMask_words {pattern : List Char} (h : pattern.length ≤ width) (c : Char) :
    Words.letterMask width pattern c = letterMask pattern c := by
  induction pattern with
  | nil => rfl
  | cons p rest ih =>
    have hrest : rest.length < width := h
    have hmask : letterMask (p :: rest) c < 2 ^ width := by
      have hlt := letterMask_lt (p :: rest) c
      rw [Nat.one_shiftLeft] at hlt
      exact hlt.trans_le (Nat.pow_le_pow_right Nat.two_pos h)
    rw [Words.letterMask, ih hrest.le, cut_one_shiftLeft hrest]
    exact cut_eq_self hmask

theorem getD_map_cut (row : Array Nat) (k : Nat) :
    (row.map (cut width)).getD k 0 = cut width (row.getD k 0) := by
  rw [Array.getD_eq_getD_getElem?, Array.getElem?_map, Array.getD_eq_getD_getElem?]
  cases row[k]? with
  | none => exact cut_zero.symm
  | some n => rfl

theorem map_cut_setIfInBounds (row : Array Nat) (k n : Nat) :
    (row.map (cut width)).setIfInBounds k (cut width n)
      = (row.setIfInBounds k n).map (cut width) :=
  (Array.map_setIfInBounds).symm

theorem blankRow_cut {errors : Nat} (h : errors < width) (finish : Nat) :
    Words.blankRow width errors finish = (blankRow errors finish).map (cut width) := by
  rw [Words.blankRow, blankRow, cut_one_shiftLeft h, ← map_cut_setIfInBounds, Array.map_replicate,
    cut_zero]

end cut

/-! ### Two runs -/

/-- A problem whose bit vectors are tested at a bit that a word holds, and whose letter masks are
words. -/
structure Problem.FitsWords (p : Problem) (width : Nat) : Prop where
  length_pos : 0 < p.length
  length_le : p.length ≤ width
  mask_lt : ∀ j, p.masks.getD j 0 < 2 ^ width

/-- A state whose row is cut to words. -/
def Progress.cut (width : Nat) (s : Progress α) : Progress α :=
  { s with row := s.row.map (Bitap.cut width) }

section runs

variable {p : Problem} {width : Nat}

/-- **A scan in words stays alike.** -/
theorem scan_cut (hp : p.FitsWords width) (errors : Nat) (last : Array Nat) (j start : Nat)
    (best : Best α) (row : Array Nat) (marks : Array Bool) :
    Words.scan width p errors (last.map (cut width)) j start best (row.map (cut width)) marks
      = ((scan p errors last j start best row marks).1,
          (scan p errors last j start best row marks).2.1.map (cut width),
          (scan p errors last j start best row marks).2.2) := by
  have hlast : p.length - 1 < width := by
    have := hp.length_pos
    have := hp.length_le
    omega
  induction j generalizing start best row marks with
  | zero => rfl
  | succ j ih =>
    -- the words that the scan reads are the cut vectors, and so is the one that it writes
    have hbits : Words.cell width errors (p.masks.getD j 0) ((row.map (cut width)).getD (j + 2) 0)
        ((last.map (cut width)).getD (j + 1) 0) ((last.map (cut width)).getD (j + 2) 0)
          = cut width (cell errors (p.masks.getD j 0) (row.getD (j + 2) 0) (last.getD (j + 1) 0)
              (last.getD (j + 2) 0)) := by
      rw [getD_map_cut, getD_map_cut, getD_map_cut, ← cell_cut, cut_eq_self (hp.mask_lt j)]
    rw [Words.scan, scan]
    simp only [hbits, map_cut_setIfInBounds, cut_and_bit_ne_zero_iff hlast, ih]
    split_ifs <;> rfl

theorem scanRow_cut (hp : p.FitsWords width) {errors : Nat} (h : errors < p.length)
    (s : Progress α) : Words.scanRow width p errors (s.cut width) = (scanRow p errors s).cut width := by
  rw [Words.scanRow, scanRow]
  simp only [Progress.cut, blankRow_cut (h.trans_le hp.length_le), scan_cut hp]
  rfl

/-- **A run in words stays alike.** -/
theorem scanRows_cut (hp : p.FitsWords width) {remaining errors : Nat}
    (h : errors + remaining ≤ p.length) (s : Progress α) :
    Words.scanRows width p remaining errors (s.cut width)
      = (scanRows p remaining errors s).cut width := by
  induction remaining generalizing errors s with
  | zero => rfl
  | succ remaining ih =>
    rw [Words.scanRows, scanRow_cut hp (by omega), scanRows_succ]
    by_cases hbreak : (scanRow p errors s).best.threshold < (p.score (errors + 1) p.expected : α)
    · rw [if_pos hbreak]
      exact if_pos hbreak
    · rw [if_neg hbreak]
      exact (if_neg hbreak).trans (ih (by omega) _)

end runs

/-! ### Searches -/

variable (text : List Char) {pattern : List Char} (c : Criteria α) {width : Nat}

omit [ScoreNumber α] in
theorem problem_words (hwidth : pattern.length ≤ width) :
    Words.problem width text pattern c = problem text pattern c := by
  have hmasks : Words.letterMask width pattern = letterMask pattern :=
    funext (letterMask_words hwidth)
  rw [Words.problem, hmasks]
  rfl

omit [ScoreNumber α] in
theorem problem_fitsWords (hpattern : pattern ≠ []) (hwidth : pattern.length ≤ width) :
    (problem text pattern c).FitsWords width where
  length_pos := List.length_pos_iff.mpr hpattern
  length_le := hwidth
  mask_lt j := by
    apply Nat.lt_pow_two_of_testBit
    intro k hk
    rw [Bool.eq_false_iff]
    intro hbit
    have hlt := (((problem_reads text pattern c).testBit_mask j k).mp hbit).1
    omega

/-- A search in words that are as long as the pattern finds what an unlimited one finds. -/
theorem locate_words (hpattern : pattern ≠ []) (hwidth : pattern.length ≤ width) :
    Words.locate width text pattern c = locate text pattern c := by
  -- before the first row there is nothing to cut
  have hstart : (initial text pattern c).cut width = initial text pattern c :=
    congrArg (fun row => { initial text pattern c with row := row }) Array.map_empty
  have hrun := scanRows_cut (problem_fitsWords text c hpattern hwidth)
    (Nat.le_of_eq (Nat.zero_add _)) (initial text pattern c)
  rw [hstart] at hrun
  replace hrun : Words.scanRows width (problem text pattern c) pattern.length 0
      (initial text pattern c) = (final text pattern c).cut width := hrun
  rw [Words.locate, problem_words text c hwidth, hrun, locate_eq_answer]
  rfl

variable (pattern) in
/-- **A word is enough.**  A search whose letter masks, vectors and shifts are cut to the bits of a
word gives the same answer as one whose vectors may grow. -/
theorem search_in_words : Words.search wordSize text pattern c = search text pattern c := by
  rw [Words.search, search]
  split_ifs with hlong hempty
  · rfl
  · rfl
  · rw [locate_words text c hempty (Nat.not_lt.mp hlong)]

end FuzzySearch.Bitap
