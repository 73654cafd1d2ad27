import FuzzySearch.Proofs.Bitap.Ranges

/-!
# Accesses to arrays

A search reads and writes the letter masks of the text, the marks, the row that is scanned and the
row before it.  Here it is carried out so that it gives up at the first access outside an array
(`Checked.locate`).  It never does (`checked_locate`): a row has a place for every vector of its
window and two more, no window ends behind that of the row before, and the marks have a place for
every character of the text.  These sizes are what a run keeps (`Sized`).  Nor does a scan go on to
vector zero, which stands before every character, because all windows start behind it
(`one_le_start`).
-/

namespace FuzzySearch.Bitap

open ScoreNumber Text

variable {α : Type} [ScoreNumber α]

/-! ### A search that checks its accesses -/

namespace Checked

/-- Puts an item into an array, which must have the place. -/
def write? {β : Type} (xs : Array β) (i : Nat) (x : β) : Option (Array β) :=
  if i < xs.size then some (xs.setIfInBounds i x) else none

/-- The letter mask of a character of the text; behind its end there are no letters. -/
def mask? (p : Problem) (j : Nat) : Option Nat :=
  if j < p.masks.size then p.masks[j]? else some 0

/-- The marks after a character of the text was looked at. -/
def mark? (p : Problem) (needed : Bool) (marks : Array Bool) (j mask : Nat) :
    Option (Array Bool) :=
  if needed ∧ j < p.masks.size then write? marks j (mask != 0) else some marks

/-- The vector before a character; the row of one error less is read only if there is one. -/
def vector? (errors : Nat) (last row : Array Nat) (j mask : Nat) : Option Nat := do
  let right ← row[j + 2]?
  if errors = 0 then return cell 0 mask right 0 0
  else
    let lastRight ← last[j + 2]?
    let lastHere ← last[j + 1]?
    return cell errors mask right lastHere lastRight

/-- Scans a row from vector `j` down to vector `start`, which must not be vector zero. -/
def scan (p : Problem) (needed : Bool) (errors : Nat) (last : Array Nat) :
    (j : Nat) → (start : Nat) → Best α → (row : Array Nat) → (marks : Array Bool) →
      Option (Best α × Array Nat × Array Bool)
  | 0, start, best, row, marks => if 0 < start then some (best, row, marks) else none
  | j + 1, start, best, row, marks =>
    if j + 1 < start then some (best, row, marks)
    else do
      let mask ← mask? p j
      let marks ← mark? p needed marks j mask
      let bits ← vector? errors last row j mask
      let row ← write? row (j + 1) bits
      if bits.testBit (p.length - 1) then
        let score : α := p.score errors j
        if score ≤ best.threshold then
          let best : Best α := ⟨score, some j, score⟩
          if j ≤ p.expected then return (best, row, marks)
          else scan p needed errors last j (max 1 (2 * p.expected - j)) best row marks
        else scan p needed errors last j start { best with score := score } row marks
      else scan p needed errors last j start best row marks

/-- Finds the window of a row and scans it. -/
def scanRow (p : Problem) (needed : Bool) (errors : Nat) (s : Progress α) :
    Option (Progress α) := do
  let reach := Bitap.reach
    (fun d => decide (p.score errors (p.expected + d) ≤ s.best.threshold)) s.reach
  let finish := Bitap.finish p reach
  let blank ← write? (Array.replicate (finish + 2) 0) (finish + 1) ((1 <<< errors) - 1)
  let (best, row, marks) ←
    scan p needed errors s.row finish (start p reach) s.best blank s.marks
  return ⟨best, reach, row, marks⟩

/-- Scans rows of more and more errors. -/
def scanRows (p : Problem) (needed : Bool) :
    (remaining errors : Nat) → Progress α → Option (Progress α)
  | 0, _, s => some s
  | remaining + 1, errors, s => do
    let s ← scanRow p needed errors s
    if s.best.threshold < p.score (errors + 1) p.expected then return s
    else scanRows p needed remaining (errors + 1) s

/-- Marks the characters of an exact occurrence. -/
def markOccurrence (length : Nat) (marks : Array Bool) (position : Nat) : Option (Array Bool) :=
  (List.range length).foldlM (fun marks k => write? marks (position + k) true) marks

/-- Marks the exact occurrences, if marks are needed. -/
def exactMarks (text pattern : List Char) (c : Criteria α) : Option (Array Bool) :=
  if c.needsMarks then
    (exactPositions text pattern c).foldlM (markOccurrence pattern.length)
      (Array.replicate text.length false)
  else some #[]

/-- Looks for an approximate occurrence. -/
def locate (text pattern : List Char) (c : Criteria α) : Option (Comparison α) := do
  let marks ← exactMarks text pattern c
  let final ← scanRows (problem text pattern c) c.needsMarks pattern.length 0
    { initial text pattern c with marks := marks }
  return final.answer c

end Checked

/-! ### Single accesses -/

theorem write?_eq {β : Type} {xs : Array β} {i : Nat} (h : i < xs.size) (x : β) :
    Checked.write? xs i x = some (xs.setIfInBounds i x) := if_pos h

theorem getElem?_eq_some_getD {β : Type} {xs : Array β} {i : Nat} (h : i < xs.size) (d : β) :
    xs[i]? = some (xs.getD i d) := by
  rw [Array.getD_eq_getD_getElem?, Array.getElem?_eq_getElem h, Option.getD_some]

theorem mask?_eq (p : Problem) (j : Nat) : Checked.mask? p j = some (p.masks.getD j 0) := by
  unfold Checked.mask?
  by_cases h : j < p.masks.size
  · rw [if_pos h, getElem?_eq_some_getD h 0]
  · rw [if_neg h, Array.getD_eq_getD_getElem?, Array.getElem?_eq_none (Nat.le_of_not_lt h),
      Option.getD_none]

/-- The number of marks that a search keeps. -/
def markCount (p : Problem) (needed : Bool) : Nat := if needed then p.masks.size else 0

theorem mark?_eq {p : Problem} {needed : Bool} {marks : Array Bool}
    (h : marks.size = markCount p needed) (j : Nat) :
    Checked.mark? p needed marks j (p.masks.getD j 0) = some (markVector p marks j) := by
  unfold Checked.mark? markVector
  cases needed with
  | true =>
    simp only [true_and]
    split_ifs with hj
    · exact write?_eq (hj.trans_eq h.symm) _
    · rfl
  | false =>
    -- without marks a search writes none, and there is no place for one
    have hout : marks.size ≤ j := by rw [h]; exact Nat.zero_le j
    rw [if_neg (by simp), Array.setIfInBounds_eq_of_size_le hout, ite_self]

theorem vector?_eq {errors : Nat} {last row : Array Nat} {j : Nat} (hrow : j + 2 < row.size)
    (hlast : errors ≠ 0 → j + 2 < last.size) (mask : Nat) :
    Checked.vector? errors last row j mask
      = some (cell errors mask (row.getD (j + 2) 0) (last.getD (j + 1) 0)
          (last.getD (j + 2) 0)) := by
  unfold Checked.vector?
  rw [getElem?_eq_some_getD hrow 0]
  by_cases herrors : errors = 0
  · subst herrors
    rfl
  · have hlast := hlast herrors
    rw [getElem?_eq_some_getD hlast 0, getElem?_eq_some_getD (show j + 1 < last.size by omega) 0]
    exact if_neg herrors

/-! ### Rows -/

/-- No window has a vector before the first character. -/
theorem one_le_start (p : Problem) (reach : Nat) : 1 ≤ start p reach := le_max_left 1 _

/-- **A scan stays inside its arrays**, if it starts behind vector zero, and the row, and the row of
one error less, reach two places further than the scan. -/
theorem checked_scan {p : Problem} {needed : Bool} {errors : Nat} {last : Array Nat} {j : Nat}
    {start : Nat} (hpos : 1 ≤ start) (best : Best α) {row : Array Nat} {marks : Array Bool}
    (hrow : j + 2 ≤ row.size)
    (hlast : errors ≠ 0 → j + 2 ≤ last.size) (hmarks : marks.size = markCount p needed) :
    Checked.scan p needed errors last j start best row marks
      = some (scan p errors last j start best row marks) := by
  induction j generalizing start best row marks with
  | zero => exact if_pos hpos
  | succ j ih =>
    by_cases hstart : j + 1 < start
    · rw [Checked.scan, if_pos hstart, scan, if_pos hstart]
    · have hlast' : errors ≠ 0 → j + 3 ≤ last.size := hlast
      have hvector := @vector?_eq errors last row j hrow hlast'
      have hwrite : j + 1 < row.size := by omega
      have hnext := fun start (hpos : 1 ≤ start) best (bits : Nat) =>
        @ih start hpos best (row.setIfInBounds (j + 1) bits) (markVector p marks j)
          (by rw [Array.size_setIfInBounds]; omega) (fun h => Nat.le_of_succ_le (hlast' h))
          ((size_markVector p marks j).trans hmarks)
      -- a better match moves the start, but not before the first character
      have hmoved := hnext (max 1 (2 * p.expected - j)) (le_max_left 1 _)
      rw [Checked.scan, if_neg hstart, scan_succ p errors last best row marks (not_lt.mp hstart) rfl]
      simp only [Option.bind_eq_bind, Option.bind_some, mask?_eq, mark?_eq hmarks, hvector,
        write?_eq hwrite, hnext start hpos, hmoved]
      split_ifs <;> rfl

/-- What a run keeps before row `errors`: the row of one error less, if there is one, has two places
more than the vectors of its window, and there are as many marks as are needed. -/
structure Sized (p : Problem) (needed : Bool) (errors : Nat) (s : Progress α) : Prop where
  row : errors ≠ 0 → s.row.size = finish p s.reach + 2
  marks : s.marks.size = markCount p needed

theorem Sized.scanRow {p : Problem} {needed : Bool} {errors : Nat} {s : Progress α}
    (h : Sized p needed errors s) : Sized p needed (errors + 1) (scanRow p errors s) where
  row _ := by
    rw [scanRow_reach]
    exact (scanRow_spec p errors s).row_size
  marks := (size_scanRow_marks p errors s).trans h.marks

/-- **A row stays inside its arrays**, because its window does not end behind that of the row
before. -/
theorem checked_scanRow {p : Problem} {needed : Bool} {errors : Nat} {s : Progress α}
    (h : Sized p needed errors s) :
    Checked.scanRow p needed errors s = some (scanRow p errors s) := by
  have hfinish := finish_mono p (show rowReach p errors s ≤ s.reach from reach_le _ _)
  have hblank : finish p (rowReach p errors s) + 1
      < (Array.replicate (finish p (rowReach p errors s) + 2) 0).size := by
    rw [Array.size_replicate]
    omega
  have hscan : Checked.scan p needed errors s.row (finish p (rowReach p errors s))
      (start p (rowReach p errors s)) s.best (blankRow errors (finish p (rowReach p errors s)))
      s.marks
        = some ((scanRow p errors s).best, (scanRow p errors s).row,
            (scanRow p errors s).marks) := by
    rw [scanRow_eq]
    refine checked_scan (one_le_start p _) _ ?_ (fun herrors => ?_) h.marks
    · rw [blankRow, Array.size_setIfInBounds, Array.size_replicate]
    · rw [h.row herrors]
      omega
  unfold rowReach at hblank hscan
  unfold blankRow at hscan
  unfold Checked.scanRow
  simp only [write?_eq hblank, Option.bind_eq_bind, Option.bind_some, hscan]
  rfl

theorem checked_scanRows {p : Problem} {needed : Bool} (remaining : Nat) {errors : Nat}
    {s : Progress α} (h : Sized p needed errors s) :
    Checked.scanRows p needed remaining errors s = some (scanRows p remaining errors s) := by
  induction remaining generalizing errors s with
  | zero => rfl
  | succ remaining ih =>
    rw [Checked.scanRows, checked_scanRow h, Option.bind_eq_bind, Option.bind_some, ih h.scanRow,
      scanRows_succ]
    split_ifs <;> rfl

/-! ### Searches -/

theorem checked_markOccurrence {length position : Nat} {marks : Array Bool}
    (h : position + length ≤ marks.size) :
    Checked.markOccurrence length marks position = some (markOccurrence length marks position) := by
  have hplaces : ∀ k ∈ List.range length, position + k < marks.size := by
    intro k hk
    have := List.mem_range.mp hk
    omega
  unfold Checked.markOccurrence markOccurrence
  generalize List.range length = places at hplaces
  induction places generalizing marks with
  | nil => rfl
  | cons k places ih =>
    obtain ⟨hk, hplaces⟩ := List.forall_mem_cons.mp hplaces
    rw [List.foldlM_cons, write?_eq hk, List.foldl_cons]
    exact ih (h.trans_eq Array.size_setIfInBounds.symm) fun l hl =>
      (hplaces l hl).trans_eq Array.size_setIfInBounds.symm

/-- The exact occurrences are marked inside the marks. -/
theorem checked_markOccurrences {length : Nat} {positions : List Nat} {marks : Array Bool}
    (h : ∀ position ∈ positions, position + length ≤ marks.size) :
    positions.foldlM (Checked.markOccurrence length) marks
      = some (positions.foldl (markOccurrence length) marks) := by
  induction positions generalizing marks with
  | nil => rfl
  | cons position positions ih =>
    obtain ⟨hposition, hpositions⟩ := List.forall_mem_cons.mp h
    rw [List.foldlM_cons, checked_markOccurrence hposition, List.foldl_cons]
    exact ih fun l hl => (hpositions l hl).trans_eq (size_foldl_setIfInBounds ..).symm

omit [ScoreNumber α] in
theorem checked_exactMarks (text pattern : List Char) (c : Criteria α) :
    Checked.exactMarks text pattern c = some (exactMarks text pattern c) := by
  unfold Checked.exactMarks exactMarks
  split_ifs
  · refine checked_markOccurrences fun position hposition => ?_
    rw [Array.size_replicate]
    exact exactPosition_add_le hposition
  · rfl

theorem sized_initial (text pattern : List Char) (c : Criteria α) :
    Sized (problem text pattern c) c.needsMarks 0 (initial text pattern c) where
  row h := absurd rfl h
  marks := by
    show (exactMarks text pattern c).size = _
    cases hc : c.needsMarks with
    | true => exact (marksSound_exactMarks text pattern hc).size_eq
    | false =>
      rw [exactMarks, if_neg (by rw [hc]; exact Bool.false_ne_true)]
      rfl

/-- **A search stays inside its arrays.** -/
theorem checked_locate (text pattern : List Char) (c : Criteria α) :
    Checked.locate text pattern c = some (locate text pattern c) := by
  have hrun := checked_scanRows pattern.length (sized_initial text pattern c)
  rw [Checked.locate, checked_exactMarks, Option.bind_eq_bind, Option.bind_some]
  show (Checked.scanRows _ _ _ _ (initial text pattern c) >>= _) = _
  rw [hrun]
  rfl

end FuzzySearch.Bitap
