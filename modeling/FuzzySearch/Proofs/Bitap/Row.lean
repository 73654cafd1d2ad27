import FuzzySearch.Bitap.Locate
import Mathlib.Data.Nat.Bitwise
import Mathlib.Order.Lattice
import Mathlib.Tactic.SplitIfs

/-!
# What a scan of a row computes

A scan interleaves three things: it fills a row of bit vectors, it marks characters, and it follows
the best match so far.  Here they are taken apart.

* `fullRow` is the row as it would be without an early stop.
* `sweep` follows the best match along a row whose matches are already known; it also gives the last
  position `stop` that the scan leaves alone.
* `scan_spec`: a scan follows the best match as `sweep` does along `fullRow`, its row is `fullRow`
  to the right of `stop`, and it marks the characters there that occur in the pattern.

Between them stand the laws of `sweep`: what makes it accept (`sweep_isSome_of_hit`), and what it
leaves when it accepts nothing and when it accepts a match (`sweep_outcome`).
-/

namespace FuzzySearch.Bitap

open ScoreNumber

variable {α : Type} [ScoreNumber α]

/-! ### Bits of a vector -/

/-- A bit of a cell: the letters agree, or an error is spent on the letters of pattern and text, on
the letter of the pattern, or on the letter of the text. -/
theorem testBit_cell (errors mask right lastHere lastRight k : Nat) :
    (cell errors mask right lastHere lastRight).testBit k = true ↔
      (k = 0 ∨ right.testBit (k - 1) = true) ∧ mask.testBit k = true ∨
        errors ≠ 0 ∧ (k = 0 ∨ lastRight.testBit (k - 1) = true ∨
          lastHere.testBit (k - 1) = true ∨ lastRight.testBit k = true) := by
  -- the shifts put a one into the lowest bit, which needs no vector on the right
  have hone : ∀ n, Nat.testBit 1 (n + 1) = false := fun n => by simp [Nat.testBit_succ]
  rw [cell]
  cases k with
  | zero => split <;> simp_all
  | succ k => split <;> simp_all [or_assoc]

/-! ### The full row -/

/-- The vector that is `depth` steps to the left of the end of a row; `last` is the row of one error
less. -/
def vectorFrom (p : Problem) (errors : Nat) (last : Nat → Nat) (top : Nat) : Nat → Nat
  | 0 => (1 <<< errors) - 1
  | depth + 1 =>
    cell errors (p.masks.getD (top - depth - 1) 0) (vectorFrom p errors last top depth)
      (last (top - depth)) (last (top - depth + 1))

/-- A row whose last scanned vector is `top`, without an early stop. -/
def fullRow (p : Problem) (errors : Nat) (last : Nat → Nat) (top j : Nat) : Nat :=
  if top + 1 < j then 0 else vectorFrom p errors last top (top + 1 - j)

section fullRow

variable (p : Problem) (errors : Nat) (last : Nat → Nat) (top : Nat)

theorem fullRow_of_gt {j : Nat} (h : top + 1 < j) : fullRow p errors last top j = 0 := by
  rw [fullRow, if_pos h]

theorem fullRow_top : fullRow p errors last top (top + 1) = (1 <<< errors) - 1 := by
  rw [fullRow, if_neg (Nat.lt_irrefl _), Nat.sub_self, vectorFrom]

theorem fullRow_step {j : Nat} (h : j < top) :
    fullRow p errors last top (j + 1)
      = cell errors (p.masks.getD j 0) (fullRow p errors last top (j + 2)) (last (j + 1))
          (last (j + 2)) := by
  have hdepth : top + 1 - (j + 1) = top - j - 1 + 1 := by omega
  rw [fullRow, if_neg (by omega), hdepth, vectorFrom, fullRow, if_neg (by omega)]
  have hright : top + 1 - (j + 2) = top - j - 1 := by omega
  have hhere : top - (top - j - 1) = j + 1 := by omega
  rw [hright, hhere, Nat.add_sub_cancel]

end fullRow

/-! ### The best match along a row -/

/-- Follows the best match along a row whose matches are known, from vector `j` down.  Gives the
best match and the last vector that is not looked at. -/
def sweep (p : Problem) (errors : Nat) (hit : Nat → Bool) :
    (j : Nat) → (start : Nat) → Best α → Best α × Nat
  | 0, _, best => (best, 0)
  | j + 1, start, best =>
    if j + 1 < start then (best, j + 1)
    else if hit (j + 1) then
      let score : α := p.score errors j
      if score ≤ best.threshold then
        if j ≤ p.expected then (⟨score, some j, score⟩, j)
        else sweep p errors hit j (max 1 (2 * p.expected - j)) ⟨score, some j, score⟩
      else sweep p errors hit j start { best with score := score }
    else sweep p errors hit j start best

section sweep

variable (p : Problem) (errors : Nat) (hit : Nat → Bool)

theorem sweep_of_lt {j start : Nat} (best : Best α) (h : j < start) :
    sweep p errors hit j start best = (best, j) := by
  cases j with
  | zero => rfl
  | succ j => rw [sweep, if_pos h]

theorem sweep_of_not_hit {j start : Nat} (best : Best α) (h : start ≤ j + 1)
    (hhit : hit (j + 1) = false) :
    sweep p errors hit (j + 1) start best = sweep p errors hit j start best := by
  rw [sweep, if_neg (Nat.not_lt.mpr h), hhit, if_neg Bool.false_ne_true]

theorem sweep_of_rejected {j start : Nat} (best : Best α) (h : start ≤ j + 1)
    (hhit : hit (j + 1) = true) (hscore : ¬ (p.score errors j : α) ≤ best.threshold) :
    sweep p errors hit (j + 1) start best
      = sweep p errors hit j start { best with score := p.score errors j } := by
  rw [sweep, if_neg (Nat.not_lt.mpr h), hhit, if_pos rfl]
  exact if_neg hscore

theorem sweep_of_accepted {j start : Nat} (best : Best α) (h : start ≤ j + 1)
    (hhit : hit (j + 1) = true) (hscore : (p.score errors j : α) ≤ best.threshold) :
    sweep p errors hit (j + 1) start best
      = if j ≤ p.expected then (⟨p.score errors j, some j, p.score errors j⟩, j)
        else sweep p errors hit j (max 1 (2 * p.expected - j))
          ⟨p.score errors j, some j, p.score errors j⟩ := by
  rw [sweep, if_neg (Nat.not_lt.mpr h), hhit, if_pos rfl]
  exact if_pos hscore

end sweep

/-- The four ways in which a sweep goes on at a vector. -/
theorem sweep_cases (p : Problem) (errors : Nat) (hit : Nat → Bool) (j start : Nat)
    (best : Best α) :
    j + 1 < start ∨
      start ≤ j + 1 ∧
        (hit (j + 1) = false ∨
          hit (j + 1) = true ∧ ¬ (p.score errors j : α) ≤ best.threshold ∨
          hit (j + 1) = true ∧ (p.score errors j : α) ≤ best.threshold) := by
  rcases Nat.lt_or_ge (j + 1) start with h | h
  · exact Or.inl h
  · refine Or.inr ⟨h, ?_⟩
    cases hhit : hit (j + 1) with
    | false => exact Or.inl rfl
    | true =>
      by_cases hs : (p.score errors j : α) ≤ best.threshold
      · exact Or.inr (Or.inr ⟨rfl, hs⟩)
      · exact Or.inr (Or.inl ⟨rfl, hs⟩)

section sweep

variable (p : Problem) (errors : Nat) (hit : Nat → Bool)

theorem sweep_stop_le (j start : Nat) (best : Best α) :
    (sweep p errors hit j start best).2 ≤ j := by
  induction j generalizing start best with
  | zero => exact Nat.le_refl 0
  | succ j ih =>
    rcases sweep_cases p errors hit j start best with h | ⟨h, hhit | ⟨hhit, hs⟩ | ⟨hhit, hs⟩⟩
    · rw [sweep_of_lt p errors hit best h]
    · rw [sweep_of_not_hit p errors hit best h hhit]
      exact Nat.le_succ_of_le (ih _ _)
    · rw [sweep_of_rejected p errors hit best h hhit hs]
      exact Nat.le_succ_of_le (ih _ _)
    · rw [sweep_of_accepted p errors hit best h hhit hs]
      split_ifs
      · exact Nat.le_succ j
      · exact Nat.le_succ_of_le (ih _ _)

/-- What was accepted once is never given up. -/
theorem sweep_isSome (j start : Nat) {best : Best α} (hbest : best.position.isSome = true) :
    (sweep p errors hit j start best).1.position.isSome = true := by
  induction j generalizing start best with
  | zero => exact hbest
  | succ j ih =>
    rcases sweep_cases p errors hit j start best with h | ⟨h, hhit | ⟨hhit, hs⟩ | ⟨hhit, hs⟩⟩
    · rwa [sweep_of_lt p errors hit best h]
    · rw [sweep_of_not_hit p errors hit best h hhit]
      exact ih _ hbest
    · rw [sweep_of_rejected p errors hit best h hhit hs]
      exact ih _ hbest
    · rw [sweep_of_accepted p errors hit best h hhit hs]
      split_ifs
      · rfl
      · exact ih _ rfl

/-- A match in the window that passes the threshold makes the sweep accept, that match or another
before it. -/
theorem sweep_isSome_of_hit {j start : Nat} {best : Best α} {l : Nat} (hstart : start ≤ l + 1)
    (hl : l < j) (hhit : hit (l + 1) = true) (hscore : (p.score errors l : α) ≤ best.threshold) :
    (sweep p errors hit j start best).1.position.isSome = true := by
  induction j generalizing best with
  | zero => omega
  | succ j ih =>
    rcases sweep_cases p errors hit j start best with h | ⟨h, hj | ⟨hj, hs⟩ | ⟨hj, hs⟩⟩
    · omega
    · have hne : l ≠ j := by
        rintro rfl
        rw [hhit] at hj
        exact Bool.noConfusion hj
      rw [sweep_of_not_hit p errors hit best h hj]
      exact ih (by omega) hscore
    · have hne : l ≠ j := by
        rintro rfl
        exact hs hscore
      rw [sweep_of_rejected p errors hit best h hj hs]
      exact ih (by omega) hscore
    -- another match is accepted first; the window may shrink past `l`, but that does not matter
    · rw [sweep_of_accepted p errors hit best h hj hs]
      split_ifs
      · rfl
      · exact sweep_isSome p errors hit _ _ rfl

/-- A sweep that meets no match goes through its whole window and changes nothing. -/
theorem sweep_of_no_hit {j start : Nat} (best : Best α)
    (hno : ∀ l, start ≤ l + 1 → l < j → hit (l + 1) = false) :
    sweep p errors hit j start best = (best, min j (start - 1)) := by
  induction j with
  | zero => rw [Nat.zero_min]; rfl
  | succ j ih =>
    rcases Nat.lt_or_ge (j + 1) start with h | h
    · rw [sweep_of_lt p errors hit best h, Nat.min_eq_left (by omega)]
    · rw [sweep_of_not_hit p errors hit best h (hno j h (Nat.lt_succ_self j)),
        ih fun l h1 h2 => hno l h1 (by omega), Nat.min_eq_right (by omega),
        Nat.min_eq_right (by omega)]

/-- The outcome of a sweep from vector `j` down whose last accepted match is at `l`.  Such a sweep
goes at least as far as the mirror image of that match behind the expected position. -/
structure Accepts (j : Nat) (outcome : Best α × Nat) (l : Nat) : Prop where
  lt : l < j
  hit : hit (l + 1) = true
  position_eq : outcome.1.position = some l
  threshold_eq : outcome.1.threshold = p.score errors l
  score_eq : ∃ i, outcome.1.score = p.score errors i
  stop : outcome.2 = l ∧ l ≤ p.expected ∨ p.expected < l ∧ outcome.2 ≤ 2 * p.expected - l

/-- The outcome of a sweep from vector `j` down that accepts nothing: it refuses every match of its
window, goes through the window and changes at most the score that was looked at last. -/
structure Passes (j start : Nat) (best : Best α) (outcome : Best α × Nat) : Prop where
  threshold_eq : outcome.1.threshold = best.threshold
  position_eq : outcome.1.position = best.position
  score_eq : outcome.1.score = best.score ∨ ∃ i, outcome.1.score = p.score errors i
  stop : outcome.2 = min j (start - 1)
  refused : ∀ l, start ≤ l + 1 → l < j → hit (l + 1) = true →
    ¬ (p.score errors l : α) ≤ best.threshold

/-- A sweep accepts nothing, or there is a last match that it accepts. -/
theorem sweep_outcome (j start : Nat) (best : Best α) :
    Passes p errors hit j start best (sweep p errors hit j start best) ∨
      ∃ l, Accepts p errors hit j (sweep p errors hit j start best) l := by
  -- an accepted match moves the start of the window, so the induction is for every start
  induction j generalizing start best with
  | zero =>
    exact Or.inl ⟨rfl, rfl, Or.inl rfl, by rw [Nat.zero_min]; rfl,
      fun l _ hl => absurd hl (Nat.not_lt_zero l)⟩
  | succ j ih =>
    rcases sweep_cases p errors hit j start best with h | ⟨h, hhit | ⟨hhit, hs⟩ | ⟨hhit, hs⟩⟩
    · rw [sweep_of_lt p errors hit best h]
      exact Or.inl ⟨rfl, rfl, Or.inl rfl, (Nat.min_eq_left (by omega)).symm,
        fun l h1 h2 => by omega⟩
    · rw [sweep_of_not_hit p errors hit best h hhit]
      rcases ih start best with hpass | ⟨l, hl⟩
      · refine Or.inl { hpass with stop := by rw [hpass.stop]; omega, refused := ?_ }
        intro l hstart hl hl'
        rcases Nat.eq_or_lt_of_le (Nat.le_of_lt_succ hl) with rfl | hl
        · rw [hhit] at hl'
          exact Bool.noConfusion hl'
        · exact hpass.refused l hstart hl hl'
      · exact Or.inr ⟨l, { hl with lt := Nat.lt_succ_of_lt hl.lt }⟩
    · rw [sweep_of_rejected p errors hit best h hhit hs]
      rcases ih start { best with score := p.score errors j } with hpass | ⟨l, hl⟩
      · refine Or.inl ⟨hpass.threshold_eq, hpass.position_eq, ?_, by rw [hpass.stop]; omega, ?_⟩
        · exact Or.inr (hpass.score_eq.elim (fun heq => ⟨j, heq⟩) id)
        · intro l hstart hl hl'
          rcases Nat.eq_or_lt_of_le (Nat.le_of_lt_succ hl) with rfl | hl
          · exact hs
          · exact hpass.refused l hstart hl hl'
      · exact Or.inr ⟨l, { hl with lt := Nat.lt_succ_of_lt hl.lt }⟩
    · refine Or.inr ?_
      rw [sweep_of_accepted p errors hit best h hhit hs]
      split_ifs with hj
      · exact ⟨j, Nat.lt_succ_self j, hhit, rfl, rfl, ⟨j, rfl⟩, Or.inl ⟨rfl, hj⟩⟩
      · rcases ih (max 1 (2 * p.expected - j)) ⟨p.score errors j, some j, p.score errors j⟩ with
          hpass | ⟨l, hl⟩
        -- nothing is accepted after `j`, so the rest of the window is gone through
        · refine ⟨j, Nat.lt_succ_self j, hhit, hpass.position_eq, hpass.threshold_eq,
            hpass.score_eq.elim (fun heq => ⟨j, heq⟩) id, Or.inr ⟨by omega, ?_⟩⟩
          rw [hpass.stop]
          omega
        · exact ⟨l, { hl with lt := Nat.lt_succ_of_lt hl.lt }⟩

end sweep

/-! ### A scan is a sweep along the full row -/

/-- Whether the whole pattern is found from the character before a vector on. -/
def hitAt (p : Problem) (row : Nat → Nat) (j : Nat) : Bool := (row j).testBit (p.length - 1)

/-- The mark of a character after the vectors between `stop` and `j` were scanned. -/
def markAfter (p : Problem) (marks : Array Bool) (stop j i : Nat) : Bool :=
  if i < marks.size ∧ i < p.masks.size ∧ stop ≤ i ∧ i < j then p.masks.getD i 0 != 0
  else marks.getD i false

/-- The result of a scan from vector `j` down whose sweep has a given outcome: the best match of the
sweep, the full row to the right of its stop, and the marks of the characters there. -/
structure ScanSpec (p : Problem) (row : Nat → Nat) (j : Nat) (outcome : Best α × Nat) (size : Nat)
    (marks : Array Bool) (result : Best α × Array Nat × Array Bool) : Prop where
  best_eq : result.1 = outcome.1
  row_size : result.2.1.size = size
  row_getD : ∀ k, result.2.1.getD k 0 = if outcome.2 < k then row k else 0
  marks_size : result.2.2.size = marks.size
  marks_getD : ∀ i, result.2.2.getD i false = markAfter p marks outcome.2 j i

theorem getD_setIfInBounds {β : Type} (xs : Array β) (i k : Nat) (x d : β) :
    (xs.setIfInBounds i x).getD k d = if i = k ∧ k < xs.size then x else xs.getD k d := by
  rw [Array.getD_eq_getD_getElem?, Array.getElem?_setIfInBounds, Array.getD_eq_getD_getElem?]
  by_cases hik : i = k
  · subst hik
    by_cases hi : i < xs.size
    · rw [if_pos rfl, if_pos hi, if_pos ⟨rfl, hi⟩, Option.getD_some]
    · rw [if_pos rfl, if_neg hi, if_neg fun h => hi h.2, Option.getD_none,
        Array.getElem?_eq_none (Nat.le_of_not_lt hi), Option.getD_none]
  · rw [if_neg hik, if_neg fun h => hik h.1]

/-- The marks after vector `j + 1` was scanned. -/
def markVector (p : Problem) (marks : Array Bool) (j : Nat) : Array Bool :=
  if j < p.masks.size then marks.setIfInBounds j (p.masks.getD j 0 != 0) else marks

theorem size_markVector (p : Problem) (marks : Array Bool) (j : Nat) :
    (markVector p marks j).size = marks.size := by
  unfold markVector
  split_ifs
  · exact Array.size_setIfInBounds
  · rfl

theorem markAfter_self (p : Problem) (marks : Array Bool) (j i : Nat) :
    markAfter p marks j j i = marks.getD i false := by
  rw [markAfter, if_neg (by omega)]

theorem getD_markVector (p : Problem) (marks : Array Bool) (j i : Nat) :
    (markVector p marks j).getD i false = markAfter p marks j (j + 1) i := by
  rw [markVector, markAfter]
  by_cases hj : j < p.masks.size
  · rw [if_pos hj, getD_setIfInBounds]
    by_cases hij : j = i
    · subst hij
      by_cases hi : j < marks.size
      · rw [if_pos ⟨rfl, hi⟩, if_pos ⟨hi, hj, by omega⟩]
      · rw [if_neg fun h => hi h.2, if_neg fun h => hi h.1]
    · rw [if_neg fun h => hij h.1, if_neg fun h => hij (by omega)]
  · rw [if_neg hj, if_neg (by omega)]

theorem markAfter_markVector (p : Problem) (marks : Array Bool) {stop j : Nat} (h : stop ≤ j)
    (i : Nat) : markAfter p (markVector p marks j) stop j i = markAfter p marks stop (j + 1) i := by
  rw [markAfter, size_markVector, getD_markVector, markAfter, markAfter]
  split_ifs <;> first | rfl | omega

omit [ScoreNumber α] in
/-- Scanning one more vector on the right. -/
theorem ScanSpec.step {p : Problem} {row : Nat → Nat} {j size : Nat} {outcome : Best α × Nat}
    {marks : Array Bool} {result : Best α × Array Nat × Array Bool} (hstop : outcome.2 ≤ j)
    (h : ScanSpec p row j outcome size (markVector p marks j) result) :
    ScanSpec p row (j + 1) outcome size marks result where
  best_eq := h.best_eq
  row_size := h.row_size
  row_getD := h.row_getD
  marks_size := h.marks_size.trans (size_markVector p marks j)
  marks_getD i := (h.marks_getD i).trans (markAfter_markVector p marks hstop i)

omit [ScoreNumber α] in
/-- A scan that leaves the rest of the row alone. -/
theorem ScanSpec.stop {p : Problem} {row : Nat → Nat} {j : Nat} (best : Best α)
    {filled : Array Nat} (marks : Array Bool)
    (hrow : ∀ k, filled.getD k 0 = if j < k then row k else 0) :
    ScanSpec p row j (best, j) filled.size marks (best, filled, marks) where
  best_eq := rfl
  row_size := rfl
  row_getD := hrow
  marks_size := rfl
  marks_getD i := (markAfter_self p marks j i).symm

/-- Scanning a vector of the window. -/
theorem scan_succ (p : Problem) (errors : Nat) (last : Array Nat) {j start : Nat} (best : Best α)
    (row : Array Nat) (marks : Array Bool) {bits : Nat} (h : start ≤ j + 1)
    (hbits : cell errors (p.masks.getD j 0) (row.getD (j + 2) 0) (last.getD (j + 1) 0)
      (last.getD (j + 2) 0) = bits) :
    scan p errors last (j + 1) start best row marks
      = if bits.testBit (p.length - 1) then
          if (p.score errors j : α) ≤ best.threshold then
            if j ≤ p.expected then
              (⟨p.score errors j, some j, p.score errors j⟩, row.setIfInBounds (j + 1) bits,
                markVector p marks j)
            else scan p errors last j (max 1 (2 * p.expected - j))
              ⟨p.score errors j, some j, p.score errors j⟩ (row.setIfInBounds (j + 1) bits)
              (markVector p marks j)
          else scan p errors last j start { best with score := p.score errors j }
            (row.setIfInBounds (j + 1) bits) (markVector p marks j)
        else scan p errors last j start best (row.setIfInBounds (j + 1) bits)
          (markVector p marks j) := by
  rw [scan, if_neg (Nat.not_lt.mpr h)]
  simp only [hbits]
  rfl

/-- **A scan is a sweep along the full row.**  The row to the right of vector `j` is already full,
and the rest of it is blank. -/
theorem scan_spec (p : Problem) (errors top : Nat) (last : Array Nat) {full : Nat → Nat}
    (hfull : ∀ j, j < top → full (j + 1) = cell errors (p.masks.getD j 0) (full (j + 2))
      (last.getD (j + 1) 0) (last.getD (j + 2) 0))
    {j start : Nat} {best : Best α} {row : Array Nat} {marks : Array Bool} (hj : j ≤ top)
    (hsize : row.size = top + 2) (hrow : ∀ k, row.getD k 0 = if j < k then full k else 0) :
    ScanSpec p full j (sweep p errors (hitAt p full) j start best) (top + 2) marks
      (scan p errors last j start best row marks) := by
  -- the row is filled from the right: `hrow` is what the induction carries
  induction j generalizing start best row marks with
  | zero =>
    rw [← hsize]
    exact ScanSpec.stop best marks hrow
  | succ j ih =>
    have hbits : cell errors (p.masks.getD j 0) (row.getD (j + 2) 0) (last.getD (j + 1) 0)
        (last.getD (j + 2) 0) = full (j + 1) := by
      rw [hrow, if_pos (Nat.lt_succ_self _), hfull j (by omega)]
    have hrow' : ∀ k, (row.setIfInBounds (j + 1) (full (j + 1))).getD k 0
        = if j < k then full k else 0 := by
      intro k
      rw [getD_setIfInBounds, hrow]
      by_cases hk : j + 1 = k
      · subst hk
        rw [if_pos ⟨rfl, by omega⟩, if_pos (Nat.lt_succ_self j)]
      · rw [if_neg fun h => hk h.1]
        split_ifs <;> first | rfl | omega
    have hsize' : (row.setIfInBounds (j + 1) (full (j + 1))).size = top + 2 :=
      Array.size_setIfInBounds.trans hsize
    have hnext := fun start best =>
      @ih start best _ (markVector p marks j) (by omega) hsize' hrow'
    have hstop := fun start (best : Best α) => sweep_stop_le p errors (hitAt p full) j start best
    -- scan and sweep branch alike, on the bit that was just computed
    rcases sweep_cases p errors (hitAt p full) j start best with
      h | ⟨h, hhit | ⟨hhit, hs⟩ | ⟨hhit, hs⟩⟩
    · rw [scan, if_pos h, sweep_of_lt p errors _ best h, ← hsize]
      exact ScanSpec.stop best marks hrow
    · have hbit : ¬ (full (j + 1)).testBit (p.length - 1) = true := Bool.eq_false_iff.mp hhit
      rw [scan_succ p errors last best row marks h hbits, if_neg hbit,
        sweep_of_not_hit p errors _ best h hhit]
      exact (hnext start best).step (hstop start best)
    · have hbit : (full (j + 1)).testBit (p.length - 1) = true := hhit
      rw [scan_succ p errors last best row marks h hbits, if_pos hbit, if_neg hs,
        sweep_of_rejected p errors _ best h hhit hs]
      exact (hnext start _).step (hstop start _)
    · have hbit : (full (j + 1)).testBit (p.length - 1) = true := hhit
      rw [scan_succ p errors last best row marks h hbits, if_pos hbit, if_pos hs,
        sweep_of_accepted p errors _ best h hhit hs]
      split_ifs with hle
      · have hend := ScanSpec.stop (p := p) (⟨p.score errors j, some j, p.score errors j⟩ : Best α)
          (markVector p marks j) hrow'
        rw [hsize'] at hend
        exact hend.step (Nat.le_refl j)
      · exact (hnext _ _).step (hstop _ _)

end FuzzySearch.Bitap
