import FuzzySearch.Proofs.Bitap.Rows
import FuzzySearch.Proofs.EditDistance

/-!
# Bits and edit distance

Bit `k` of the vector at a position stands for the last `k + 1` letters of the pattern, read from
that position of the text on.

* `RowSound.scanRow`: a bit of row `e` is set only if those letters are within distance `e` of some
  beginning of the rest of the text, in every row of every run.
* `RowComplete.scanRow`: in a row that was not cut short, the bit is set whenever that is so,
  provided that the letters fit into the window (`Fits`) and that the window of the row before is
  wider by one.
-/

namespace FuzzySearch.Bitap

open ScoreNumber Text

variable {α : Type} [ScoreNumber α]

/-! ### The letters of pattern and text -/

/-- The last letters of a pattern. -/
def lastLetters (pattern : List Char) (k : Nat) : List Char := pattern.drop (pattern.length - k)

theorem lastLetters_length (pattern : List Char) :
    lastLetters pattern pattern.length = pattern := by
  rw [lastLetters, Nat.sub_self, List.drop_zero]

theorem length_lastLetters {pattern : List Char} {k : Nat} (hk : k ≤ pattern.length) :
    (lastLetters pattern k).length = k := by
  rw [lastLetters, List.length_drop]
  omega

/-- The last letters begin with the letter that stands before the others. -/
theorem lastLetters_succ {pattern : List Char} {k : Nat} (hk : k < pattern.length) :
    ∃ a, pattern[pattern.length - 1 - k]? = some a ∧
      lastLetters pattern (k + 1) = a :: lastLetters pattern k := by
  have hlt : pattern.length - (k + 1) < pattern.length := by omega
  refine ⟨pattern[pattern.length - (k + 1)], ?_, ?_⟩
  · rw [show pattern.length - 1 - k = pattern.length - (k + 1) by omega]
    exact List.getElem?_eq_getElem hlt
  · rw [lastLetters, List.drop_eq_getElem_cons hlt, lastLetters,
      show pattern.length - (k + 1) + 1 = pattern.length - k by omega]

/-- The data of a search for a pattern in a text. -/
structure Problem.Reads (p : Problem) (text pattern : List Char) : Prop where
  length_eq : p.length = pattern.length
  masks_eq : p.masks = (text.map (letterMask pattern)).toArray

section

variable {p : Problem} {text pattern : List Char}

theorem Problem.Reads.size_masks (h : p.Reads text pattern) : p.masks.size = text.length := by
  rw [h.masks_eq, List.size_toArray, List.length_map]

/-- A bit of the mask of a character tells whether the character is that letter of the pattern. -/
theorem Problem.Reads.testBit_mask (h : p.Reads text pattern) (i k : Nat) :
    (p.masks.getD i 0).testBit k = true ↔
      k < pattern.length ∧
        ∃ c, text[i]? = some c ∧ pattern[pattern.length - 1 - k]? = some c := by
  rw [h.masks_eq, Array.getD_eq_getD_getElem?, List.getElem?_toArray, List.getElem?_map]
  cases htext : text[i]? with
  | none => simp
  | some c =>
    rw [Option.map_some, Option.getD_some, testBit_letterMask]
    simp

theorem drop_of_getElem? {i : Nat} {c : Char} (h : text[i]? = some c) :
    text.drop i = c :: text.drop (i + 1) := by
  obtain ⟨hi, rfl⟩ := List.getElem?_eq_some_iff.mp h
  exact List.drop_eq_getElem_cons hi

/-! ### Bits are sound -/

/-- Before row `errors`, a bit of the last row is set only if the letters it stands for are found
with the errors of that row. -/
def RowSound (text pattern : List Char) (errors : Nat) (row : Nat → Nat) : Prop :=
  ∀ d, errors = d + 1 → ∀ i k, k < pattern.length → (row (i + 1)).testBit k = true →
    Near d (lastLetters pattern (k + 1)) (text.drop i)

/-- **The full row is sound** if the row before is. -/
theorem near_of_testBit_rowBits (hp : p.Reads text pattern) {errors : Nat} {s : Progress α}
    (hlast : RowSound text pattern errors fun i => s.row.getD i 0) {i k : Nat}
    (hk : k < pattern.length) (hbit : (rowBits p errors s (i + 1)).testBit k = true) :
    Near errors (lastLetters pattern (k + 1)) (text.drop i) := by
  refine testBit_rowBits_induction p errors s pattern.length
    (motive := fun i k => Near errors (lastLetters pattern k) (text.drop i)) ?_ ?_ ?_ hk hbit
  · intro i k herr hk
    exact near_of_length_le (by rwa [length_lastLetters hk]) _
  -- the letters agree, and the other letters are found one character further on
  · intro i k hk _ hmask hrest
    obtain ⟨a, ha, hletters⟩ := lastLetters_succ hk
    obtain ⟨-, c, hc, hac⟩ := (hp.testBit_mask i k).mp hmask
    obtain rfl : a = c := Option.some.inj (ha.symm.trans hac)
    rw [hletters, drop_of_getElem? hc]
    exact (near_cons_cons _ _ _ _ _).mpr (Or.inl ⟨rfl, hrest⟩)
  -- an error is spent, and the rest was found in the row before
  · rintro i k d hk - rfl hspent
    obtain ⟨a, -, hletters⟩ := lastLetters_succ hk
    have htail : text.drop (i + 1) = (text.drop i).tail := by rw [List.tail_drop]
    rw [hletters]
    rcases hspent with h | h | h
    · have hnear := hlast d rfl (i + 1) k (by omega) h
      rw [htail] at hnear
      exact hnear.replace a
    · exact (hlast d rfl i k (by omega) h).delete a
    · have hnear := hlast d rfl (i + 1) (k + 1) hk h
      rw [htail, hletters] at hnear
      exact hnear.insert

theorem RowSound.scanRow (hp : p.Reads text pattern) {errors : Nat} {s : Progress α}
    (hlast : RowSound text pattern errors fun i => s.row.getD i 0) :
    RowSound text pattern (errors + 1) fun i => (scanRow p errors s).row.getD i 0 := by
  intro d hd i k hk hbit
  obtain rfl : errors = d := by omega
  simp only [scanRow_getD] at hbit
  split_ifs at hbit
  · exact near_of_testBit_rowBits hp hlast hk hbit
  · rw [Nat.zero_testBit] at hbit
    exact Bool.noConfusion hbit

theorem rowSound_zero (row : Nat → Nat) : RowSound text pattern 0 row :=
  fun d hd => absurd hd.symm (Nat.succ_ne_zero d)

/-- A match of the whole pattern is found with the errors of its row. -/
theorem near_of_hitAt (hp : p.Reads text pattern) (hpattern : pattern ≠ []) {errors : Nat}
    {s : Progress α} (hlast : RowSound text pattern errors fun i => s.row.getD i 0) {i : Nat}
    (hhit : hitAt p (rowBits p errors s) (i + 1) = true) :
    Near errors pattern (text.drop i) := by
  have hlen := List.length_pos_iff.mpr hpattern
  rw [hitAt, hp.length_eq] at hhit
  have hnear := near_of_testBit_rowBits hp hlast (by omega) hhit
  rwa [Nat.sub_add_cancel hlen, lastLetters_length] at hnear

/-- With fewer errors than letters, a match begins at a character of the text. -/
theorem lt_length_of_near {errors i : Nat} (herr : errors < pattern.length)
    (h : Near errors pattern (text.drop i)) : i < text.length := by
  by_contra hi
  rw [List.drop_eq_nil_of_le (Nat.le_of_not_lt hi), near_nil_right] at h
  omega

/-! ### Bits are complete -/

/-- Whether `k` letters from position `i` on fit into a window of some reach. -/
structure Fits (p : Problem) (reach i k : Nat) : Prop where
  left : p.expected ≤ i + reach
  right : i + k ≤ p.expected + reach + p.length
  inside : i ≤ p.masks.size

/-- Before row `errors`, a bit of the last row is set if the letters it stands for fit into the
window of that row and are found with its errors. -/
def RowComplete (p : Problem) (text pattern : List Char) (errors reach : Nat)
    (row : Nat → Nat) : Prop :=
  ∀ d, errors = d + 1 → ∀ i k, k < pattern.length → Fits p reach i (k + 1) →
    Near d (lastLetters pattern (k + 1)) (text.drop i) → (row (i + 1)).testBit k = true

theorem rowComplete_zero (reach : Nat) (row : Nat → Nat) :
    RowComplete p text pattern 0 reach row :=
  fun d hd => absurd hd.symm (Nat.succ_ne_zero d)

/-- Letters that fit into a window, and do not stand past the end of a row, are in the row. -/
theorem Fits.le_finish {reach i k : Nat} (h : Fits p reach i (k + 1)) (hlen : 0 < p.length) :
    i < finish p reach ∨ i = finish p reach ∧ i = p.masks.size := by
  have := h.right
  have := h.inside
  unfold finish
  split_ifs <;> omega

/-- What fits into a window fits, with one more letter of the text, into a window that is wider by
one or wide enough for everything. -/
theorem Fits.wider {reach wider i k : Nat} (h : Fits p reach i (k + 1))
    (hx : p.expected ≤ p.masks.size) (hw : min (p.length + p.masks.size) (reach + 1) ≤ wider)
    {i' k' : Nat} (hi : i ≤ i') (hsum : i' + k' ≤ i + k + 2) (hk : k' ≤ p.length)
    (hin : i' ≤ p.masks.size) : Fits p wider i' k' := by
  have := h.left
  have := h.right
  exact ⟨by omega, by omega, hin⟩

/-- Past the text every letter is an error of its own. -/
theorem testBit_rowBits_past_text (hp : p.Reads text pattern) (hx : p.expected ≤ p.masks.size)
    {errors : Nat} {s : Progress α}
    (hlast : RowComplete p text pattern errors s.reach fun i => s.row.getD i 0)
    (hwider : ∀ d, errors = d + 1 →
      min (p.length + p.masks.size) (rowReach p errors s + 1) ≤ s.reach)
    {i k : Nat} (hk : k < pattern.length) (hfits : Fits p (rowReach p errors s) i (k + 1))
    (hi : i = text.length) (herrors : k < errors) :
    (rowBits p errors s (i + 1)).testBit k = true := by
  have hlen := hp.length_eq
  rcases hfits.le_finish (by omega) with hlt | ⟨htop, -⟩
  · obtain ⟨d, rfl⟩ : ∃ d, errors = d + 1 := ⟨errors - 1, by omega⟩
    refine testBit_rowBits_of_spent p _ s hlt (Nat.succ_ne_zero d) (.inr (.inl ?_))
    rintro k rfl
    have hbefore := hfits.wider hx (hwider d rfl) (Nat.le_refl i)
      (show i + (k + 1) ≤ i + (k + 1) + 2 by omega) (by omega) hfits.inside
    refine hlast d rfl i k (by omega) hbefore ?_
    rw [hi, List.drop_length, near_nil_right, length_lastLetters (by omega)]
    omega
  · rw [htop, testBit_rowBits_top]
    exact herrors

/-- **The full row is complete** in its window if the row before is, in a window wider by one or
wide enough for everything. -/
theorem testBit_rowBits_of_near (hp : p.Reads text pattern) (hx : p.expected ≤ p.masks.size)
    {errors : Nat} {s : Progress α}
    (hlast : RowComplete p text pattern errors s.reach fun i => s.row.getD i 0)
    (hwider : ∀ d, errors = d + 1 →
      min (p.length + p.masks.size) (rowReach p errors s + 1) ≤ s.reach)
    {i k : Nat} (hk : k < pattern.length) (hfits : Fits p (rowReach p errors s) i (k + 1))
    (hnear : Near errors (lastLetters pattern (k + 1)) (text.drop i)) :
    (rowBits p errors s (i + 1)).testBit k = true := by
  have hlen := hp.length_eq
  have hsize := hp.size_masks
  -- from the end of the text to the left
  induction hn : text.length - i generalizing i k with
  | zero =>
    have hi : i = text.length := by
      have := hfits.inside
      omega
    rw [hi, List.drop_length, near_nil_right, length_lastLetters (by omega)] at hnear
    exact testBit_rowBits_past_text hp hx hlast hwider hk hfits hi hnear
  | succ n ih =>
    have hlt : i < finish p (rowReach p errors s) := by
      rcases hfits.le_finish (by omega) with hlt | ⟨-, htop⟩
      · exact hlt
      · omega
    obtain ⟨a, ha, hletters⟩ := lastLetters_succ hk
    have hi : i < text.length := by omega
    rw [hletters, List.drop_eq_getElem_cons hi, near_cons_cons] at hnear
    rcases hnear with ⟨rfl, hrest⟩ | ⟨d, rfl, hspent⟩
    · refine testBit_rowBits_of_kept p errors s hlt ((hp.testBit_mask i k).mpr
        ⟨hk, _, List.getElem?_eq_getElem hi, ha⟩) ?_
      rintro k rfl
      have hleft := hfits.left
      have hright := hfits.right
      exact ih (by omega) ⟨by omega, by omega, by omega⟩ hrest (by omega)
    · have hbefore : ∀ i' k', i ≤ i' → i' + k' ≤ i + k + 2 → k' ≤ p.length →
          i' ≤ p.masks.size → Fits p s.reach i' k' :=
        fun i' k' => hfits.wider hx (hwider d rfl)
      apply testBit_rowBits_of_spent p _ s hlt (Nat.succ_ne_zero d)
      rcases hspent with hnear | hnear | hnear
      · -- the letters are exchanged
        refine .inl ?_
        rintro k rfl
        exact hlast d rfl (i + 1) k (by omega)
          (hbefore _ _ (by omega) (by omega) (by omega) (by omega)) hnear
      · -- the letter of the pattern is deleted
        rw [← List.drop_eq_getElem_cons hi] at hnear
        refine .inr (.inl ?_)
        rintro k rfl
        exact hlast d rfl i k (by omega)
          (hbefore _ _ (by omega) (by omega) (by omega) (by omega)) hnear
      · -- the letter of the text is inserted
        rw [← hletters] at hnear
        exact .inr (.inr (hlast d rfl (i + 1) k hk
          (hbefore _ _ (by omega) (by omega) (by omega) (by omega)) hnear))

/-- A row whose window was scanned as a whole hands on what is complete. -/
theorem RowComplete.scanRow (hp : p.Reads text pattern) (hx : p.expected ≤ p.masks.size)
    {errors : Nat} {s : Progress α}
    (hlast : RowComplete p text pattern errors s.reach fun i => s.row.getD i 0)
    (hwider : ∀ d, errors = d + 1 →
      min (p.length + p.masks.size) (rowReach p errors s + 1) ≤ s.reach)
    (hstop : (rowOutcome p errors s).2 ≤ p.expected - rowReach p errors s) :
    RowComplete p text pattern (errors + 1) (scanRow p errors s).reach
      fun i => (scanRow p errors s).row.getD i 0 := by
  intro d hd i k hk hfits hnear
  obtain rfl : errors = d := by omega
  rw [scanRow_reach] at hfits
  have hleft := hfits.left
  simp only [scanRow_getD]
  rw [if_pos (by omega)]
  exact testBit_rowBits_of_near hp hx hlast hwider hk hfits hnear

end

end FuzzySearch.Bitap
