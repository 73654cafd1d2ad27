import Mathlib.Data.List.Infix
import Mathlib.Order.Bounds.Basic
import Mathlib.Order.MinMax

/-!
# Edit distance

`editDistance p t` is the Levenshtein distance of two texts: the least number of characters that
have to be deleted, inserted or replaced to turn one into the other.  `Near e p t` says that some
beginning of `t` is within distance `e` of `p`; `near_cons_cons` is the recursion that a matcher
which reads both texts from the left can follow.  `infixDistance p t` is the least distance of `p`
to any contiguous part of `t` (`isLeast_infixDistance`).
-/

namespace FuzzySearch.Text

/-! ### The distance of two texts -/

/-- The distances of `a :: p` to all texts, from those of `p`: the letter `a` is deleted, a letter
is inserted before it, or it is matched with the first letter of the text. -/
def distanceRow (a : Char) (above : List Char → Nat) : List Char → Nat
  | [] => above [] + 1
  | b :: t =>
    min (above (b :: t) + 1)
      (min (distanceRow a above t + 1) (above t + if a = b then 0 else 1))

/-- The least number of single-character edits between two texts. -/
def editDistance : List Char → List Char → Nat
  | [] => List.length
  | a :: p => distanceRow a (editDistance p)

theorem editDistance_nil_right (p : List Char) : editDistance p [] = p.length := by
  induction p with
  | nil => rfl
  | cons a p ih =>
    show editDistance p [] + 1 = p.length + 1
    rw [ih]

theorem editDistance_cons_cons (a b : Char) (p t : List Char) :
    editDistance (a :: p) (b :: t)
      = min (editDistance p (b :: t) + 1)
          (min (editDistance (a :: p) t + 1) (editDistance p t + if a = b then 0 else 1)) :=
  rfl

example : editDistance "kitten".toList "sitting".toList = 3 := by decide +kernel

/-! ### What one step costs -/

theorem editDistance_cons_keep (a : Char) (p s : List Char) :
    editDistance (a :: p) (a :: s) ≤ editDistance p s := by
  rw [editDistance_cons_cons, if_pos rfl]
  omega

theorem editDistance_cons_replace (a b : Char) (p s : List Char) :
    editDistance (a :: p) (b :: s) ≤ editDistance p s + 1 := by
  rw [editDistance_cons_cons]
  split <;> omega

theorem editDistance_cons_delete (a : Char) (p s : List Char) :
    editDistance (a :: p) s ≤ editDistance p s + 1 := by
  cases s with
  | nil =>
    rw [editDistance_nil_right, editDistance_nil_right]
    exact Nat.le_refl _
  | cons b s =>
    rw [editDistance_cons_cons]
    omega

theorem editDistance_cons_insert (b : Char) (p s : List Char) :
    editDistance p (b :: s) ≤ editDistance p s + 1 := by
  cases p with
  | nil => exact Nat.le_refl _
  | cons a p =>
    rw [editDistance_cons_cons]
    omega

theorem editDistance_self (p : List Char) : editDistance p p = 0 := by
  induction p with
  | nil => rfl
  | cons a p ih => exact Nat.le_zero.mp ((editDistance_cons_keep a p p).trans ih.le)

/-! ### Distance to the beginning of a text -/

/-- Some beginning of `t` is within distance `e` of `p`. -/
def Near (e : Nat) (p t : List Char) : Prop := ∃ s, s <+: t ∧ editDistance p s ≤ e

theorem near_nil_left (e : Nat) (t : List Char) : Near e [] t :=
  ⟨[], List.nil_prefix, Nat.zero_le e⟩

theorem near_nil_right (e : Nat) (p : List Char) : Near e p [] ↔ p.length ≤ e := by
  constructor
  · rintro ⟨s, hs, hle⟩
    rw [List.prefix_nil] at hs
    rwa [hs, editDistance_nil_right] at hle
  · intro h
    exact ⟨[], List.nil_prefix, by rwa [editDistance_nil_right]⟩

/-- Deleting every letter costs the length of the pattern, whatever the text. -/
theorem near_of_length_le {e : Nat} {p : List Char} (h : p.length ≤ e) (t : List Char) :
    Near e p t :=
  ⟨[], List.nil_prefix, by rwa [editDistance_nil_right]⟩

theorem Near.mono {e e' : Nat} {p t : List Char} (h : Near e p t) (hle : e ≤ e') :
    Near e' p t := by
  obtain ⟨s, hs, hd⟩ := h
  exact ⟨s, hs, hd.trans hle⟩

theorem near_zero_iff (p t : List Char) : Near 0 p t ↔ p <+: t := by
  induction p generalizing t with
  | nil => simp [near_nil_left]
  | cons a p ih =>
    cases t with
    | nil => simp [near_nil_right]
    | cons b t =>
      rw [List.cons_prefix_cons, ← ih t]
      constructor
      · rintro ⟨s, hs, hd⟩
        cases s with
        | nil => simp [editDistance_nil_right] at hd
        | cons c s =>
          obtain ⟨rfl, hst⟩ := List.cons_prefix_cons.mp hs
          rw [editDistance_cons_cons] at hd
          by_cases hab : a = c
          · rw [if_pos hab] at hd
            exact ⟨hab, s, hst, by omega⟩
          · rw [if_neg hab] at hd
            omega
      · rintro ⟨rfl, s, hst, hd⟩
        exact ⟨a :: s, List.cons_prefix_cons.mpr ⟨rfl, hst⟩, (editDistance_cons_keep a p s).trans hd⟩

/-- The first letters agree and cost nothing, or one error is spent: the letters are exchanged, the
letter of the pattern is deleted, or the letter of the text was inserted. -/
theorem near_cons_cons (e : Nat) (a b : Char) (p t : List Char) :
    Near e (a :: p) (b :: t) ↔
      a = b ∧ Near e p t ∨
        ∃ d, e = d + 1 ∧ (Near d p t ∨ Near d p (b :: t) ∨ Near d (a :: p) t) := by
  constructor
  · rintro ⟨s, hs, hd⟩
    cases s with
    | nil =>
      -- against the empty beginning every letter of the pattern is deleted
      rw [editDistance_nil_right, List.length_cons] at hd
      exact Or.inr ⟨e - 1, by omega, Or.inr (Or.inl (near_of_length_le (by omega) _))⟩
    | cons c s =>
      obtain ⟨rfl, hst⟩ := List.cons_prefix_cons.mp hs
      rw [editDistance_cons_cons, min_le_iff, min_le_iff] at hd
      -- the three terms of the minimum: deletion, insertion, and the first letters side by side
      rcases hd with hd | hd | hd
      · exact Or.inr ⟨e - 1, by omega, Or.inr (Or.inl ⟨c :: s, hs, by omega⟩)⟩
      · exact Or.inr ⟨e - 1, by omega, Or.inr (Or.inr ⟨s, hst, by omega⟩)⟩
      · by_cases hab : a = c
        · rw [if_pos hab] at hd
          exact Or.inl ⟨hab, s, hst, hd⟩
        · rw [if_neg hab] at hd
          exact Or.inr ⟨e - 1, by omega, Or.inl ⟨s, hst, by omega⟩⟩
  · rintro (⟨rfl, s, hst, hd⟩ | ⟨d, rfl, ⟨s, hst, hd⟩ | ⟨s, hst, hd⟩ | ⟨s, hst, hd⟩⟩)
    · exact ⟨a :: s, List.cons_prefix_cons.mpr ⟨rfl, hst⟩, (editDistance_cons_keep a p s).trans hd⟩
    · exact ⟨b :: s, List.cons_prefix_cons.mpr ⟨rfl, hst⟩,
        (editDistance_cons_replace a b p s).trans (Nat.succ_le_succ hd)⟩
    · exact ⟨s, hst, (editDistance_cons_delete a p s).trans (Nat.succ_le_succ hd)⟩
    · exact ⟨b :: s, List.cons_prefix_cons.mpr ⟨rfl, hst⟩,
        (editDistance_cons_insert b (a :: p) s).trans (Nat.succ_le_succ hd)⟩

/-- An error is spent on deleting a letter of the pattern. -/
theorem Near.delete {d : Nat} {p t : List Char} (h : Near d p t) (a : Char) :
    Near (d + 1) (a :: p) t := by
  obtain ⟨s, hst, hd⟩ := h
  exact ⟨s, hst, (editDistance_cons_delete a p s).trans (Nat.succ_le_succ hd)⟩

/-- An error is spent on exchanging a letter of the pattern for a letter of the text. -/
theorem Near.replace {d : Nat} {p t : List Char} (h : Near d p t.tail) (a : Char) :
    Near (d + 1) (a :: p) t := by
  cases t with
  -- there is no letter to exchange, so deleting does as well
  | nil => exact Near.delete h a
  | cons b t => exact (near_cons_cons _ a b p t).mpr (Or.inr ⟨d, rfl, Or.inl h⟩)

/-- An error is spent on a letter of the text that the pattern does not have. -/
theorem Near.insert {d : Nat} {p t : List Char} (h : Near d p t.tail) : Near (d + 1) p t := by
  cases p with
  | nil => exact near_nil_left _ _
  | cons a p =>
    cases t with
    | nil => exact h.mono (Nat.le_succ d)
    | cons b t => exact (near_cons_cons _ a b p t).mpr (Or.inr ⟨d, rfl, Or.inr (Or.inr h)⟩)

/-! ### Distance to the parts of a text -/

/-- The least distance of `p` to a contiguous part of `t`; the empty part is one of them. -/
def infixDistance (p t : List Char) : Nat :=
  ((t.tails.flatMap List.inits).map (editDistance p)).foldr min p.length

theorem mem_inits_tails (s t : List Char) : s ∈ t.tails.flatMap List.inits ↔ s <:+: t := by
  rw [List.mem_flatMap, List.infix_iff_prefix_suffix]
  simp only [List.mem_tails, List.mem_inits, and_comm]

theorem foldr_min_le_of_mem (bound : Nat) {x : Nat} {xs : List Nat} (h : x ∈ xs) :
    xs.foldr min bound ≤ x := by
  induction xs with
  | nil => simp at h
  | cons y xs ih =>
    rcases List.mem_cons.mp h with rfl | h
    · exact min_le_left _ _
    · exact (min_le_right _ _).trans (ih h)

theorem foldr_min_mem (bound : Nat) (xs : List Nat) :
    xs.foldr min bound = bound ∨ xs.foldr min bound ∈ xs := by
  induction xs with
  | nil => exact Or.inl rfl
  | cons x xs ih =>
    rw [List.foldr_cons]
    rcases min_choice x (xs.foldr min bound) with h | h
    · rw [h]
      exact Or.inr (List.mem_cons_self ..)
    · rw [h]
      exact ih.imp id fun h => List.mem_cons_of_mem _ h

/-- `infixDistance` is the least of the distances to the contiguous parts of a text. -/
theorem isLeast_infixDistance (p t : List Char) :
    IsLeast {d | ∃ s, s <:+: t ∧ editDistance p s = d} (infixDistance p t) := by
  constructor
  · rcases foldr_min_mem p.length ((t.tails.flatMap List.inits).map (editDistance p)) with h | h
    · exact ⟨[], List.nil_infix, by rw [editDistance_nil_right]; exact h.symm⟩
    · obtain ⟨s, hs, hd⟩ := List.mem_map.mp h
      exact ⟨s, (mem_inits_tails s t).mp hs, hd⟩
  · rintro d ⟨s, hs, rfl⟩
    exact foldr_min_le_of_mem _ (List.mem_map_of_mem ((mem_inits_tails s t).mpr hs))

/-- A part within distance `e` begins somewhere in the text or at its end. -/
theorem infixDistance_le_iff (e : Nat) (p t : List Char) :
    infixDistance p t ≤ e ↔ ∃ i, i ≤ t.length ∧ Near e p (t.drop i) := by
  obtain ⟨⟨s, hs, hd⟩, hleast⟩ := isLeast_infixDistance p t
  constructor
  · intro hle
    -- a part is a beginning of an end `u` of the text
    obtain ⟨u, hsu, hut⟩ := List.infix_iff_prefix_suffix.mp hs
    have hdrop : u = t.drop (t.length - u.length) := List.suffix_iff_eq_drop.mp hut
    refine ⟨t.length - u.length, by omega, s, ?_, by omega⟩
    rw [← hdrop]
    exact hsu
  · rintro ⟨i, -, s', hs', hd'⟩
    have hinfix : s' <:+: t := hs'.isInfix.trans (List.drop_suffix i t).isInfix
    exact (hleast ⟨s', hinfix, rfl⟩).trans hd'

end FuzzySearch.Text
