import FuzzySearch.Proofs.Bitap.Rows
import Mathlib.Algebra.Order.Field.Basic
import Mathlib.Algebra.Order.Field.Rat
import Mathlib.Tactic.FieldSimp
import Mathlib.Tactic.Linarith
import Mathlib.Tactic.Positivity

/-!
# Scores in exact arithmetic

At the rationals a score grows with the number of errors and with the way from the expected
position (`score_mono`), so the positions that pass a threshold with a given number of errors are
those within some reach, and `reach` finds it (`le_reach_iff`).  `Ready` is what a run keeps from
row to row, and `le_rowReach_iff` is what it is kept for: a row reaches exactly as far as a match
could pass the threshold.
-/

namespace FuzzySearch

/-! ### The operations at the rationals -/

namespace ScoreNumber

theorem ratio_rat (a b : Int) : (ratio a b : Rat) = (a : Rat) / (b : Rat) := rfl

@[simp] theorem zero_rat : (zero : Rat) = 0 := by
  show ((0 : Int) : Rat) / ((1 : Int) : Rat) = 0
  norm_num

@[simp] theorem one_rat : (one : Rat) = 1 := by
  show ((1 : Int) : Rat) / ((1 : Int) : Rat) = 1
  norm_num

theorem smaller_rat (a b : Rat) : smaller a b = min a b := by
  rw [min_comm]
  show (if b < a then b else a) = min b a
  rw [min_def]
  split_ifs with h1 h2 h2
  · rfl
  · exact absurd h1.le h2
  · exact le_antisymm (not_lt.mp h1) h2
  · rfl

theorem greater_rat (a b : Rat) : greater a b = max a b := by
  show (if a < b then b else a) = max a b
  rw [max_def]
  split_ifs with h1 h2 h2
  · rfl
  · exact absurd h1.le h2
  · exact le_antisymm h2 (not_lt.mp h1)
  · rfl

theorem isZero_rat_iff (x : Rat) : isZero x = true ↔ x = 0 := by
  rw [isZero, Bool.and_eq_true, decide_eq_true_iff, decide_eq_true_iff, zero_rat]
  exact ⟨fun h => le_antisymm h.1 h.2, fun h => ⟨h.le, h.ge⟩⟩

theorem sum_rat (xs : List Rat) : sum xs = xs.sum := by
  show xs.foldl (· + ·) (zero : Rat) = xs.sum
  rw [zero_rat, List.sum_eq_foldl]

theorem mean_rat (total : Rat) (count : Nat) : mean total count = total / count := by
  show total / (((count : Int) : Rat) / ((1 : Int) : Rat)) = total / count
  norm_num

end ScoreNumber

namespace Bitap

open ScoreNumber

@[simp] theorem floorScore_rat : (floorScore : Rat) = 1 / 1000 := by
  rw [floorScore, ratio_rat]
  norm_num

/-! ### The greatest accepted distance -/

theorem bisect_spec (accepts : Nat → Bool) {low high : Nat} (hlt : low < high)
    (hlow : accepts low = true) (hhigh : accepts high = false) :
    accepts (bisect accepts low high) = true ∧
      accepts (bisect accepts low high + 1) = false := by
  fun_induction bisect accepts low high with
  | case1 low high h middle hacc ih => exact ih (by omega) hacc hhigh
  | case2 low high h middle hacc ih => exact ih (by omega) hlow (by simpa using hacc)
  | case3 low high h =>
    obtain rfl : high = low + 1 := by omega
    exact ⟨hlow, hhigh⟩

/-- When acceptance stops once and for all, `reach` tells which distances are accepted. -/
theorem le_reach_iff {accepts : Nat → Bool} {limit : Nat} (hzero : accepts 0 = true)
    (hanti : ∀ a b, a ≤ b → accepts b = true → accepts a = true) {d : Nat} (hd : d ≤ limit) :
    d ≤ reach accepts limit ↔ accepts d = true := by
  rw [reach]
  by_cases hlimit : accepts limit = true
  · rw [if_pos hlimit]
    exact ⟨fun _ => hanti d limit hd hlimit, fun _ => hd⟩
  · rw [if_neg hlimit]
    have hpos : 0 < limit := by
      by_contra h
      obtain rfl : limit = 0 := by omega
      exact hlimit hzero
    -- the bisection ends between a distance that is accepted and the next, which is not
    obtain ⟨hin, hout⟩ := bisect_spec accepts hpos hzero (by simpa using hlimit)
    constructor
    · intro hle
      exact hanti _ _ hle hin
    · intro hacc
      by_contra hgt
      have := hanti (bisect accepts 0 limit + 1) d (by omega) hacc
      rw [hout] at this
      exact Bool.noConfusion this

/-! ### Scores -/

/-- The way from the expected position. -/
def Problem.way (p : Problem) (position : Nat) : Nat := ((p.expected : Int) - position).natAbs

/-- A pattern with letters, a text that has the expected position, and a distance that is not
negative. -/
structure Problem.Proper (p : Problem) : Prop where
  length_pos : 0 < p.length
  expected_le : p.expected ≤ p.masks.size
  distance_nonneg : 0 ≤ p.distance

section score

variable {p : Problem}

theorem way_add (p : Problem) (d : Nat) : p.way (p.expected + d) = d := by
  unfold Problem.way
  omega

theorem way_expected (p : Problem) : p.way p.expected = 0 := by
  unfold Problem.way
  omega

theorem score_anywhere (h : p.ignoreLocation = true) (errors position : Nat) :
    (p.score errors position : Rat) = (errors : Rat) / p.length := by
  unfold Problem.score score
  rw [if_pos h]
  rfl

theorem score_located (h : p.ignoreLocation = false) (errors position : Nat) :
    (p.score errors position : Rat)
      = if p.distance = 0 then (if p.way position = 0 then (errors : Rat) / p.length else 1)
        else (errors : Rat) / p.length + (p.way position : Rat) / p.distance := by
  unfold Problem.score score Problem.way
  rw [if_neg (by rw [h]; exact Bool.false_ne_true)]
  simp only [ratio_rat, one_rat, Int.cast_natCast, Int.natCast_eq_zero]

/-- At the expected position only the errors count. -/
theorem score_expected (p : Problem) (errors : Nat) :
    (p.score errors p.expected : Rat) = (errors : Rat) / p.length := by
  cases hl : p.ignoreLocation with
  | true => exact score_anywhere hl ..
  | false =>
    rw [score_located hl, way_expected, Nat.cast_zero, zero_div, add_zero, if_pos rfl, ite_self]

/-- A score depends on the position only through the way from the expected position. -/
theorem score_eq_of_way {i j : Nat} (h : p.way i = p.way j) (errors : Nat) :
    (p.score errors i : Rat) = p.score errors j := by
  cases hl : p.ignoreLocation with
  | true => rw [score_anywhere hl, score_anywhere hl]
  | false => rw [score_located hl, score_located hl, h]

theorem score_way (errors i : Nat) :
    (p.score errors i : Rat) = p.score errors (p.expected + p.way i) :=
  score_eq_of_way (way_add p (p.way i)).symm errors

/-- The share of errors, which lies between zero and one. -/
theorem share_mono (hp : p.Proper) {e e' : Nat} (he : e ≤ e') :
    (e : Rat) / p.length ≤ (e' : Rat) / p.length := by
  have hlen : (0 : Rat) < p.length := by exact_mod_cast hp.length_pos
  have hcast : (e : Rat) ≤ e' := by exact_mod_cast he
  exact div_le_div_of_nonneg_right hcast hlen.le

theorem share_le_one (hp : p.Proper) {e : Nat} (he : e ≤ p.length) :
    (e : Rat) / p.length ≤ 1 := by
  have hlen : (0 : Rat) < p.length := by exact_mod_cast hp.length_pos
  rw [div_le_one hlen]
  exact_mod_cast he

theorem share_lt_succ (hp : p.Proper) (e : Nat) :
    (e : Rat) / p.length < ((e + 1 : Nat) : Rat) / p.length := by
  have hlen : (0 : Rat) < p.length := by exact_mod_cast hp.length_pos
  have hcast : (e : Rat) < ((e + 1 : Nat) : Rat) := by exact_mod_cast Nat.lt_succ_self e
  exact div_lt_div_of_pos_right hcast hlen

/-- **More errors and a longer way never lower a score.** -/
theorem score_mono (hp : p.Proper) {e e' i j : Nat} (he : e ≤ e') (hlen : e ≤ p.length)
    (hway : p.way i ≤ p.way j) : (p.score e i : Rat) ≤ p.score e' j := by
  cases hl : p.ignoreLocation with
  | true =>
    rw [score_anywhere hl, score_anywhere hl]
    exact share_mono hp he
  | false =>
    rw [score_located hl, score_located hl]
    have hdist := hp.distance_nonneg
    split_ifs with hd hi hj hj
    · exact share_mono hp he
    -- with a distance of zero a match elsewhere costs a full point
    · exact share_le_one hp hlen
    · omega
    · exact le_rfl
    · have hpos : (0 : Rat) < p.distance := by
        exact_mod_cast lt_of_le_of_ne hdist (Ne.symm hd)
      have hcast : (p.way i : Rat) ≤ p.way j := by exact_mod_cast hway
      exact add_le_add (share_mono hp he) (div_le_div_of_nonneg_right hcast hpos.le)

theorem score_nonneg (hp : p.Proper) (errors position : Nat) :
    (0 : Rat) ≤ p.score errors position := by
  have hshare : (0 : Rat) ≤ (errors : Rat) / p.length := by positivity
  cases hl : p.ignoreLocation with
  | true => rwa [score_anywhere hl]
  | false =>
    rw [score_located hl]
    have hdist : (0 : Rat) ≤ p.distance := by exact_mod_cast hp.distance_nonneg
    split_ifs
    · exact hshare
    · exact zero_le_one
    · positivity

end score

/-! ### What a row reaches -/

/-- The longest way inside a text and a pattern together. -/
def Problem.span (p : Problem) : Nat := p.length + p.masks.size

/-- Before row `errors`: a match at the expected position could pass the threshold, and the last row
reached as far as any match could. -/
structure Ready (p : Problem) (errors : Nat) (s : Progress Rat) : Prop where
  errors_le : errors ≤ p.length
  expected : (p.score errors p.expected : Rat) ≤ s.best.threshold
  reach_le : s.reach ≤ p.span
  le_reach : ∀ d, d ≤ p.span → (p.score errors (p.expected + d) : Rat) ≤ s.best.threshold →
    d ≤ s.reach

/-- A row reaches exactly as far as a match could pass the threshold. -/
theorem le_rowReach_iff {p : Problem} (hp : p.Proper) {errors : Nat} {s : Progress Rat}
    (h : Ready p errors s) {d : Nat} (hd : d ≤ p.span) :
    d ≤ rowReach p errors s ↔ (p.score errors (p.expected + d) : Rat) ≤ s.best.threshold := by
  have hanti : ∀ a b, a ≤ b → (p.score errors (p.expected + b) : Rat) ≤ s.best.threshold →
      (p.score errors (p.expected + a) : Rat) ≤ s.best.threshold := by
    intro a b hab hb
    refine le_trans (score_mono hp (Nat.le_refl errors) h.errors_le ?_) hb
    rwa [way_add, way_add]
  -- the row looks no further than the row before; what lies beyond did not pass then either
  by_cases hlimit : d ≤ s.reach
  · rw [rowReach, le_reach_iff (decide_eq_true h.expected) (fun a b hab hb =>
      decide_eq_true (hanti a b hab (of_decide_eq_true hb))) hlimit]
    exact decide_eq_true_iff
  · have hreach : rowReach p errors s ≤ s.reach := reach_le _ _
    constructor
    · intro hle
      omega
    · intro hscore
      exact absurd (h.le_reach d hd hscore) hlimit

theorem rowReach_le {p : Problem} {errors : Nat} {s : Progress Rat} (h : Ready p errors s) :
    rowReach p errors s ≤ p.span :=
  (reach_le _ _).trans h.reach_le

/-! ### The threshold along a run -/

theorem sweep_threshold_le (p : Problem) (errors : Nat) (hit : Nat → Bool) (j start : Nat)
    (best : Best Rat) :
    (sweep p errors hit j start best).1.threshold ≤ best.threshold := by
  induction j generalizing start best with
  | zero => exact le_rfl
  | succ j ih =>
    rcases sweep_cases p errors hit j start best with h | ⟨h, hhit | ⟨hhit, hs⟩ | ⟨hhit, hs⟩⟩
    · rw [sweep_of_lt p errors hit best h]
    · rw [sweep_of_not_hit p errors hit best h hhit]
      exact ih _ _
    · rw [sweep_of_rejected p errors hit best h hhit hs]
      exact ih _ _
    · rw [sweep_of_accepted p errors hit best h hhit hs]
      split_ifs
      · exact hs
      · exact (ih _ _).trans hs

theorem scanRow_threshold_le (p : Problem) (errors : Nat) (s : Progress Rat) :
    (scanRow p errors s).best.threshold ≤ s.best.threshold := by
  rw [scanRow_best]
  exact sweep_threshold_le ..

theorem Ready.next {p : Problem} (hp : p.Proper) {errors : Nat} {s : Progress Rat}
    (h : Ready p errors s) (herr : errors < p.length)
    (hexpected : (p.score (errors + 1) p.expected : Rat) ≤ (scanRow p errors s).best.threshold) :
    Ready p (errors + 1) (scanRow p errors s) where
  errors_le := herr
  expected := hexpected
  reach_le := by
    rw [scanRow_reach]
    exact rowReach_le h
  le_reach d hd hscore := by
    rw [scanRow_reach, le_rowReach_iff hp h hd]
    calc (p.score errors (p.expected + d) : Rat)
        ≤ p.score (errors + 1) (p.expected + d) :=
          score_mono hp (Nat.le_succ errors) herr.le le_rfl
      _ ≤ (scanRow p errors s).best.threshold := hscore
      _ ≤ s.best.threshold := scanRow_threshold_le p errors s

/-! ### Windows -/

theorem finish_mono (p : Problem) {reach reach' : Nat} (h : reach ≤ reach') :
    finish p reach ≤ finish p reach' := by
  unfold finish
  split_ifs <;> omega

theorem start_anti (p : Problem) {reach reach' : Nat} (h : reach ≤ reach') :
    start p reach' ≤ start p reach := by
  unfold start
  omega

theorem expected_le_finish {p : Problem} (hp : p.Proper) (reach : Nat) :
    p.expected ≤ finish p reach := by
  have := hp.expected_le
  unfold finish
  split_ifs <;> omega

/-- A row that accepts nothing is scanned down to the left end of its window. -/
theorem Passes.stop_eq {p : Problem} {errors : Nat} (hp : p.Proper) {hit : Nat → Bool}
    {reach : Nat} {best : Best Rat} {outcome : Best Rat × Nat}
    (h : Passes p errors hit (finish p reach) (start p reach) best outcome) :
    outcome.2 = p.expected - reach := by
  have hstop := h.stop
  have hexpected := expected_le_finish hp reach
  unfold start at hstop
  omega

/-- A character of the text whose way is within reach is in the window. -/
theorem mem_window {p : Problem} (hp : p.Proper) {reach i : Nat} (hway : p.way i ≤ reach)
    (hi : i < p.masks.size) : start p reach ≤ i + 1 ∧ i < finish p reach := by
  have := hp.length_pos
  unfold Problem.way at hway
  unfold start finish
  split_ifs <;> omega

theorem size_le_span (p : Problem) : p.masks.size ≤ p.span := by
  unfold Problem.span
  omega

theorem finish_le_span (p : Problem) (reach : Nat) : finish p reach ≤ p.span := by
  unfold finish Problem.span
  split_ifs <;> omega

theorem way_le_span {p : Problem} (hp : p.Proper) {i : Nat} (hi : i ≤ p.span) :
    p.way i ≤ p.span := by
  have := hp.expected_le
  unfold Problem.way Problem.span at *
  omega

/-- The ways that pass a threshold with the errors of a row are those within its reach. -/
theorem way_le_rowReach_iff {p : Problem} (hp : p.Proper) {errors : Nat} {s : Progress Rat}
    (h : Ready p errors s) {i : Nat} (hi : i ≤ p.span) :
    p.way i ≤ rowReach p errors s ↔ (p.score errors i : Rat) ≤ s.best.threshold := by
  rw [le_rowReach_iff hp h (way_le_span hp hi), ← score_way]

end Bitap

end FuzzySearch
