/-!
# How far to look

`reach accepts limit` looks for the greatest distance up to `limit` that is still accepted.  It
tries the limit first and then halves the interval that is left, so it finds that distance when
acceptance stops once and for all, and zero when nothing is accepted.
-/

namespace FuzzySearch.Bitap

/-- Halves the interval between an accepted (or zero) `low` and a refused `high`. -/
def bisect (accepts : Nat → Bool) (low high : Nat) : Nat :=
  if low + 1 < high then
    let middle := (high - low) / 2 + low
    if accepts middle then bisect accepts middle high else bisect accepts low middle
  else low
termination_by high - low

/-- The distance that is found by trying the limit and then halving. -/
def reach (accepts : Nat → Bool) (limit : Nat) : Nat :=
  if accepts limit then limit else bisect accepts 0 limit

theorem bisect_le (accepts : Nat → Bool) (low high : Nat) (h : low ≤ high) :
    bisect accepts low high ≤ high := by
  fun_induction bisect accepts low high with
  | case1 low high hlt middle hacc ih => exact ih (by omega)
  | case2 low high hlt middle hacc ih => exact Nat.le_trans (ih (by omega)) (by omega)
  | case3 low high hlt => omega

theorem reach_le (accepts : Nat → Bool) (limit : Nat) : reach accepts limit ≤ limit := by
  simp only [reach]
  split
  · exact Nat.le_refl _
  · exact bisect_le accepts 0 limit (Nat.zero_le _)

end FuzzySearch.Bitap
