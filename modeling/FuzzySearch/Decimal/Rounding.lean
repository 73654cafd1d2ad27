/-!
# Rounding quotients

`roundQuotient num den` is the integer nearest to `num / den`, a tie going to the even neighbour.
It is never further than half a unit away (`two_mul_roundQuotient_le` and
`le_two_mul_roundQuotient`).  `tenPow n` is the unit of the n-th decimal place.
-/

namespace FuzzySearch.Decimal

/-- The integer nearest to `num / den`; of two equally near ones the even one. -/
def roundQuotient (num den : Nat) : Nat :=
  let floor := num / den
  let rest := num % den
  if 2 * rest < den then floor
  else if den < 2 * rest then floor + 1
  else if floor % 2 = 0 then floor
  else floor + 1

/-- Rounding goes up by half a unit at most. -/
theorem two_mul_roundQuotient_le (num : Nat) {den : Nat} (h : 0 < den) :
    2 * den * roundQuotient num den ≤ 2 * num + den := by
  have hdiv := Nat.div_add_mod num den
  have hmod := Nat.mod_lt num h
  simp only [roundQuotient]
  generalize num / den = q at *
  generalize num % den = r at *
  subst hdiv
  have hq : 2 * den * q = 2 * (den * q) := by rw [Nat.mul_assoc]
  have hq1 : 2 * den * (q + 1) = 2 * (den * q) + 2 * den := by rw [Nat.mul_add, hq]; omega
  split
  · omega
  · split
    · omega
    · split <;> omega

/-- Rounding goes down by half a unit at most. -/
theorem le_two_mul_roundQuotient (num : Nat) {den : Nat} (h : 0 < den) :
    2 * num ≤ 2 * den * roundQuotient num den + den := by
  have hdiv := Nat.div_add_mod num den
  have hmod := Nat.mod_lt num h
  simp only [roundQuotient]
  generalize num / den = q at *
  generalize num % den = r at *
  subst hdiv
  have hq : 2 * den * q = 2 * (den * q) := by rw [Nat.mul_assoc]
  have hq1 : 2 * den * (q + 1) = 2 * (den * q) + 2 * den := by rw [Nat.mul_add, hq]; omega
  split
  · omega
  · split
    · omega
    · split <;> omega

/-- The `n`-th power of ten. -/
def tenPow (n : Nat) : Nat := Nat.pow 10 n

example : (roundQuotient 5 2, roundQuotient 7 2, roundQuotient 8 3) = (2, 4, 3) := by decide

end FuzzySearch.Decimal
