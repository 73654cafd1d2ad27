import FuzzySearch.Decimal.Shortest
import FuzzySearch.Proofs.Decimal.Fields
import Mathlib.Algebra.Order.Field.Power
import Mathlib.Algebra.Order.Field.Rat
import Mathlib.Tactic.FieldSimp
import Mathlib.Tactic.Linarith
import Mathlib.Tactic.Positivity
import Mathlib.Tactic.Ring

/-!
# The nearest double

The fractions that round to a double form an interval around it (`Binary.Rounds`), and the double is
the nearest one to each of them (`nearest_eq_of_rounds`).  The search for the nearest double first
looks for the exponent at which a fraction has 53 bits before the point, or fewer at the least
exponent (`exists_nearest_eq`).  It is the exponent of the double, except just below a power of two,
where it is smaller by one.
-/

namespace FuzzySearch.Decimal

/-! ### Powers -/

/-- A power whose exponent is an integer, as the quotient of two powers. -/
theorem pow_toNat_eq {base : ℚ} (hbase : base ≠ 0) (exponent : ℤ) :
    base ^ exponent.toNat = base ^ exponent * base ^ (-exponent).toNat := by
  rw [← zpow_natCast, ← zpow_natCast, ← zpow_add₀ hbase]
  congr 1
  omega

/-- A fraction whose point is moved. -/
theorem scaled_div {base : ℚ} (hbase : base ≠ 0) (num den : ℚ) (exponent : ℤ) :
    num * base ^ (-exponent).toNat / (den * base ^ exponent.toNat)
      = num / den / base ^ exponent := by
  rw [pow_toNat_eq hbase exponent]
  field_simp

/-! ### Rounding a quotient -/

/-- A quotient rounds to an integer that is no further than half a unit away, and less far if it is
odd. -/
theorem roundQuotient_eq {num den m : ℕ} (hden : 0 < den) (hlow : 2 * m * den ≤ 2 * num + den)
    (hhigh : 2 * num ≤ 2 * m * den + den)
    (heven : m % 2 = 0 ∨ 2 * m * den < 2 * num + den ∧ 2 * num < 2 * m * den + den) :
    roundQuotient num den = m := by
  have hdiv := Nat.div_add_mod num den
  have hmod := Nat.mod_lt num hden
  unfold roundQuotient
  simp only
  generalize num / den = q at *
  generalize num % den = r at *
  subst hdiv
  have hcases : m = q ∨ m = q + 1 := by
    by_contra hne
    rcases Nat.lt_or_ge m q with hlt | hge
    · have := Nat.mul_le_mul_right den (show m + 1 ≤ q from hlt)
      linarith [Nat.mul_comm den q]
    · have := Nat.mul_le_mul_right den (show q + 2 ≤ m by omega)
      linarith [Nat.mul_comm den q]
  have hcomm := Nat.mul_comm den q
  rcases hcases with rfl | rfl
  · have hle : 2 * r ≤ den := by linarith
    rcases heven with heven | ⟨-, hstrict⟩
    · split_ifs <;> omega
    · have hlt : 2 * r < den := by linarith
      rw [if_pos hlt]
  · have hge : den ≤ 2 * r := by linarith
    rcases heven with heven | ⟨hstrict, -⟩
    · split_ifs <;> omega
    · have hlt : den < 2 * r := by linarith
      rw [if_neg (by omega), if_pos hlt]

/-- The same for fractions. -/
theorem roundQuotient_eq_of_near {num den m : ℕ} (hden : 0 < den)
    (hlow : 2 * (m : ℚ) - 1 ≤ 2 * (num / den)) (hhigh : 2 * (num / den : ℚ) ≤ 2 * m + 1)
    (heven : m % 2 = 0 ∨ 2 * (m : ℚ) - 1 < 2 * (num / den) ∧ 2 * (num / den : ℚ) < 2 * m + 1) :
    roundQuotient num den = m := by
  have hpos : (0 : ℚ) < den := by exact_mod_cast hden
  have hnum : (num : ℚ) = num / den * den := by field_simp
  have hle : ∀ {a b : ℚ}, a ≤ b → a * den ≤ b * den := fun h => mul_le_mul_of_nonneg_right h hpos.le
  have hlt : ∀ {a b : ℚ}, a < b → a * den < b * den := fun h => mul_lt_mul_of_pos_right h hpos
  refine roundQuotient_eq hden ?_ ?_ (heven.imp_right fun ⟨hl, hh⟩ => ⟨?_, ?_⟩)
  · have : (2 * m * den : ℚ) ≤ 2 * num + den := by
      rw [hnum]
      linarith [hle hlow]
    exact_mod_cast this
  · have : (2 * num : ℚ) ≤ 2 * m * den + den := by
      rw [hnum]
      linarith [hle hhigh]
    exact_mod_cast this
  · have : (2 * m * den : ℚ) < 2 * num + den := by
      rw [hnum]
      linarith [hlt hl]
    exact_mod_cast this
  · have : (2 * num : ℚ) < 2 * m * den + den := by
      rw [hnum]
      linarith [hlt hh]
    exact_mod_cast this

/-! ### The exponent of a fraction -/

theorem log2_bounds {n : ℕ} (h : 0 < n) :
    (2 : ℚ) ^ (n.log2 : ℤ) ≤ n ∧ (n : ℚ) < 2 ^ ((n.log2 : ℤ) + 1) := by
  constructor
  · rw [zpow_natCast]
    exact_mod_cast Nat.log2_self_le h.ne'
  · have hlt : n < 2 ^ (n.log2 + 1) := Nat.lt_log2_self
    rw [show ((n.log2 : ℤ) + 1) = ((n.log2 + 1 : ℕ) : ℤ) from rfl, zpow_natCast]
    exact_mod_cast hlt

/-- A fraction lies between two powers of two. -/
theorem two_zpow_lt_div {num den : ℕ} (hnum : 0 < num) (hden : 0 < den) :
    (2 : ℚ) ^ ((num.log2 : ℤ) - den.log2 - 1) < num / den ∧
      (num / den : ℚ) < 2 ^ ((num.log2 : ℤ) - den.log2 + 1) := by
  obtain ⟨hnumLow, hnumHigh⟩ := log2_bounds hnum
  obtain ⟨hdenLow, hdenHigh⟩ := log2_bounds hden
  have hpos : (0 : ℚ) < den := by exact_mod_cast hden
  constructor
  · rw [lt_div_iff₀ hpos]
    calc (2 : ℚ) ^ ((num.log2 : ℤ) - den.log2 - 1) * den
        < 2 ^ ((num.log2 : ℤ) - den.log2 - 1) * 2 ^ ((den.log2 : ℤ) + 1) :=
          mul_lt_mul_of_pos_left hdenHigh (by positivity)
      _ = 2 ^ (num.log2 : ℤ) := by rw [← zpow_add₀ two_ne_zero]; congr 1; omega
      _ ≤ num := hnumLow
  · rw [div_lt_iff₀ hpos]
    calc (num : ℚ) < 2 ^ ((num.log2 : ℤ) + 1) := hnumHigh
      _ = 2 ^ ((num.log2 : ℤ) - den.log2 + 1) * 2 ^ (den.log2 : ℤ) := by
          rw [← zpow_add₀ two_ne_zero]; congr 1; omega
      _ ≤ 2 ^ ((num.log2 : ℤ) - den.log2 + 1) * den :=
          mul_le_mul_of_nonneg_left hdenLow (by positivity)

theorem scaled_two (num den : ℕ) (exponent : ℤ) :
    ((num <<< (-exponent).toNat : ℕ) : ℚ) / (den <<< exponent.toNat : ℕ)
      = num / den / 2 ^ exponent := by
  rw [Nat.shiftLeft_eq, Nat.shiftLeft_eq]
  push_cast
  exact scaled_div two_ne_zero _ _ _

/-- **The nearest double is composed at the exponent at which the fraction has 53 bits** before the
point, or at the least exponent if it has fewer there. -/
theorem exists_nearest_eq {num den : ℕ} (hnum : 0 < num) (hden : 0 < den) :
    ∃ exponent : ℤ, nearest num den
        = compose (roundQuotient (num <<< (-exponent).toNat) (den <<< exponent.toNat)) exponent ∧
      -1074 ≤ exponent ∧ (num / den : ℚ) < 2 ^ 53 * 2 ^ exponent ∧
      (exponent = -1074 ∨ 2 ^ 52 * 2 ^ exponent ≤ (num / den : ℚ)) := by
  obtain ⟨hlow, hhigh⟩ := two_zpow_lt_div hnum hden
  have hfloor : ∀ exponent : ℤ,
      (num <<< (-exponent).toNat / den <<< exponent.toNat < 1 <<< 53 ↔
        (num / den : ℚ) < 2 ^ 53 * 2 ^ exponent) := by
    intro exponent
    have hpos : (0 : ℚ) < (den <<< exponent.toNat : ℕ) := by
      rw [Nat.shiftLeft_eq]
      positivity
    have hpower : (0 : ℚ) < 2 ^ exponent := by positivity
    rw [Nat.div_lt_iff_lt_mul (by exact_mod_cast hpos), ← div_lt_iff₀ hpower, ← scaled_two,
      div_lt_iff₀ hpos]
    exact_mod_cast Iff.rfl
  have hpow : ∀ k : ℕ, ∀ exponent : ℤ, (2 : ℚ) ^ k * 2 ^ exponent = 2 ^ ((k : ℤ) + exponent) := by
    intro k exponent
    rw [zpow_add₀ two_ne_zero, zpow_natCast]
  have hmono : ∀ {i j : ℤ}, i ≤ j → (2 : ℚ) ^ i ≤ 2 ^ j := fun h => zpow_le_zpow_right₀ one_le_two h
  unfold nearest
  simp only [if_neg hnum.ne']
  generalize hsize : (num.log2 : ℤ) - den.log2 = size at *
  by_cases hfits : num <<< (-max (size - 53) (-1074)).toNat / den <<< (max (size - 53) (-1074)).toNat
      < 1 <<< 53
  · refine ⟨max (size - 53) (-1074), ?_, le_max_right _ _, (hfloor _).mp hfits, ?_⟩
    · simp only [if_pos hfits]
    · rcases le_total (size - 53) (-1074) with hle | hle
      · exact Or.inl (max_eq_right hle)
      · right
        rw [max_eq_left hle, hpow]
        exact (hmono (by omega)).trans hlow.le
  · refine ⟨max (size - 53) (-1074) + 1, ?_, by omega, ?_, Or.inr ?_⟩
    · simp only [if_neg hfits]
    · rw [hpow]
      exact hhigh.trans_le (hmono (by omega))
    · have hge := not_lt.mp (mt (hfloor _).mpr hfits)
      rw [hpow] at hge ⊢
      exact (hmono (by omega)).trans hge

/-! ### The interval of a double -/

namespace Binary

/-- The absolute value of a double. -/
def size (b : Binary) : ℚ := b.significand * 2 ^ b.exponent

/-- Whether a number rounds to a double: it lies in the interval around the double. -/
def Rounds (b : Binary) (q : ℚ) : Prop :=
  if b.interval.closed then
    b.interval.low * 2 ^ b.exponent ≤ 4 * q ∧ 4 * q ≤ b.interval.high * 2 ^ b.exponent
  else b.interval.low * 2 ^ b.exponent < 4 * q ∧ 4 * q < b.interval.high * 2 ^ b.exponent

variable {b : Binary} {q : ℚ}

theorem Rounds.le (h : b.Rounds q) :
    b.interval.low * 2 ^ b.exponent ≤ 4 * q ∧ 4 * q ≤ b.interval.high * 2 ^ b.exponent := by
  unfold Rounds at h
  split_ifs at h
  · exact h
  · exact ⟨h.1.le, h.2.le⟩

theorem Rounds.even_or_lt (h : b.Rounds q) : b.significand % 2 = 0 ∨
    b.interval.low * 2 ^ b.exponent < 4 * q ∧ 4 * q < b.interval.high * 2 ^ b.exponent := by
  unfold Rounds at h
  split_ifs at h with hclosed
  · exact Or.inl (of_decide_eq_true hclosed)
  · exact Or.inr h

theorem rounds_of_lt (h : b.interval.low * 2 ^ b.exponent < 4 * q)
    (h' : 4 * q < b.interval.high * 2 ^ b.exponent) : b.Rounds q := by
  unfold Rounds
  split_ifs
  · exact ⟨h.le, h'.le⟩
  · exact ⟨h, h'⟩

theorem high_interval (b : Binary) : (b.interval.high : ℚ) = 4 * b.significand + 2 := by
  show ((4 * b.significand + 2 : ℕ) : ℚ) = _
  push_cast
  rfl

/-- The lower end is a quarter of a unit below a power of two. -/
theorem low_interval_of_power (hpower : b.significand = 2 ^ 52) (hleast : b.exponent ≠ -1074) :
    (b.interval.low : ℚ) = 4 * b.significand - 1 := by
  have hlow : b.interval.low = 4 * b.significand - 1 := by
    show 4 * b.significand - (if b.significand = 1 <<< 52 && b.exponent ≠ -1074 then 1 else 2) = _
    rw [if_pos (by simp [hpower, hleast])]
  rw [hlow, Nat.cast_sub (by omega)]
  push_cast
  rfl

/-- Otherwise it is half a unit below the double. -/
theorem low_interval (hpos : 0 < b.significand)
    (hpower : ¬(b.significand = 2 ^ 52 ∧ b.exponent ≠ -1074)) :
    (b.interval.low : ℚ) = 4 * b.significand - 2 := by
  have hlow : b.interval.low = 4 * b.significand - 2 := by
    show 4 * b.significand - (if b.significand = 1 <<< 52 && b.exponent ≠ -1074 then 1 else 2) = _
    rw [if_neg (by simpa using hpower)]
  rw [hlow, Nat.cast_sub (by omega)]
  push_cast
  rfl

theorem sub_two_le_low (hpos : 0 < b.significand) :
    4 * (b.significand : ℚ) - 2 ≤ b.interval.low := by
  by_cases hpower : b.significand = 2 ^ 52 ∧ b.exponent ≠ -1074
  · rw [low_interval_of_power hpower.1 hpower.2]
    linarith
  · exact (low_interval hpos hpower).ge

/-- What rounds to a double that is not zero is positive. -/
theorem Rounds.pos (h : b.Rounds q) (hpos : 0 < b.significand) : 0 < q := by
  have hone : (1 : ℚ) ≤ b.significand := by exact_mod_cast hpos
  have hpower : (0 : ℚ) < 2 ^ b.exponent := by positivity
  have hlow := sub_two_le_low hpos
  have : (0 : ℚ) < b.interval.low * 2 ^ b.exponent := mul_pos (by linarith) hpower
  linarith [h.le.1]

end Binary

/-- The greatest significand at an exponent and one more is the least one at the next exponent. -/
theorem compose_carry {exponent : ℤ} (h : -1074 ≤ exponent) :
    compose (2 ^ 53) exponent = compose (2 ^ 52) (exponent + 1) := by
  unfold compose
  have hbits : (exponent + 1074).toNat <<< 52 + 2 ^ 53
      = (exponent + 1 + 1074).toNat <<< 52 + 2 ^ 52 := by
    rw [Nat.shiftLeft_eq, Nat.shiftLeft_eq]
    omega
  rw [hbits]

/-- What rounds to a double has an exponent that is not greater. -/
theorem le_exponent_of_rounds {b : Binary} (h : b.Proper) {q : ℚ} (hrounds : b.Rounds q)
    {exponent : ℤ} (hge : exponent = -1074 ∨ 2 ^ 52 * 2 ^ exponent ≤ q) :
    exponent ≤ b.exponent := by
  by_contra hlt
  have hge := hge.resolve_left (by have := h.least_le; omega)
  have hmono : (2 : ℚ) ^ (b.exponent + 1) ≤ 2 ^ exponent :=
    zpow_le_zpow_right₀ one_le_two (by omega)
  rw [zpow_add_one₀ two_ne_zero] at hmono
  have hpower : (0 : ℚ) < 2 ^ b.exponent := by positivity
  have hhigh := hrounds.le.2
  rw [b.high_interval] at hhigh
  have hsignificand : (b.significand : ℚ) + 1 ≤ 2 ^ 53 := by exact_mod_cast h.significand_lt
  have := mul_le_mul_of_nonneg_right hsignificand hpower.le
  linarith

/-- What rounds to a double has a smaller exponent only below a power of two, and then it is smaller
by one. -/
theorem power_of_exponent_lt {b : Binary} (h : b.Proper) {q : ℚ} (hrounds : b.Rounds q)
    {exponent : ℤ} (hleast : -1074 ≤ exponent) (hlt : q < 2 ^ 53 * 2 ^ exponent)
    (hless : exponent < b.exponent) : b.significand = 2 ^ 52 ∧ b.exponent = exponent + 1 := by
  obtain ⟨k, hk⟩ := Int.eq_ofNat_of_zero_le (show 0 ≤ b.exponent - (exponent + 1) by omega)
  have hunit : (0 : ℚ) < 2 ^ exponent := by positivity
  have hpower : (2 : ℚ) ^ b.exponent = 2 ^ k * 2 * 2 ^ exponent := by
    rw [show b.exponent = k + 1 + exponent by omega, zpow_add₀ two_ne_zero,
      zpow_add_one₀ two_ne_zero, zpow_natCast]
  have hnormal : 2 ^ 52 ≤ b.significand := h.normal.resolve_right (by omega)
  have hlow := Binary.sub_two_le_low (show 0 < b.significand by omega)
  have hqLow := hrounds.le.1
  rw [hpower, ← mul_assoc] at hqLow
  have hend : (b.interval.low : ℚ) * (2 ^ k * 2) < 2 ^ 55 :=
    lt_of_mul_lt_mul_right (by linarith) hunit.le
  have hlowLarge : (2 : ℚ) ^ 54 - 2 ≤ b.interval.low := by
    have : (2 : ℚ) ^ 52 ≤ b.significand := by exact_mod_cast hnormal
    linarith
  have hk1 : (1 : ℚ) ≤ 2 ^ k := one_le_pow₀ one_le_two
  have hsignificand : b.significand = 2 ^ 52 := by
    have hone : (b.interval.low : ℚ) * 2 ≤ b.interval.low * (2 ^ k * 2) :=
      mul_le_mul_of_nonneg_left (by linarith) (by linarith)
    have hlt : (b.significand : ℚ) < ((2 ^ 52 + 1 : ℕ) : ℚ) := by
      push_cast
      linarith
    have hlt : b.significand < 2 ^ 52 + 1 := by exact_mod_cast hlt
    omega
  have hkZero : k = 0 := by
    by_contra hne
    have hk2 : (2 : ℚ) ^ 1 ≤ 2 ^ k :=
      pow_le_pow_right₀ one_le_two (Nat.one_le_iff_ne_zero.mpr hne)
    have htwo : (b.interval.low : ℚ) * 4 ≤ b.interval.low * (2 ^ k * 2) :=
      mul_le_mul_of_nonneg_left (by linarith) (by linarith)
    linarith
  exact ⟨hsignificand, by omega⟩

/-- At the exponent of the double, what rounds to the double has the significand as its nearest
integer. -/
theorem roundQuotient_of_rounds {b : Binary} (hpos : 0 < b.significand) {num den : ℕ}
    (hden : 0 < den) (hrounds : b.Rounds (num / den * 2 ^ b.exponent)) :
    roundQuotient num den = b.significand := by
  have hunit : (0 : ℚ) < 2 ^ b.exponent := by positivity
  have hlow := Binary.sub_two_le_low hpos
  obtain ⟨hqLow, hqHigh⟩ := hrounds.le
  have heven := hrounds.even_or_lt
  rw [b.high_interval] at hqHigh heven
  rw [← mul_assoc] at hqLow hqHigh heven
  have hqLow := le_of_mul_le_mul_right hqLow hunit
  have hqHigh := le_of_mul_le_mul_right hqHigh hunit
  refine roundQuotient_eq_of_near hden (by linarith) (by linarith) ?_
  refine heven.imp_right fun ⟨hl, hh⟩ => ?_
  have hl := lt_of_mul_lt_mul_right hl hunit.le
  have hh := lt_of_mul_lt_mul_right hh hunit.le
  constructor <;> linarith

/-- Just below a power of two, at the next smaller exponent, it is rounded up to the power. -/
theorem roundQuotient_of_rounds_power {b : Binary} (hpower : b.significand = 2 ^ 52)
    {exponent : ℤ} (hexponent : b.exponent = exponent + 1) (hleast : -1074 ≤ exponent)
    {num den : ℕ} (hden : 0 < den) (hlt : (num / den : ℚ) < 2 ^ 53)
    (hrounds : b.Rounds (num / den * 2 ^ exponent)) : roundQuotient num den = 2 ^ 53 := by
  have hunit : (0 : ℚ) < 2 ^ exponent := by positivity
  have hlow := Binary.low_interval_of_power hpower (by omega)
  rw [hpower] at hlow
  push_cast at hlow
  have hqLow := hrounds.le.1
  rw [hexponent, zpow_add_one₀ two_ne_zero, mul_comm ((2 : ℚ) ^ exponent), ← mul_assoc,
    ← mul_assoc] at hqLow
  have hqLow := le_of_mul_le_mul_right hqLow hunit
  refine roundQuotient_eq_of_near hden ?_ ?_ (Or.inl (by decide))
  all_goals
    push_cast
    linarith

/-- **A double is the nearest one to each fraction in its interval.** -/
theorem nearest_eq_of_rounds {b : Binary} (h : b.Proper) (hpos : 0 < b.significand) {num den : ℕ}
    (hden : 0 < den) (hrounds : b.Rounds (num / den)) :
    nearest num den = compose b.significand b.exponent := by
  have hquotient := hrounds.pos hpos
  have hnum : 0 < num := by
    by_contra hzero
    rw [Nat.eq_zero_of_not_pos hzero, Nat.cast_zero, zero_div] at hquotient
    exact lt_irrefl _ hquotient
  obtain ⟨exponent, hnearest, hleast, hlt, hge⟩ := exists_nearest_eq hnum hden
  have hle := le_exponent_of_rounds h hrounds hge
  have hpower := power_of_exponent_lt h hrounds hleast hlt
  have hscaledPos : 0 < den <<< exponent.toNat := by
    rw [Nat.shiftLeft_eq]
    positivity
  -- the fraction in units of the last place
  have hunit : (0 : ℚ) < 2 ^ exponent := by positivity
  have hscaled : (num / den : ℚ)
      = (num <<< (-exponent).toNat : ℕ) / (den <<< exponent.toNat : ℕ) * 2 ^ exponent := by
    rw [scaled_two, div_mul_cancel₀ _ hunit.ne']
  rw [hscaled] at hrounds hlt
  rw [hnearest]
  rcases hle.eq_or_lt with heq | hless
  · rw [heq] at hrounds hscaledPos ⊢
    rw [roundQuotient_of_rounds hpos hscaledPos hrounds]
  · obtain ⟨hsignificand, hexponent⟩ := hpower hless
    have hlt := lt_of_mul_lt_mul_right hlt hunit.le
    rw [roundQuotient_of_rounds_power hsignificand hexponent hleast hscaledPos hlt hrounds,
      compose_carry hleast, hsignificand, hexponent]

end FuzzySearch.Decimal
