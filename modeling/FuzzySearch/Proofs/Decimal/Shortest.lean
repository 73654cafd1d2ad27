import FuzzySearch.Decimal.Reading
import FuzzySearch.Proofs.Decimal.Nearest

/-!
# The fewest digits that read back

The decimal that `shortest` finds rounds to the double (`rounds_shortest`): what is found on one of
the grids was tested, and on the last one, of seventeen digits, the nearest decimal always rounds to
the double, because its distance is at most a share of `1 / (2 * 10 ^ 16)` of the double
(`rounds_of_near`).
-/

namespace FuzzySearch.Decimal

/-- The value of decimal digits. -/
def Digits.value (d : Digits) : ℚ := d.coefficient * 10 ^ d.exponent

/-! ### Tests -/

/-- The test of a decimal decides whether it rounds to the double. -/
theorem readsBack_iff (b : Binary) (coefficient : ℕ) (exponent : ℤ) :
    readsBack b coefficient exponent = true ↔ b.Rounds (coefficient * 10 ^ exponent) := by
  have hcommon : (0 : ℚ) < 10 ^ (-exponent).toNat * 2 ^ (-b.exponent).toNat := by positivity
  have hleft : ((coefficient * tenPow exponent.toNat * 4 * b.den : ℕ) : ℚ)
      = 4 * (coefficient * 10 ^ exponent) * (10 ^ (-exponent).toNat * 2 ^ (-b.exponent).toNat) := by
    rw [show b.den = 2 ^ (-b.exponent).toNat from Nat.one_shiftLeft _,
      show tenPow exponent.toNat = 10 ^ exponent.toNat from rfl]
    push_cast
    rw [pow_toNat_eq (by norm_num : (10 : ℚ) ≠ 0) exponent]
    ring
  have hunit : ∀ ends : ℕ,
      ((ends * (tenPow (-exponent).toNat * 1 <<< b.exponent.toNat) : ℕ) : ℚ)
        = ends * 2 ^ b.exponent * (10 ^ (-exponent).toNat * 2 ^ (-b.exponent).toNat) := by
    intro ends
    rw [Nat.one_shiftLeft, show tenPow (-exponent).toNat = 10 ^ (-exponent).toNat from rfl]
    push_cast
    rw [pow_toNat_eq two_ne_zero b.exponent]
    ring
  unfold readsBack Binary.Rounds
  simp only
  split_ifs
  · rw [Bool.and_eq_true, decide_eq_true_eq, decide_eq_true_eq, ← Nat.cast_le (α := ℚ), hunit, hleft,
      mul_le_mul_iff_left₀ hcommon, ← Nat.cast_le (α := ℚ), hunit, hleft,
      mul_le_mul_iff_left₀ hcommon]
  · rw [Bool.and_eq_true, decide_eq_true_eq, decide_eq_true_eq, ← Nat.cast_lt (α := ℚ), hunit, hleft,
      mul_lt_mul_iff_left₀ hcommon, ← Nat.cast_lt (α := ℚ), hunit, hleft,
      mul_lt_mul_iff_left₀ hcommon]

/-- A hit on a grid rounds to the double. -/
theorem rounds_of_hitOnGrid? {b : Binary} {exponent : ℤ} {coefficient : ℕ}
    (h : hitOnGrid? b exponent = some coefficient) : b.Rounds (coefficient * 10 ^ exponent) := by
  rw [← readsBack_iff]
  unfold hitOnGrid? at h
  simp only at h
  split_ifs at h with hboth hbelow habove
  · rw [Bool.and_eq_true] at hboth
    obtain rfl := Option.some.inj h
    unfold roundQuotient
    simp only
    split_ifs
    · exact hboth.1
    · exact hboth.2
    · exact hboth.1
    · exact hboth.2
  · obtain rfl := Option.some.inj h
    exact hbelow
  · obtain rfl := Option.some.inj h
    exact habove

/-! ### Seventeen digits -/

theorem num_div_den (b : Binary) : (b.num / b.den : ℚ) = b.size := by
  have hnum : b.num = b.significand * 2 ^ b.exponent.toNat := Nat.shiftLeft_eq _ _
  have hden : b.den = 2 ^ (-b.exponent).toNat := Nat.one_shiftLeft _
  rw [hnum, hden, Binary.size]
  push_cast
  rw [pow_toNat_eq two_ne_zero b.exponent]
  field_simp

/-- What is as near to a double as the nearest decimal of seventeen digits rounds to it. -/
theorem rounds_of_near {b : Binary} (h : b.Proper) (hpos : 0 < b.significand) {q : ℚ}
    (hnear : |q - b.size| ≤ b.size / (2 * 10 ^ 16)) : b.Rounds q := by
  have hunit : (0 : ℚ) < 2 ^ b.exponent := by positivity
  obtain ⟨hlow, hhigh⟩ := abs_le.mp hnear
  unfold Binary.size at hlow hhigh
  have hsignificand : (b.significand : ℚ) < 2 ^ 53 := by exact_mod_cast h.significand_lt
  have hwide : (b.significand : ℚ) * 2 ^ b.exponent < 2 ^ 53 * 2 ^ b.exponent :=
    mul_lt_mul_of_pos_right hsignificand hunit
  refine Binary.rounds_of_lt ?_ ?_
  · by_cases hpower : b.significand = 2 ^ 52 ∧ b.exponent ≠ -1074
    · rw [Binary.low_interval_of_power hpower.1 hpower.2]
      rw [hpower.1] at hlow ⊢
      push_cast at hlow ⊢
      linarith
    · rw [Binary.low_interval hpos hpower]
      linarith
  · rw [b.high_interval]
    linarith

/-! ### The first digit -/

/-- The estimate of a power of ten below a power of two, in the range of the doubles. -/
theorem ten_zpow_le_two_zpow {size : ℤ} (hlow : -1200 < size) (hhigh : size < 1200) :
    (10 : ℚ) ^ (size * 30103 / 100000 - 1) ≤ 2 ^ size := by
  have hchecked : ∀ n : ℕ, n < 1200 → 10 ^ ((n : ℤ) * 30103 / 100000 - 1).toNat ≤ 2 ^ n ∧
      2 ^ n ≤ 10 ^ (1 - -(n : ℤ) * 30103 / 100000).toNat := by decide +kernel
  rcases Int.natAbs_eq size with hsize | hsize
  · obtain ⟨hle, -⟩ := hchecked size.natAbs (by omega)
    rw [← hsize] at hle
    have hcast : (10 : ℚ) ^ (size * 30103 / 100000 - 1).toNat ≤ 2 ^ size.natAbs := by exact_mod_cast hle
    calc (10 : ℚ) ^ (size * 30103 / 100000 - 1)
        ≤ 10 ^ ((size * 30103 / 100000 - 1).toNat : ℤ) :=
          zpow_le_zpow_right₀ (by norm_num) (Int.self_le_toNat _)
      _ = 10 ^ (size * 30103 / 100000 - 1).toNat := zpow_natCast _ _
      _ ≤ 2 ^ size.natAbs := hcast
      _ = 2 ^ size := by rw [← zpow_natCast, ← hsize]
  · obtain ⟨-, hle⟩ := hchecked size.natAbs (by omega)
    rw [← hsize] at hle
    have hcast : (2 : ℚ) ^ size.natAbs ≤ 10 ^ (1 - size * 30103 / 100000).toNat := by exact_mod_cast hle
    have hexponent : size * 30103 / 100000 - 1 = -((1 - size * 30103 / 100000).toNat : ℤ) := by omega
    rw [hexponent, hsize, zpow_neg, zpow_neg, zpow_natCast, zpow_natCast]
    rw [← hsize]
    exact inv_anti₀ (by positivity) hcast

theorem shifted_div (num den : ℕ) (exponent : ℤ) :
    ((shifted num den exponent).1 / (shifted num den exponent).2 : ℚ) = num / den / 10 ^ exponent := by
  have hpow : ∀ n : ℕ, tenPow n = 10 ^ n := fun n => rfl
  simp only [shifted, hpow]
  push_cast
  exact scaled_div (by norm_num) _ _ _

theorem shifted_pos (num : ℕ) {den : ℕ} (h : 0 < den) (exponent : ℤ) :
    0 < (shifted num den exponent).2 :=
  Nat.mul_pos h (Nat.pow_pos (by decide))

/-- **The exponent of the first digit is not too great.** -/
theorem ten_zpow_decimalExponent_le {num den : ℕ} (hnum : 0 < num) (hden : 0 < den)
    (hlow : -1200 < (num.log2 : ℤ) - den.log2 - 1) (hhigh : (num.log2 : ℤ) - den.log2 - 1 < 1200) :
    (10 : ℚ) ^ decimalExponent num den ≤ num / den := by
  have htested : ∀ e : ℤ, (shifted num den e).2 ≤ (shifted num den e).1 → (10 : ℚ) ^ e ≤ num / den := by
    intro e hle
    have hpos : (0 : ℚ) < (shifted num den e).2 := by exact_mod_cast shifted_pos num hden e
    have hcast : ((shifted num den e).2 : ℚ) ≤ (shifted num den e).1 := by exact_mod_cast hle
    have hone := (one_le_div hpos).mpr hcast
    rw [shifted_div, le_div_iff₀ (by positivity), one_mul] at hone
    exact hone
  unfold decimalExponent
  simp only [decide_eq_true_eq]
  split_ifs with h2 h1 h0
  · exact htested _ h2
  · exact htested _ h1
  · exact htested _ h0
  · exact (ten_zpow_le_two_zpow hlow hhigh).trans (two_zpow_lt_div hnum hden).1.le

/-! ### The search -/

/-- A rounded quotient is half a unit away at most. -/
theorem abs_roundQuotient_sub_le (num : ℕ) {den : ℕ} (h : 0 < den) :
    |(roundQuotient num den : ℚ) - num / den| ≤ 1 / 2 := by
  have hpos : (0 : ℚ) < den := by exact_mod_cast h
  have hup : (2 * den * roundQuotient num den : ℚ) ≤ 2 * num + den := by
    exact_mod_cast two_mul_roundQuotient_le num h
  have hdown : (2 * num : ℚ) ≤ 2 * den * roundQuotient num den + den := by
    exact_mod_cast le_two_mul_roundQuotient num h
  have hnum : (num : ℚ) = num / den * den := by field_simp
  rw [hnum] at hup hdown
  have hscaled : |(roundQuotient num den : ℚ) - num / den| * den ≤ 1 / 2 * den := by
    rw [← abs_of_pos hpos, ← abs_mul, abs_of_pos hpos, abs_le]
    constructor <;> linarith
  exact le_of_mul_le_mul_right hscaled hpos

/-- The last grid always has a hit. -/
theorem rounds_lastGrid {b : Binary} (h : b.Proper) (hpos : 0 < b.significand) {lead : ℤ}
    (hlead : (10 : ℚ) ^ lead ≤ b.size) :
    b.Rounds (roundQuotient (shifted b.num b.den (lead - 16)).1
      (shifted b.num b.den (lead - 16)).2 * 10 ^ (lead - 16)) := by
  have hden : 0 < b.den := by
    rw [show b.den = 2 ^ (-b.exponent).toNat from Nat.one_shiftLeft _]
    positivity
  have hunit : (0 : ℚ) < 10 ^ (lead - 16) := by positivity
  have hnear := abs_roundQuotient_sub_le (shifted b.num b.den (lead - 16)).1
    (shifted_pos b.num hden (lead - 16))
  rw [shifted_div, num_div_den] at hnear
  refine rounds_of_near h hpos ?_
  generalize (roundQuotient (shifted b.num b.den (lead - 16)).1
    (shifted b.num b.den (lead - 16)).2 : ℚ) = coefficient at hnear ⊢
  have hscaled : |coefficient * 10 ^ (lead - 16) - b.size|
      = |coefficient - b.size / 10 ^ (lead - 16)| * 10 ^ (lead - 16) := by
    rw [← abs_of_pos hunit, ← abs_mul, abs_of_pos hunit, sub_mul, div_mul_cancel₀ _ hunit.ne']
  have hsplit : (10 : ℚ) ^ lead = 10 ^ (lead - 16) * 10 ^ 16 := by
    rw [← zpow_natCast, ← zpow_add₀ (by norm_num)]
    congr 1
    omega
  have hhalf := mul_le_mul_of_nonneg_right hnear hunit.le
  rw [hscaled]
  rw [hsplit] at hlead
  linarith

theorem rounds_firstHit {b : Binary} (h : b.Proper) (hpos : 0 < b.significand) {lead : ℤ}
    (hlead : (10 : ℚ) ^ lead ≤ b.size) (fuel count : ℕ) (hsum : fuel + count = 17) :
    b.Rounds (firstHit b lead fuel count).value := by
  induction fuel generalizing count with
  | zero =>
    have hexponent : lead + 1 - (count : ℤ) = lead - 16 := by omega
    unfold firstHit Digits.value
    rw [hexponent]
    exact rounds_lastGrid h hpos hlead
  | succ fuel ih =>
    unfold firstHit
    cases hhit : hitOnGrid? b (lead + 1 - count) with
    | some coefficient => exact rounds_of_hitOnGrid? hhit
    | none => exact ih (count + 1) (by omega)

theorem value_dropZeros (fuel : ℕ) (d : Digits) : (dropZeros fuel d).value = d.value := by
  induction fuel generalizing d with
  | zero => rfl
  | succ fuel ih =>
    unfold dropZeros
    split_ifs with hzero
    · rw [ih]
      simp only [Bool.and_eq_true, decide_eq_true_eq] at hzero
      obtain ⟨c, hc⟩ := Nat.dvd_of_mod_eq_zero hzero.2
      unfold Digits.value
      rw [hc, Nat.mul_div_cancel_left _ (by decide), zpow_add_one₀ (by norm_num)]
      push_cast
      ring
    · rfl

/-- **The shortest decimal of a double rounds to it.** -/
theorem rounds_shortest {b : Binary} (h : b.Proper) (hpos : 0 < b.significand) :
    b.Rounds (shortest b).value := by
  have hnumEq : b.num = b.significand * 2 ^ b.exponent.toNat := Nat.shiftLeft_eq _ _
  have hdenEq : b.den = 2 ^ (-b.exponent).toNat := Nat.one_shiftLeft _
  have hnum : 0 < b.num := hnumEq ▸ Nat.mul_pos hpos (Nat.two_pow_pos _)
  have hden : 0 < b.den := hdenEq ▸ Nat.two_pow_pos _
  have hleast := h.least_le
  have hgreatest := h.le_greatest
  have hdenLog : b.den.log2 = (-b.exponent).toNat := by rw [hdenEq, Nat.log2_two_pow]
  have hnumLog : b.num.log2 < 1024 := by
    rw [Nat.log2_lt hnum.ne', hnumEq]
    calc b.significand * 2 ^ b.exponent.toNat < 2 ^ 53 * 2 ^ b.exponent.toNat :=
          Nat.mul_lt_mul_of_pos_right h.significand_lt (Nat.two_pow_pos _)
      _ = 2 ^ (53 + b.exponent.toNat) := (Nat.pow_add ..).symm
      _ ≤ 2 ^ 1024 := Nat.pow_le_pow_right Nat.two_pos (by omega)
  have hlead := ten_zpow_decimalExponent_le hnum hden (by omega) (by omega)
  rw [num_div_den] at hlead
  unfold shortest
  rw [if_neg hpos.ne', value_dropZeros]
  exact rounds_firstHit h hpos hlead 16 1 rfl

theorem coefficient_shortest_pos {b : Binary} (h : b.Proper) (hpos : 0 < b.significand) :
    0 < (shortest b).coefficient := by
  have hvalue := (rounds_shortest h hpos).pos hpos
  by_contra hnot
  rw [Digits.value, Nat.eq_zero_of_not_pos hnot, Nat.cast_zero, zero_mul] at hvalue
  exact lt_irrefl _ hvalue

theorem shortest_of_zero {b : Binary} (h : b.significand = 0) : shortest b = ⟨0, 0⟩ := if_pos h

/-! ### Reading back -/

theorem two_zpow_le_ten_zpow {n : ℕ} {m : ℤ} (h : (n : ℤ) ≤ 3 * m) : (2 : ℚ) ^ (n : ℤ) ≤ 10 ^ m := by
  calc (2 : ℚ) ^ (n : ℤ) ≤ 2 ^ (3 * m) := zpow_le_zpow_right₀ one_le_two h
    _ = (2 ^ (3 : ℤ)) ^ m := zpow_mul _ _ _
    _ ≤ 10 ^ m := zpow_le_zpow_left₀ (by omega) (by norm_num) (by norm_num)

/-- A double is not as great as the powers of ten that are cut off. -/
theorem Binary.Rounds.lt_ten_zpow {b : Binary} (h : b.Proper) {q : ℚ} (hrounds : b.Rounds q)
    {m : ℤ} (hm : 400 ≤ m) : q < 10 ^ m := by
  have hhigh := hrounds.le.2
  rw [b.high_interval] at hhigh
  have hunit : (0 : ℚ) < 2 ^ b.exponent := by positivity
  have hsignificand : (4 * b.significand + 2 : ℚ) < 2 ^ 56 := by
    have : (b.significand : ℚ) < 2 ^ 53 := by exact_mod_cast h.significand_lt
    linarith
  have hten : (0 : ℚ) < 10 ^ m := by positivity
  have hle : 4 * q ≤ 10 ^ m :=
    calc 4 * q ≤ (4 * b.significand + 2) * 2 ^ b.exponent := hhigh
      _ ≤ 2 ^ 56 * 2 ^ b.exponent := mul_le_mul_of_nonneg_right hsignificand.le hunit.le
      _ = 2 ^ (56 + b.exponent) := by rw [zpow_add₀ two_ne_zero]; rfl
      _ ≤ 2 ^ ((1027 : ℕ) : ℤ) := zpow_le_zpow_right₀ one_le_two (by have := h.le_greatest; omega)
      _ ≤ 10 ^ m := two_zpow_le_ten_zpow (by omega)
  linarith

/-- A double that is not zero is not as small as the powers of ten that are cut off. -/
theorem Binary.Rounds.ten_zpow_lt {b : Binary} (h : b.Proper) (hpos : 0 < b.significand) {q : ℚ}
    (hrounds : b.Rounds q) {m : ℤ} (hm : m ≤ -400) : (10 : ℚ) ^ m < q := by
  have hlow := hrounds.le.1
  have hone : (1 : ℚ) ≤ b.significand := by exact_mod_cast hpos
  have hend := Binary.sub_two_le_low hpos
  have hpower : (2 : ℚ) ^ (-1074 : ℤ) ≤ 2 ^ b.exponent := zpow_le_zpow_right₀ one_le_two h.least_le
  have hunit : (0 : ℚ) < 2 ^ (-1074 : ℤ) := by positivity
  have hten : (10 : ℚ) ^ m * 2 ^ 4 ≤ 2 ^ (-1074 : ℤ) :=
    calc (10 : ℚ) ^ m * 2 ^ 4 = (10 ^ (-m))⁻¹ * 2 ^ 4 := by rw [zpow_neg, inv_inv]
      _ ≤ (2 ^ ((1078 : ℕ) : ℤ))⁻¹ * 2 ^ 4 :=
          mul_le_mul_of_nonneg_right
            (inv_anti₀ (by positivity) (two_zpow_le_ten_zpow (by omega))) (by positivity)
      _ = 2 ^ (-1074 : ℤ) := by
          rw [← zpow_neg, show (-1074 : ℤ) = -((1078 : ℕ) : ℤ) + (4 : ℕ) by norm_num,
            zpow_add₀ two_ne_zero, zpow_natCast 2 4]
  have hends : (2 : ℚ) ^ b.exponent ≤ b.interval.low * 2 ^ b.exponent :=
    le_mul_of_one_le_left (by positivity) (by linarith)
  have hten' : (0 : ℚ) < 10 ^ m := by positivity
  generalize (2 : ℚ) ^ (-1074 : ℤ) = least at *
  linarith

/-- **A decimal that rounds to a double is read as this double.** -/
theorem scaleTen_eq_of_rounds {b : Binary} (h : b.Proper) (hpos : 0 < b.significand)
    {coefficient : ℕ} {exponent : ℤ} (hrounds : b.Rounds (coefficient * 10 ^ exponent)) :
    scaleTen coefficient exponent = compose b.significand b.exponent := by
  have hcoefficient : 0 < coefficient := by
    by_contra hzero
    have hq := hrounds.pos hpos
    rw [Nat.eq_zero_of_not_pos hzero, Nat.cast_zero, zero_mul] at hq
    exact lt_irrefl _ hq
  have hone : (1 : ℚ) ≤ coefficient := by exact_mod_cast hcoefficient
  have hten : ∀ n : ℕ, tenPow n = 10 ^ n := fun n => rfl
  have hunit : (0 : ℚ) < 10 ^ exponent := by positivity
  unfold scaleTen
  rw [if_neg hcoefficient.ne']
  split_ifs with hsign hgreat hsmall
  · -- such a power of ten is too great
    have := hrounds.lt_ten_zpow h hgreat.le
    have := mul_le_mul_of_nonneg_right hone hunit.le
    linarith
  · refine nearest_eq_of_rounds h hpos Nat.one_pos ?_
    have hcast : ((coefficient * 10 ^ exponent.toNat : ℕ) : ℚ) / (1 : ℕ)
        = coefficient * 10 ^ exponent := by
      push_cast
      rw [div_eq_mul_inv, inv_one, mul_one, ← zpow_natCast, Int.toNat_of_nonneg hsign]
    rwa [hten, hcast]
  · -- such a fraction is too small
    have hlog : (coefficient : ℚ) ≤ 10 ^ (coefficient.log2 + 1) := by
      have hlt : coefficient < 2 ^ (coefficient.log2 + 1) := Nat.lt_log2_self
      exact_mod_cast hlt.le.trans (Nat.pow_le_pow_left (by decide) _)
    have hlt := hrounds.ten_zpow_lt h hpos
      (show (coefficient.log2 : ℤ) + 1 + exponent ≤ -400 by omega)
    have hsucc : (coefficient.log2 : ℤ) + 1 = ((coefficient.log2 + 1 : ℕ) : ℤ) := rfl
    rw [zpow_add₀ (by norm_num), hsucc,
      zpow_natCast] at hlt
    exact absurd hlt (not_lt.mpr (mul_le_mul_of_nonneg_right hlog hunit.le))
  · refine nearest_eq_of_rounds h hpos (Nat.pow_pos (by decide)) ?_
    rw [hten]
    push_cast
    have hexponent : (10 : ℚ) ^ exponent = ((10 : ℚ) ^ (-exponent).toNat)⁻¹ := by
      rw [← zpow_natCast, ← zpow_neg]
      congr 1
      omega
    rwa [div_eq_mul_inv, ← hexponent]

end FuzzySearch.Decimal
