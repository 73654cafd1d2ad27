import FuzzySearch.Arithmetic
import FuzzySearch.Proofs.Decimal.Shortest
import Mathlib.Algebra.Order.Field.Power
import Mathlib.Data.Nat.Cast.Order.Field
import Mathlib.Data.Rat.Cast.Order
import Mathlib.Tactic.Linarith
import Mathlib.Tactic.Positivity
import Mathlib.Tactic.Ring

/-!
# The sizes of doubles

A number is `Small` if it is not negative and at most a power of two, and `Large` if it is at least
one, or infinite.  Rounding leaves a number small or large (`small_roundWithAccuracy`,
`large_roundWithAccuracy`), and so does packing it.  Sums and products of small numbers are small, and
so is the quotient of a small number by a large one; the root of a large number is large.  The norm of
a length is computed by these operations, so it is a finite number
(`isNaN_or_isInf_roundedInverseRoot`).
-/

namespace FuzzySearch.Decimal

open Float.Model (Format UnpackedFloat totalExponent)
open Float.Model.UnpackedFloat

/-! ### Powers of two -/

/-- A number is at least the power of two of its first bit. -/
theorem two_zpow_totalExponent_le {mantissa : Nat} (hpos : 0 < mantissa) (exponent : ℤ) :
    (2 : ℚ) ^ (totalExponent mantissa exponent - 1) ≤ mantissa * 2 ^ exponent := by
  have hexponent : totalExponent mantissa exponent - 1 = (mantissa.log2 : ℤ) + exponent := by
    unfold totalExponent
    omega
  rw [hexponent, zpow_add₀ two_ne_zero, zpow_natCast]
  refine mul_le_mul_of_nonneg_right ?_ (zpow_pos two_pos _).le
  exact_mod_cast Nat.log2_self_le hpos.ne'

/-- A shift to the right makes no number greater. -/
theorem div_mul_zpow_le (mantissa n : Nat) (exponent : ℤ) :
    ((mantissa / 2 ^ n : Nat) : ℚ) * 2 ^ (exponent + n) ≤ mantissa * 2 ^ exponent := by
  have hdiv : ((mantissa / 2 ^ n : Nat) : ℚ) * 2 ^ n ≤ mantissa := by
    exact_mod_cast Nat.div_mul_le_self mantissa (2 ^ n)
  calc ((mantissa / 2 ^ n : Nat) : ℚ) * 2 ^ (exponent + n)
      = ((mantissa / 2 ^ n : Nat) : ℚ) * 2 ^ n * 2 ^ exponent := by
        rw [zpow_add₀ two_ne_zero, zpow_natCast, mul_assoc, mul_comm ((2 : ℚ) ^ exponent)]
    _ ≤ mantissa * 2 ^ exponent := mul_le_mul_of_nonneg_right hdiv (zpow_pos two_pos _).le

/-- A shift to the left changes no number. -/
theorem shiftLeft_mul_zpow (mantissa n : Nat) (exponent : ℤ) :
    ((mantissa <<< n : Nat) : ℚ) * 2 ^ (exponent - n) = mantissa * 2 ^ exponent := by
  rw [Nat.shiftLeft_eq, Nat.cast_mul, Nat.cast_pow, Nat.cast_ofNat, mul_assoc, ← zpow_natCast,
    ← zpow_add₀ two_ne_zero]
  congr 2
  omega

/-- A number stays the same when its exponent is lowered. -/
theorem shiftLeft_sub_mul_zpow {low exponent : ℤ} (hle : low ≤ exponent) (mantissa : Nat) :
    ((mantissa <<< (exponent - low).toNat : Nat) : ℚ) * 2 ^ low = mantissa * 2 ^ exponent := by
  have hlow : exponent - (exponent - low).toNat = low := by omega
  rw [← shiftLeft_mul_zpow mantissa (exponent - low).toNat, hlow]

/-! ### Shifts and rounding -/

theorem mantissa_shiftRight (em : ExtendedMantissa) (n : Nat) :
    (em >>> n).mantissa = em.mantissa / 2 ^ n := by
  show (n.repeat ExtendedMantissa.shiftRightOne em).mantissa = _
  induction n with
  | zero => exact (Nat.div_one _).symm
  | succ n ih =>
    show (n.repeat ExtendedMantissa.shiftRightOne em).mantissa / 2 = _
    rw [ih, Nat.div_div_eq_div_mul, Nat.pow_succ]

theorem mantissa_ofMantissaAndAccuracy (mantissa : Nat) (accuracy : Accuracy) :
    (ExtendedMantissa.ofMantissaAndAccuracy mantissa accuracy).mantissa = mantissa := by
  rcases accuracy with _ | _ | _ | _ <;> rfl

/-- Rounding adds at most one. -/
theorem roundedMantissa_bounds (em : ExtendedMantissa) :
    em.mantissa ≤ em.roundedMantissa ∧ em.roundedMantissa ≤ em.mantissa + 1 := by
  obtain ⟨mantissa, _ | _, _ | _⟩ := em
  · exact ⟨le_rfl, Nat.le_succ _⟩
  · exact ⟨le_rfl, Nat.le_succ _⟩
  · show mantissa ≤ mantissa + mantissa % 2 ∧ mantissa + mantissa % 2 ≤ mantissa + 1
    omega
  · exact ⟨Nat.le_succ _, le_rfl⟩

/-- How far a number is shifted to have 53 bits. -/
def shiftAmount (mantissa : Nat) (exponent : ℤ) : Nat :=
  (max (totalExponent mantissa exponent - 53) (-1074) - exponent).toNat

/-- Rounding shifts, adds at most one, and shifts again. -/
theorem exists_roundWithAccuracy (sign : Sign) (mantissa : Nat) (exponent : ℤ)
    (accuracy : Accuracy) : ∃ rounded first : Nat, first = shiftAmount mantissa exponent ∧
      mantissa / 2 ^ first ≤ rounded ∧ rounded ≤ mantissa / 2 ^ first + 1 ∧
      ∃ second final : Nat, second = shiftAmount rounded (exponent + first) ∧
        final = rounded / 2 ^ second ∧
        roundWithAccuracy .binary64 sign mantissa exponent accuracy
          = if h : final = 0 then .zero sign
            else .finite sign final (exponent + first + second) (Nat.pos_of_ne_zero h) := by
  set em := ExtendedMantissa.ofMantissaAndAccuracy mantissa accuracy
    >>> shiftAmount mantissa exponent with hem
  have hmantissa : em.mantissa = mantissa / 2 ^ shiftAmount mantissa exponent := by
    rw [hem, mantissa_shiftRight, mantissa_ofMantissaAndAccuracy]
  obtain ⟨hlower, hupper⟩ := roundedMantissa_bounds em
  rw [hmantissa] at hlower hupper
  refine ⟨em.roundedMantissa, _, rfl, hlower, hupper, _, _, rfl, rfl, ?_⟩
  rw [← mantissa_ofMantissaAndAccuracy em.roundedMantissa .exact, ← mantissa_shiftRight,
    mantissa_ofMantissaAndAccuracy]
  rfl

/-! ### Small numbers -/

/-- A number that is not negative and at most a power of two. -/
inductive Small (power : ℤ) : UnpackedFloat → Prop
  | zero : Small power (.zero .positive)
  | finite {mantissa : ℕ} {exponent : ℤ} (hpos : 0 < mantissa)
      (hle : (mantissa : ℚ) * 2 ^ exponent ≤ 2 ^ power) :
      Small power (.finite .positive mantissa exponent hpos)

theorem Small.mono {low high : ℤ} (hle : low ≤ high) {u : UnpackedFloat} (h : Small low u) :
    Small high u := by
  cases h with
  | zero => exact .zero
  | finite hpos h => exact .finite hpos (h.trans ((zpow_le_zpow_iff_right₀ one_lt_two).mpr hle))

/-- A shift stops at the exponent that it is meant for. -/
theorem add_shiftAmount_le {power : ℤ} (hpower : -1074 ≤ power) {mantissa : Nat} {exponent : ℤ}
    (hexponent : exponent ≤ power) (hlt : (mantissa : ℚ) * 2 ^ exponent < 2 ^ power) :
    exponent + shiftAmount mantissa exponent ≤ power := by
  have htotal : totalExponent mantissa exponent ≤ power + 1 := by
    rcases Nat.eq_zero_or_pos mantissa with rfl | hpos
    · show ((Nat.log2 0 : Nat) : ℤ) + 1 + exponent ≤ power + 1
      rw [Nat.log2_zero]
      omega
    · have hpow := (two_zpow_totalExponent_le hpos exponent).trans_lt hlt
      have := (zpow_lt_zpow_iff_right₀ one_lt_two).mp hpow
      omega
  unfold shiftAmount
  omega

/-- **A number below a power of two is rounded to one of at most this power.** -/
theorem small_roundWithAccuracy {power : ℤ} (hpower : -1074 ≤ power) {mantissa : Nat} {exponent : ℤ}
    (hexponent : exponent ≤ power) (hlt : (mantissa : ℚ) * 2 ^ exponent < 2 ^ power)
    (accuracy : Accuracy) :
    Small power (roundWithAccuracy .binary64 .positive mantissa exponent accuracy) := by
  obtain ⟨rounded, first, hfirst, -, hupper, second, final, -, hfinal, hround⟩ :=
    exists_roundWithAccuracy .positive mantissa exponent accuracy
  have hshifted : exponent + first ≤ power := hfirst ▸ add_shiftAmount_le hpower hexponent hlt
  -- below the power there is still room for one more unit
  obtain ⟨room, hroom⟩ : ∃ room : Nat, power = exponent + first + room :=
    ⟨(power - (exponent + first)).toNat, by omega⟩
  have hquotient : mantissa / 2 ^ first < 2 ^ room := by
    have hle := (div_mul_zpow_le mantissa first exponent).trans_lt hlt
    rw [hroom, zpow_add₀ two_ne_zero _ (room : ℤ), mul_comm ((2 : ℚ) ^ (exponent + first)),
      zpow_natCast] at hle
    exact_mod_cast lt_of_mul_lt_mul_right hle (zpow_pos two_pos _).le
  have hrounded : (rounded : ℚ) ≤ 2 ^ room := by
    exact_mod_cast hupper.trans hquotient
  have hvalue : (rounded : ℚ) * 2 ^ (exponent + first) ≤ 2 ^ power := by
    rw [hroom, zpow_add₀ two_ne_zero _ (room : ℤ), mul_comm ((2 : ℚ) ^ (exponent + first)),
      zpow_natCast]
    exact mul_le_mul_of_nonneg_right hrounded (zpow_pos two_pos _).le
  rw [hround]
  split_ifs with hzero
  · exact .zero
  · refine .finite _ ?_
    rw [hfinal]
    exact (div_mul_zpow_le rounded second _).trans hvalue

theorem exponent_lt_of_lt {power : ℤ} {mantissa : Nat} (hpos : 0 < mantissa) {exponent : ℤ}
    (hlt : (mantissa : ℚ) * 2 ^ exponent < 2 ^ power) : exponent < power := by
  refine (zpow_lt_zpow_iff_right₀ one_lt_two).mp (lt_of_le_of_lt ?_ hlt)
  exact le_mul_of_one_le_left (zpow_pos two_pos _).le (by exact_mod_cast hpos)

theorem small_normalize {power : ℤ} (hpower : -1074 ≤ power) {mantissa : Nat} {exponent : ℤ}
    (hlt : (mantissa : ℚ) * 2 ^ exponent < 2 ^ power) :
    Small power (normalize .binary64 mantissa exponent .positive) := by
  unfold UnpackedFloat.normalize
  split
  · rename_i hneg
    have : (mantissa : ℤ) < 0 := compare_lt_iff_lt.mp hneg
    omega
  · exact .zero
  · rename_i hgt
    have hpos : 0 < mantissa := by
      have : 0 < (mantissa : ℤ) := compare_gt_iff_gt.mp hgt
      omega
    rw [Int.toNat_natCast]
    unfold UnpackedFloat.round decreaseExponent
    dsimp only
    generalize (exponent - Format.binary64.targetExponent _).toNat = n
    rw [← shiftLeft_mul_zpow mantissa n] at hlt
    exact small_roundWithAccuracy hpower
      (exponent_lt_of_lt (Nat.shiftLeft_pos_iff.mpr hpos) hlt).le hlt _

theorem Small.add {power : ℤ} (hpower : -1076 ≤ power) {u v : UnpackedFloat} (hu : Small power u)
    (hv : Small power v) : Small (power + 2) (add .binary64 u v) := by
  cases hu with
  | zero =>
    cases hv with
    | zero => exact .zero
    | finite hpos hle => exact (Small.finite hpos hle).mono (by omega)
  | finite hpos hle =>
    cases hv with
    | zero => exact (Small.finite hpos hle).mono (by omega)
    | finite hpos' hle' =>
      refine @small_normalize _ (by omega) (_ + _) _ ?_
      rw [Nat.cast_add, add_mul, shiftLeft_sub_mul_zpow (Int.min_le_left ..),
        shiftLeft_sub_mul_zpow (Int.min_le_right ..), zpow_add₀ two_ne_zero]
      have hpositive : (0 : ℚ) < 2 ^ power := zpow_pos two_pos power
      linarith

theorem Small.mul {first second : ℤ} (hpower : -1075 ≤ first + second) {u v : UnpackedFloat}
    (hu : Small first u) (hv : Small second v) :
    Small (first + second + 1) (mul .binary64 u v) := by
  cases hu with
  | zero => cases hv <;> exact .zero
  | @finite mantissa exponent hpos hle =>
    cases hv with
    | zero => exact .zero
    | @finite mantissa' exponent' hpos' hle' =>
      have hlt : ((mantissa * mantissa' : ℕ) : ℚ) * 2 ^ (exponent + exponent')
          < 2 ^ (first + second + 1) := by
        calc ((mantissa * mantissa' : ℕ) : ℚ) * 2 ^ (exponent + exponent')
            = (mantissa * 2 ^ exponent) * (mantissa' * 2 ^ exponent') := by
              rw [Nat.cast_mul, zpow_add₀ two_ne_zero]
              ring
          _ ≤ 2 ^ first * 2 ^ second := by gcongr
          _ = 2 ^ (first + second) := (zpow_add₀ two_ne_zero _ _).symm
          _ < 2 ^ (first + second + 1) := (zpow_lt_zpow_iff_right₀ one_lt_two).mpr (by omega)
      exact small_roundWithAccuracy (by omega)
        (exponent_lt_of_lt (Nat.mul_pos hpos hpos') hlt).le hlt _

/-! ### Large numbers -/

/-- A number that is at least one and has 53 bits, or is infinite. -/
inductive Large : UnpackedFloat → Prop
  | infinity : Large (.infinity .positive)
  | finite {mantissa : ℕ} {exponent : ℤ} (hpos : 0 < mantissa) (hlog : mantissa.log2 = 52)
      (hexponent : -52 ≤ exponent) : Large (.finite .positive mantissa exponent hpos)

/-- The leading bits of a number. -/
theorem div_two_pow_bounds {n k : ℕ} (hn : n ≠ 0) (hlog : k ≤ n.log2) :
    2 ^ k ≤ n / 2 ^ (n.log2 - k) ∧ n / 2 ^ (n.log2 - k) < 2 ^ (k + 1) := by
  constructor
  · rw [Nat.le_div_iff_mul_le (Nat.two_pow_pos _), ← Nat.pow_add,
      show k + (n.log2 - k) = n.log2 by omega]
    exact Nat.log2_self_le hn
  · rw [Nat.div_lt_iff_lt_mul (Nat.two_pow_pos _), ← Nat.pow_add,
      show k + 1 + (n.log2 - k) = n.log2 + 1 by omega]
    exact Nat.lt_log2_self

/-- **A number of at least one stays so when it is rounded.** -/
theorem large_roundWithAccuracy {mantissa : Nat} {exponent : ℤ} (hlog : 52 ≤ mantissa.log2)
    (hone : 1 ≤ totalExponent mantissa exponent) (accuracy : Accuracy) :
    Large (roundWithAccuracy .binary64 .positive mantissa exponent accuracy) := by
  obtain ⟨rounded, first, hfirst, hlower, hupper, second, final, hsecond, hfinal, hround⟩ :=
    exists_roundWithAccuracy .positive mantissa exponent accuracy
  obtain rfl : first = mantissa.log2 - 52 := by
    unfold shiftAmount totalExponent at hfirst
    unfold totalExponent at hone
    omega
  have hmantissa : mantissa ≠ 0 := by
    rintro rfl
    rw [Nat.log2_zero] at hlog
    omega
  obtain ⟨hge, hlt⟩ := div_two_pow_bounds hmantissa hlog
  have hshift : ∀ {log : Nat}, rounded.log2 = log → 52 ≤ log → second = log - 52 := by
    intro log hrounded hle
    unfold shiftAmount totalExponent at hsecond
    unfold totalExponent at hone
    omega
  have hresult : final.log2 = 52 := by
    rcases Nat.lt_or_ge rounded (2 ^ 53) with hsmall | hbig
    · have hrounded : rounded.log2 = 52 := log2_eq_of_bounds (hge.trans hlower) hsmall
      rw [hfinal, hshift hrounded le_rfl, Nat.sub_self, Nat.pow_zero, Nat.div_one, hrounded]
    · -- a carry leaves the least mantissa, one place higher
      obtain rfl : rounded = 2 ^ 53 := by omega
      rw [hfinal, hshift (Nat.log2_two_pow) (by decide)]
      decide
  rw [hround]
  split_ifs with hzero
  · rw [hzero, Nat.log2_zero] at hresult
    omega
  · refine .finite _ hresult ?_
    unfold totalExponent at hone
    omega

theorem one_le_mul_zpow {mantissa : ℕ} {exponent : ℤ} (hpos : 0 < mantissa)
    (hlog : mantissa.log2 = 52) (hexponent : -52 ≤ exponent) :
    (1 : ℚ) ≤ mantissa * 2 ^ exponent := by
  calc (1 : ℚ) = 2 ^ (0 : ℤ) := (zpow_zero _).symm
    _ ≤ 2 ^ (totalExponent mantissa exponent - 1) := by
      refine (zpow_le_zpow_iff_right₀ one_lt_two).mpr ?_
      unfold totalExponent
      omega
    _ ≤ mantissa * 2 ^ exponent := two_zpow_totalExponent_le hpos exponent

/-- The quotient before it is rounded is at most the dividend if the divisor is at least one. -/
theorem divCore_le (m₁ : Nat) (e₁ : ℤ) {m₂ : Nat} {e₂ : ℤ} (hone : (1 : ℚ) ≤ m₂ * 2 ^ e₂) :
    ((divCore .binary64 m₁ e₁ m₂ e₂).1 : ℚ) * 2 ^ (divCore .binary64 m₁ e₁ m₂ e₂).2.1
      ≤ m₁ * 2 ^ e₁ := by
  unfold divCore
  dsimp only
  set low : ℤ := min (e₁ - e₂)
    (Format.binary64.targetExponent (totalExponent m₁ e₁ - totalExponent m₂ e₂)) with hlow
  have hle : low ≤ e₁ - e₂ := Int.min_le_left ..
  set dividend : Nat := m₁ <<< (e₁ - e₂ - low).toNat with hdividend
  have hproduct : ((dividend / m₂ : Nat) : ℚ) * m₂ ≤ dividend := by
    exact_mod_cast Nat.div_mul_le_self dividend m₂
  calc ((dividend / m₂ : Nat) : ℚ) * 2 ^ low
      ≤ ((dividend / m₂ : Nat) : ℚ) * 2 ^ low * (m₂ * 2 ^ e₂) :=
        le_mul_of_one_le_right (by positivity) hone
    _ = ((dividend / m₂ : Nat) : ℚ) * m₂ * (2 ^ low * 2 ^ e₂) := by ring
    _ ≤ dividend * (2 ^ low * 2 ^ e₂) := mul_le_mul_of_nonneg_right hproduct (by positivity)
    _ = dividend * 2 ^ low * 2 ^ e₂ := by ring
    _ = m₁ * 2 ^ e₁ := by
      rw [hdividend, shiftLeft_sub_mul_zpow hle, mul_assoc, ← zpow_add₀ two_ne_zero,
        Int.sub_add_cancel]

theorem Small.div {power : ℤ} (hpower : -1075 ≤ power) {u v : UnpackedFloat} (hu : Small power u)
    (hv : Large v) : Small (power + 1) (div .binary64 u v) := by
  cases hu with
  | zero => cases hv <;> exact .zero
  | @finite mantissa exponent hpos hle =>
    cases hv with
    | infinity => exact .zero
    | @finite mantissa' exponent' hpos' hlog hexponent =>
      have hquotient := divCore_le mantissa exponent (one_le_mul_zpow hpos' hlog hexponent)
      have hmono : (2 : ℚ) ^ power < 2 ^ (power + 1) :=
        (zpow_lt_zpow_iff_right₀ one_lt_two).mpr (by omega)
      have hlt := (hquotient.trans hle).trans_lt hmono
      refine small_roundWithAccuracy (by omega) ?_ hlt _
      -- the exponent that is aimed at is far below that of the dividend
      have hpow := (two_zpow_totalExponent_le hpos exponent).trans hle
      have htotal := (zpow_le_zpow_iff_right₀ one_lt_two).mp hpow
      show min (exponent - exponent')
        (max (totalExponent mantissa exponent - totalExponent mantissa' exponent' - 53) (-1074))
          ≤ power + 1
      unfold totalExponent at htotal ⊢
      omega

/-- **The product of numbers of at least one is one of at least one.** -/
theorem Large.mul {u v : UnpackedFloat} (hu : Large u) (hv : Large v) :
    Large (mul .binary64 u v) := by
  cases hu with
  | infinity => cases hv <;> exact .infinity
  | @finite mantissa exponent hpos hlog hexponent =>
    cases hv with
    | infinity => exact .infinity
    | @finite mantissa' exponent' hpos' hlog' hexponent' =>
      have hproduct : 104 ≤ (mantissa * mantissa').log2 := by
        have hleast : 2 ^ 52 ≤ mantissa := hlog ▸ Nat.log2_self_le hpos.ne'
        have hleast' : 2 ^ 52 ≤ mantissa' := hlog' ▸ Nat.log2_self_le hpos'.ne'
        rw [Nat.le_log2 (Nat.mul_pos hpos hpos').ne', show 104 = 52 + 52 from rfl, Nat.pow_add]
        exact Nat.mul_le_mul hleast hleast'
      refine large_roundWithAccuracy (by omega) ?_ _
      unfold totalExponent
      omega

/-- **The root of a number of at least one is one of at least one.** -/
theorem Large.sqrt {u : UnpackedFloat} (h : Large u) : Large (sqrt .binary64 u) := by
  cases h with
  | infinity => exact .infinity
  | @finite mantissa exponent hpos hlog hexponent =>
    have hleast : 2 ^ 52 ≤ mantissa := hlog ▸ Nat.log2_self_le hpos.ne'
    set low : ℤ := min (exponent.ediv 2)
      (max ((totalExponent mantissa exponent + 1).ediv 2 - 53) (-1074)) with hlow
    have heq : low = exponent / 2 - 26 := by
      have hediv : ∀ n : ℤ, n.ediv 2 = n / 2 := fun _ => rfl
      rw [hlow, hediv, hediv]
      unfold totalExponent
      omega
    have hroot : 2 ^ 52 ≤ Nat.sqrt (mantissa <<< (exponent - 2 * low).toNat) := by
      rw [Nat.le_sqrt, Nat.shiftLeft_eq]
      exact Nat.mul_le_mul hleast (Nat.pow_le_pow_right Nat.two_pos (by omega))
    have hlogroot : 52 ≤ (Nat.sqrt (mantissa <<< (exponent - 2 * low).toNat)).log2 :=
      (Nat.le_log2 (by omega)).mpr hroot
    refine @large_roundWithAccuracy _ low hlogroot ?_ _
    unfold totalExponent
    omega

/-! ### Packing -/

/-- A word with an empty exponent field is a small number. -/
theorem small_unpack_of_zero {power : ℤ} (hpower : -1022 ≤ power) (mantissa : BitVec 52) :
    Small power (unpack .binary64 (packComponents .binary64 .positive 0#11 mantissa)) := by
  have hmantissa : mantissa.toNat < 2 ^ 52 := mantissa.isLt
  rw [unpack_packComponents, if_neg (by decide), if_pos (by decide)]
  split_ifs with hzero
  · exact .zero
  · refine .finite _ ?_
    calc (mantissa.toNat : ℚ) * 2 ^ (-1074 : ℤ)
        ≤ 2 ^ (52 : ℤ) * 2 ^ (-1074 : ℤ) := by
          refine mul_le_mul_of_nonneg_right ?_ (zpow_pos two_pos _).le
          exact_mod_cast hmantissa.le
      _ = 2 ^ (-1022 : ℤ) := by rw [← zpow_add₀ two_ne_zero]; rfl
      _ ≤ 2 ^ power := (zpow_le_zpow_iff_right₀ one_lt_two).mpr hpower

/-- A number of 53 bits is unpacked as it was packed. -/
theorem unpack_pack_of_log2 {mantissa : Nat} (hlog : mantissa.log2 = 52) {exponent : ℤ}
    (hlow : -1075 < exponent) (hhigh : exponent ≤ 971) (hpos : 0 < mantissa) :
    unpack .binary64 (pack .binary64 (.finite .positive mantissa exponent hpos))
      = .finite .positive mantissa exponent hpos := by
  have hlower : 2 ^ 52 ≤ mantissa := hlog ▸ Nat.log2_self_le hpos.ne'
  have hupper : mantissa < 2 ^ 53 := (Nat.log2_lt hpos.ne').mp (by omega)
  have hbias : (Format.binary64.exponentBias : Int) = 1023 := rfl
  have hwidth : (Format.binary64.mantissaBitsWithoutImplicit : Int) = 52 := rfl
  have hbits : Format.binary64.mantissaBits = 53 := rfl
  have hfield : (BitVec.ofNat 11 (exponent + 1023 + 52).toNat).toNat
      = (exponent + 1023 + 52).toNat := by
    rw [BitVec.toNat_ofNat, Nat.mod_eq_of_lt (by omega)]
  have hmantissa : (BitVec.ofNat 52 mantissa).toNat = mantissa - 2 ^ 52 := by
    rw [BitVec.toNat_ofNat]
    omega
  have hpack : pack .binary64 (.finite .positive mantissa exponent hpos)
      = packComponents .binary64 .positive (BitVec.ofNat 11 (exponent + 1023 + 52).toNat)
        (BitVec.ofNat 52 mantissa) := by
    unfold pack
    simp only [hbias, hwidth, hbits, hlog]
    rw [if_neg (by show ¬2 ^ 11 ≤ _; omega), if_pos trivial]
  rw [hpack, unpack_packComponents, hfield, hmantissa, if_neg (by omega), if_neg (by omega)]
  simp only [UnpackedFloat.finite.injEq, true_and]
  omega

theorem pack_eq_of_zero {mantissa : ℕ} {exponent : ℤ} (hpos : 0 < mantissa) (hhigh : exponent ≤ 971)
    (h : mantissa.log2 ≠ 52 ∨ exponent ≤ -1075) :
    pack .binary64 (.finite .positive mantissa exponent hpos)
      = packComponents .binary64 .positive 0#11 (BitVec.ofNat 52 mantissa) := by
  have hbias : (Format.binary64.exponentBias : Int) = 1023 := rfl
  have hwidth : (Format.binary64.mantissaBitsWithoutImplicit : Int) = 52 := rfl
  have hbits : Format.binary64.mantissaBits = 53 := rfl
  unfold pack
  simp only [hbias, hwidth, hbits]
  rw [if_neg (by show ¬2 ^ 11 ≤ _; omega)]
  split_ifs with hlog
  · rw [show (exponent + 1023 + 52).toNat = 0 by omega]
  · rfl

/-- **A small number is small when it is packed.** -/
theorem Small.unpack_pack {power : ℤ} (hlow : -1022 ≤ power) (hhigh : power ≤ 971)
    {u : UnpackedFloat} (h : Small power u) :
    Small power (unpack .binary64 (pack .binary64 u)) := by
  cases h with
  | zero => exact .zero
  | @finite mantissa exponent hpos hle =>
    have hexponent : exponent ≤ power := by
      refine (zpow_le_zpow_iff_right₀ one_lt_two).mp (le_trans ?_ hle)
      exact le_mul_of_one_le_left (zpow_pos two_pos _).le (by exact_mod_cast hpos)
    by_cases hfull : mantissa.log2 = 52 ∧ -1075 < exponent
    · rw [unpack_pack_of_log2 hfull.1 hfull.2 (by omega)]
      exact .finite hpos hle
    · rw [pack_eq_of_zero hpos (by omega) (by omega)]
      exact small_unpack_of_zero hlow _

theorem pack_of_large {mantissa : ℕ} {exponent : ℤ} (hpos : 0 < mantissa) (hhigh : 971 < exponent) :
    pack .binary64 (.finite .positive mantissa exponent hpos)
      = pack .binary64 (.infinity .positive) := by
  have hbias : (Format.binary64.exponentBias : Int) = 1023 := rfl
  have hwidth : (Format.binary64.mantissaBitsWithoutImplicit : Int) = 52 := rfl
  unfold pack
  simp only [hbias, hwidth]
  rw [if_pos (by show 2 ^ 11 ≤ _; omega)]

theorem Large.unpack_pack {u : UnpackedFloat} (h : Large u) :
    Large (unpack .binary64 (pack .binary64 u)) := by
  cases h with
  | infinity => exact .infinity
  | @finite mantissa exponent hpos hlog hexponent =>
    rcases le_or_gt exponent 971 with hle | hlt
    · rw [unpack_pack_of_log2 hlog (by omega) hle]
      exact .finite hpos hlog hexponent
    · rw [pack_of_large hpos hlt]
      exact .infinity

/-! ### Doubles -/

theorem Small.isNaN_or_isInf {power : ℤ} {x : Float} (h : Small power x.toModel.unpack) :
    (x.isNaN || x.isInf) = false := by
  show (x.toModel.unpack.isNaN || x.toModel.unpack.isInf) = false
  generalize x.toModel.unpack = u at h
  cases h <;> rfl

/-- The parts of a small double. -/
theorem Small.exists_decode? {power : ℤ} {x : Float} (h : Small power x.toModel.unpack) :
    ∃ b, decode? x = some b ∧ b.negative = false ∧ b.size ≤ 2 ^ power := by
  rw [decode?_eq_parts]
  generalize x.toModel.unpack = u at h
  cases h with
  | zero =>
    refine ⟨_, rfl, rfl, ?_⟩
    rw [Binary.size, Nat.cast_zero, zero_mul]
    exact (zpow_pos two_pos power).le
  | finite _ hle => exact ⟨_, rfl, rfl, hle⟩

theorem small_one : Small 0 (1.0 : Float).toModel.unpack := by
  refine @Small.finite 0 (2 ^ 52) (-52) (by decide) (le_of_eq ?_)
  rw [Nat.cast_pow, Nat.cast_ofNat, ← zpow_natCast, ← zpow_add₀ two_ne_zero]
  rfl

/-- The double of a small integer is small. -/
theorem small_ofNat {n k : ℕ} (hk : k ≤ 52) (h : n < 2 ^ k) :
    Small (k + 1) (Float.ofNat n).toModel.unpack := by
  have hnormal : Small k (normalize .binary64 (n : ℤ) 0 .positive) := by
    refine small_normalize (by omega) ?_
    rw [zpow_zero, mul_one, zpow_natCast]
    exact_mod_cast h
  have hfloat := hnormal.unpack_pack (by omega) (by omega)
  have hproduct := (hfloat.mul (by omega) small_one).unpack_pack (by omega) (by omega)
  rw [Int.add_zero] at hproduct
  rw [unpack_ofNat_of_lt (h.trans_le (Nat.pow_le_pow_right Nat.two_pos (by omega)))]
  exact hproduct

/-- The integer below a small double is small. -/
theorem Small.unpack_floor {k : ℕ} (hk : k ≤ 51) {x : Float} (h : Small k x.toModel.unpack) :
    Small (k + 2) (floor x).toModel.unpack := by
  obtain ⟨b, hb, hnegative, hsize⟩ := h.exists_decode?
  have hdiv : b.num / b.den < 2 ^ (k + 1) := by
    have hcast : ((b.num / b.den : ℕ) : ℚ) ≤ 2 ^ k := by
      rw [← zpow_natCast]
      exact (Nat.cast_div_le.trans_eq (num_div_den b)).trans hsize
    have hle : b.num / b.den ≤ 2 ^ k := by exact_mod_cast hcast
    exact hle.trans_lt (Nat.pow_lt_pow_right Nat.one_lt_two (by omega))
  have hfloor : floor x = Float.ofNat (b.num / b.den) := by
    unfold floor
    rw [hb]
    simp only [Binary.floor, hnegative, Bool.false_eq_true, if_false]
    rfl
  rw [hfloor]
  exact (small_ofNat (by omega) hdiv).mono (by omega)

theorem log2_add_le_log2_shiftLeft {n : ℕ} (hpos : 0 < n) (k : ℕ) :
    n.log2 + k ≤ (n <<< k).log2 := by
  rw [Nat.le_log2 (Nat.shiftLeft_pos_iff.mpr hpos).ne', Nat.shiftLeft_eq, Nat.pow_add]
  exact Nat.mul_le_mul_right _ (Nat.log2_self_le hpos.ne')

theorem large_normalize {n : ℕ} (hpos : 0 < n) :
    Large (normalize .binary64 (n : ℤ) 0 .positive) := by
  have hcompare : compare (n : ℤ) 0 = .gt := compare_gt_iff_gt.mpr (by exact_mod_cast hpos)
  have hshift : (0 - max (totalExponent n 0 - 53) (-1074)).toNat = 52 - n.log2 := by
    unfold totalExponent
    omega
  have hlog := log2_add_le_log2_shiftLeft hpos (52 - n.log2)
  unfold UnpackedFloat.normalize
  rw [hcompare]
  show Large (roundWithAccuracy .binary64 .positive
    (n <<< (0 - max (totalExponent n 0 - 53) (-1074)).toNat)
    (0 - (0 - max (totalExponent n 0 - 53) (-1074)).toNat) .exact)
  rw [hshift]
  refine large_roundWithAccuracy (by omega) ?_ _
  unfold totalExponent
  omega

theorem large_ofScientific {n : ℕ} (hpos : 0 < n) : Large (ofScientific .binary64 n 0) := by
  have hhigh : ¬(0 : ℤ) > 2 ^ Format.binary64.exponentBits := by decide
  have hlow : ¬(0 : ℤ) < -((2 ^ Format.binary64.exponentBits : ℤ) + n.log2) := by
    have : (0 : ℤ) < 2 ^ Format.binary64.exponentBits := by decide
    omega
  unfold ofScientific
  rw [dif_neg hpos.ne', if_neg hhigh, if_neg hlow, if_pos le_rfl]
  have hlog := log2_add_le_log2_shiftLeft hpos 53
  have hten : 10 ^ (0 : ℤ).toNat = 1 := rfl
  have hbits : (Format.binary64.mantissaBits : ℤ) = 53 := rfl
  simp only [mul, hten, Nat.mul_one, Int.add_zero]
  refine large_roundWithAccuracy ?_ ?_ _
  · exact le_trans (by omega) hlog
  · unfold totalExponent
    rw [hbits]
    change n.log2 + 53 ≤ (n <<< Format.binary64.mantissaBits).log2 at hlog
    omega

theorem large_one : Large (1.0 : Float).toModel.unpack := by
  exact @Large.finite (2 ^ 52) (-52) (by decide) Nat.log2_two_pow le_rfl

/-- The double of a positive integer is large. -/
theorem large_ofNat {n : ℕ} (hpos : 0 < n) : Large (Float.ofNat n).toModel.unpack := by
  rcases Nat.lt_or_ge n (2 ^ 53) with hlt | hge
  · rw [unpack_ofNat_of_lt hlt]
    exact ((large_normalize hpos).unpack_pack.mul large_one).unpack_pack
  · rw [unpack_ofNat_of_le hge]
    exact (large_ofScientific hpos).unpack_pack

/-! ### Norms of lengths -/

theorem small_half : Small 12 (0.5 : Float).toModel.unpack := by
  refine @Small.finite 12 (2 ^ 52) (-53) (by decide) ?_
  rw [Nat.cast_pow, Nat.cast_ofNat, ← zpow_natCast, ← zpow_add₀ two_ne_zero]
  exact (zpow_le_zpow_iff_right₀ one_lt_two).mpr (by decide)

theorem small_thousand : Small 10 (1000.0 : Float).toModel.unpack := by
  refine @Small.finite 10 (1000 * 2 ^ 43) (-43) (by decide) ?_
  norm_num

theorem large_thousand : Large (1000.0 : Float).toModel.unpack := by
  exact @Large.finite (1000 * 2 ^ 43) (-43) (by decide) (by decide) (by decide)

/-- **The norm of a text with words is a finite number.** -/
theorem isNaN_or_isInf_roundedInverseRoot {count : ℕ} (hpos : 0 < count) :
    ((roundedInverseRoot 1000.0 count).isNaN || (roundedInverseRoot 1000.0 count).isInf)
      = false := by
  have hroot : Large (Float.ofNat count).sqrt.toModel.unpack :=
    (large_ofNat hpos).sqrt.unpack_pack
  have hinverse : Small 1 (1.0 / (Float.ofNat count).sqrt).toModel.unpack :=
    (small_one.div (by decide) hroot).unpack_pack (by decide) (by decide)
  have hscaled : Small 12 ((1.0 / (Float.ofNat count).sqrt) * 1000.0).toModel.unpack :=
    (hinverse.mul (by decide) small_thousand).unpack_pack (by decide) (by decide)
  have hsum : Small 14 ((1.0 / (Float.ofNat count).sqrt) * 1000.0 + 0.5).toModel.unpack :=
    (hscaled.add (by decide) small_half).unpack_pack (by decide) (by decide)
  have hfloor := hsum.unpack_floor (k := 14) (by decide)
  have hnorm : Small 17 (roundedInverseRoot 1000.0 count).toModel.unpack :=
    (hfloor.div (by decide) large_thousand).unpack_pack (by decide) (by decide)
  exact hnorm.isNaN_or_isInf

end FuzzySearch.Decimal
