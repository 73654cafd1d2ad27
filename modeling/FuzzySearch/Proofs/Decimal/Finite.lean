import FuzzySearch.Decimal.Binary
import Mathlib.Tactic.NormNum
import Mathlib.Tactic.Set
import Mathlib.Tactic.SplitIfs

/-!
# Doubles that are not infinite

The exponent field of a double is all ones if the double is infinite or no number, and only then
(`isNaN_or_isInf_of_decode?`, `isInf_ofBits`).  A change of sign keeps the field (`isInf_neg`), and the
double nearest to an integer of a machine word is far from the greatest one (`isInf_nearestInt`).
-/

namespace FuzzySearch.Decimal

open Float.Model (Format UnpackedFloat)
open Float.Model.UnpackedFloat

/-! ### Exponent fields -/

theorem toNat_unpackExponent (bits : BitVec Format.binary64.numBits) :
    (unpackExponent bits).toNat = bits.toNat >>> 52 % 2 ^ 11 := by
  simp [unpackExponent, BitVec.extractLsb, BitVec.extractLsb'_toNat]

/-- An exponent field is all ones if its number is the greatest one. -/
theorem unpackExponent_eq_iff (bits : BitVec Format.binary64.numBits) :
    unpackExponent bits = -1#_ ↔ bits.toNat >>> 52 &&& 0x7ff = 0x7ff := by
  have hand : bits.toNat >>> 52 &&& 0x7ff = bits.toNat >>> 52 % 2 ^ 11 :=
    Nat.and_two_pow_sub_one_eq_mod _ 11
  rw [hand, ← toNat_unpackExponent, ← BitVec.toNat_inj]
  exact Iff.rfl

theorem isInf_unpack_of_ne {bits : BitVec Format.binary64.numBits}
    (h : unpackExponent bits ≠ -1#_) : (unpack .binary64 bits).isInf = false := by
  unfold unpack
  dsimp only
  rw [if_neg h]
  by_cases hzero : unpackExponent bits = 0#_
  · rw [if_pos hzero]
    by_cases hmantissa : unpackMantissa bits = 0#_
    · rw [dif_pos hmantissa]
      rfl
    · rw [dif_neg hmantissa]
      rfl
  · rw [if_neg hzero]
    rfl

theorem isNaN_or_isInf_unpack {bits : BitVec Format.binary64.numBits}
    (h : unpackExponent bits = -1#_) :
    (unpack .binary64 bits).isNaN = true ∨ (unpack .binary64 bits).isInf = true := by
  unfold unpack
  dsimp only
  rw [if_pos h]
  by_cases hmantissa : unpackMantissa bits = 0#_
  · rw [if_pos hmantissa]
    exact Or.inr rfl
  · rw [if_neg hmantissa]
    exact Or.inl rfl

/-! ### Packing -/

/-- A number whose exponent is small enough for its field. -/
def Bounded : UnpackedFloat → Prop
  | .finite _ _ exponent _ => exponent < 972
  | _ => True

theorem bounded_unpack (bits : BitVec Format.binary64.numBits) :
    Bounded (unpack .binary64 bits) := by
  have hlt : (unpackExponent bits).toNat < 2 ^ 11 := (unpackExponent bits).isLt
  have hbias : (Format.binary64.exponentBias : Int) = 1023 := rfl
  have hwidth : (Format.binary64.mantissaBitsWithoutImplicit : Int) = 52 := rfl
  unfold unpack
  dsimp only
  by_cases hones : unpackExponent bits = -1#_
  · rw [if_pos hones]
    by_cases hmantissa : unpackMantissa bits = 0#_
    · rw [if_pos hmantissa]
      trivial
    · rw [if_neg hmantissa]
      trivial
  · rw [if_neg hones]
    have hne : (unpackExponent bits).toNat ≠ 2 ^ 11 - 1 := fun h => hones (BitVec.toNat_inj.mp h)
    by_cases hzero : unpackExponent bits = 0#_
    · rw [if_pos hzero]
      by_cases hmantissa : unpackMantissa bits = 0#_
      · rw [dif_pos hmantissa]
        trivial
      · rw [dif_neg hmantissa]
        show _ + 1 < (972 : Int)
        rw [hzero, hbias, hwidth]
        decide
    · rw [if_neg hzero]
      show _ < (972 : Int)
      rw [hbias, hwidth]
      omega

theorem Bounded.neg {u : UnpackedFloat} (h : Bounded u) : Bounded u.neg := by
  cases u <;> exact h

/-- A number that fits stays as finite as it is when it is packed. -/
theorem isInf_unpack_pack {u : UnpackedFloat} (h : Bounded u) :
    (unpack .binary64 (pack .binary64 u)).isInf = u.isInf := by
  cases u with
  | infinity sign => cases sign <;> rfl
  | notANumber => rfl
  | zero sign => cases sign <;> rfl
  | finite sign mantissa exponent hpos =>
    have hbias : (Format.binary64.exponentBias : Int) = 1023 := rfl
    have hwidth : (Format.binary64.mantissaBitsWithoutImplicit : Int) = 52 := rfl
    have hexponent : exponent < 972 := h
    have hfield : (exponent + 1023 + 52).toNat + 1 < 2 ^ 11 := by omega
    refine isInf_unpack_of_ne ?_
    unfold pack
    simp only [hbias, hwidth]
    rw [if_neg (Nat.not_le.mpr hfield)]
    split_ifs
    · -- a normal number has its own field
      rw [unpackExponent_packComponents, Ne, ← BitVec.toNat_inj, BitVec.toNat_ofNat,
        Nat.mod_eq_of_lt (by omega)]
      show _ ≠ 2 ^ 11 - 1
      omega
    · rw [unpackExponent_packComponents]
      decide

/-! ### Infinite doubles -/

theorem isInf_ofBits (bits : UInt64) :
    (Float.ofBits bits).isInf = (unpack .binary64 bits.toBitVec).isInf :=
  isInf_unpack_pack (bounded_unpack _)

/-- **A change of sign makes nothing infinite.** -/
theorem isInf_neg (x : Float) : (-x).isInf = x.isInf := by
  show (unpack .binary64 (pack .binary64 x.toModel.unpack.neg)).isInf = x.toModel.unpack.isInf
  have hbounded : Bounded x.toModel.unpack := bounded_unpack _
  rw [isInf_unpack_pack hbounded.neg]
  cases x.toModel.unpack <;> rfl

/-- A double without parts is no number or infinite. -/
theorem isNaN_or_isInf_of_decode? {x : Float} (h : decode? x = none) :
    x.isNaN = true ∨ x.isInf = true := by
  refine isNaN_or_isInf_unpack ((unpackExponent_eq_iff _).mpr ?_)
  unfold decode? at h
  simp only at h
  split_ifs at h with hones
  exact hones

theorem isInf_ofNat_bits {bits : Nat} (h : bits < 0x7ff <<< 52) :
    (Float.ofBits (UInt64.ofNat bits)).isInf = false := by
  have hlt : bits < 0x7ff * 2 ^ 52 := h
  have hbits : (UInt64.ofNat bits).toBitVec.toNat = bits := Nat.mod_eq_of_lt (by omega)
  rw [isInf_ofBits]
  refine isInf_unpack_of_ne fun hones => ?_
  have hfield : (@unpackExponent .binary64 (UInt64.ofNat bits).toBitVec).toNat
      = 2 ^ 11 - 1 := congrArg BitVec.toNat hones
  rw [toNat_unpackExponent, hbits, Nat.shiftRight_eq_div_pow] at hfield
  omega

/-! ### Nearest doubles -/

theorem roundQuotient_le (num den : Nat) : roundQuotient num den ≤ num / den + 1 := by
  unfold roundQuotient
  simp only
  split_ifs <;> omega

theorem isInf_compose {significand : Nat} {exponent : Int} (hexponent : exponent ≤ 900)
    (hsignificand : significand ≤ 2 ^ 54) : (compose significand exponent).isInf = false := by
  unfold compose
  have hfield : (exponent + 1074).toNat ≤ 1974 := by omega
  have hlt : ((exponent + 1074).toNat <<< 52) + significand < 0x7ff <<< 52 := by
    rw [Nat.shiftLeft_eq, Nat.shiftLeft_eq]
    omega
  simp only [Nat.min_eq_left hlt.le]
  exact isInf_ofNat_bits hlt

/-- **The double nearest to an integer of at most 65 bits is not infinite.** -/
theorem isInf_nearest_one {num : Nat} (h : num ≤ 2 ^ 64) : (nearest num 1).isInf = false := by
  unfold nearest
  split_ifs with hzero
  · rfl
  · have hlog : num.log2 ≤ 64 := by
      have hlt : num < 2 ^ 65 := by omega
      have := (Nat.log2_lt hzero).mpr hlt
      omega
    have hone : (1 : Nat).log2 = 0 := rfl
    simp only [hone]
    set low : Int := max ((num.log2 : Int) - (0 : Nat) - 53) (-1074) with hlow
    set exponent : Int := if num <<< (-low).toNat / 1 <<< low.toNat < 1 <<< 53 then low else low + 1
      with hexponent
    have hlower : (num.log2 : Int) - 53 ≤ exponent := by
      rw [hexponent]
      split_ifs <;> omega
    have hupper : exponent ≤ 12 := by
      rw [hexponent]
      split_ifs <;> omega
    have hquotient : num <<< (-exponent).toNat / 1 <<< exponent.toNat < 2 ^ 54 := by
      rw [Nat.shiftLeft_eq, Nat.shiftLeft_eq, one_mul, Nat.div_lt_iff_lt_mul (Nat.two_pow_pos _)]
      calc num * 2 ^ (-exponent).toNat
          < 2 ^ (num.log2 + 1) * 2 ^ (-exponent).toNat :=
            Nat.mul_lt_mul_of_pos_right Nat.lt_log2_self (Nat.two_pow_pos _)
        _ = 2 ^ (num.log2 + 1 + (-exponent).toNat) := (Nat.pow_add ..).symm
        _ ≤ 2 ^ (54 + exponent.toNat) := Nat.pow_le_pow_right Nat.two_pos (by omega)
        _ = 2 ^ 54 * 2 ^ exponent.toNat := Nat.pow_add ..
    exact isInf_compose (by omega) ((roundQuotient_le _ _).trans hquotient)

theorem isInf_nearestInt {n : Int} (h : n.natAbs ≤ 2 ^ 64) : (nearestInt n).isInf = false := by
  unfold nearestInt
  simp only
  split_ifs
  · rw [isInf_neg, isInf_nearest_one h]
  · exact isInf_nearest_one h

end FuzzySearch.Decimal
