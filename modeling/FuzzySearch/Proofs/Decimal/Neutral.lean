import FuzzySearch.Proofs.Decimal.Finite
import Mathlib

/-!
# Sums with zero and quotients by one

A double is packed as it was unpacked (`Float.ofBits_toBits`), so to divide it by one gives it back
(`div_one`), and so does to add it to zero, unless it is the negative zero (`zero_add_of_unsigned`).
Doubles without a sign are closed under sums and quotients (`Unsigned.add`, `Unsigned.div`), and every
double that is greater than one without a sign has none (`Unsigned.of_lt`).
-/

namespace FuzzySearch.Decimal

open Float.Model (Format UnpackedFloat totalExponent)
open Float.Model.UnpackedFloat

/-! ### Canonical form -/

theorem toNat_one_append (mantissa : BitVec 52) :
    (1#1 ++ mantissa).toNat = 2 ^ 52 + mantissa.toNat := by
  rw [BitVec.toNat_append, ← Nat.shiftLeft_add_eq_or_of_lt mantissa.isLt]
  rfl

/-- The mantissa of a finite double has 53 bits, unless the exponent is the least one. -/
def Canonical : UnpackedFloat → Prop
  | .finite _ mantissa exponent _ =>
    mantissa < 2 ^ 53 ∧ (2 ^ 52 ≤ mantissa ∧ -1074 ≤ exponent ∨ exponent = -1074)
  | _ => True

theorem canonical_unpack (bits : BitVec Format.binary64.numBits) :
    Canonical (unpack .binary64 bits) := by
  have hbias : (Format.binary64.exponentBias : Int) = 1023 := rfl
  have hwidth : (Format.binary64.mantissaBitsWithoutImplicit : Int) = 52 := rfl
  have hmantissa : (unpackMantissa bits).toNat < 2 ^ 52 := (unpackMantissa bits).isLt
  unfold unpack
  dsimp only
  split_ifs with hones hzero hexponent hnone
  · trivial
  · trivial
  · trivial
  · refine ⟨by omega, Or.inr ?_⟩
    rw [hexponent, hbias, hwidth]
    rfl
  · have hpositive : (unpackExponent bits).toNat ≠ 0 := fun h => hexponent (BitVec.toNat_inj.mp h)
    refine ⟨?_, Or.inl ⟨?_, ?_⟩⟩
    · rw [toNat_one_append]
      omega
    · rw [toNat_one_append]
      omega
    · rw [hbias, hwidth]
      omega

theorem log2_eq_of_bounds {m k : Nat} (hle : 2 ^ k ≤ m) (hlt : m < 2 ^ (k + 1)) : m.log2 = k := by
  have hm : m ≠ 0 := by
    have := Nat.two_pow_pos k
    omega
  have hlower := (Nat.le_log2 hm).mpr hle
  have hupper := (Nat.log2_lt hm).mpr hlt
  omega

/-! ### Quotients by one -/

theorem targetExponent_eq {mantissa : Nat} {exponent : Int} {sign : Sign} {hpos : 0 < mantissa}
    (h : Canonical (.finite sign mantissa exponent hpos)) :
    Format.binary64.targetExponent (totalExponent mantissa exponent) = exponent ∧
      -1074 ≤ exponent := by
  have htarget : Format.binary64.targetExponent (totalExponent mantissa exponent)
      = max ((mantissa.log2 : Int) + 1 + exponent - 53) (-1074) := rfl
  rw [htarget]
  obtain ⟨hlt, ⟨hle, hleast⟩ | hleast⟩ := h
  · rw [log2_eq_of_bounds hle hlt]
    omega
  · have := (Nat.log2_lt hpos.ne').mpr hlt
    omega

theorem shiftToTargetExponent_of_canonical {mantissa : Nat} {exponent : Int} {sign : Sign}
    {hpos : 0 < mantissa} (h : Canonical (.finite sign mantissa exponent hpos)) :
    shiftToTargetExponent .binary64 mantissa exponent .exact
      = (⟨mantissa, false, false⟩, exponent) := by
  have hamount : (exponent - exponent).toNat = 0 := by omega
  simp only [shiftToTargetExponent, shiftToExponent, (targetExponent_eq h).1, hamount]
  exact Prod.ext rfl (Int.add_zero exponent)

/-- What the first shift brings into canonical form is not rounded any more. -/
theorem roundWithAccuracy_of_shift {mantissa wide : Nat} {exponent low : Int} {accuracy : Accuracy}
    {sign : Sign} {hpos : 0 < mantissa} (h : Canonical (.finite sign mantissa exponent hpos))
    (hshift : shiftToTargetExponent .binary64 wide low accuracy
      = (⟨mantissa, false, false⟩, exponent)) :
    roundWithAccuracy .binary64 sign wide low accuracy = .finite sign mantissa exponent hpos := by
  have hround : (⟨mantissa, false, false⟩ : ExtendedMantissa).roundedMantissa = mantissa := rfl
  simp only [roundWithAccuracy, hshift, hround, shiftToTargetExponent_of_canonical h]
  rw [dif_neg hpos.ne']

/-- The quotient by one, before it is rounded: twice the mantissa, or the mantissa at the least
exponent. -/
theorem divCore_one {mantissa : Nat} {exponent : Int} {sign : Sign} {hpos : 0 < mantissa}
    (h : Canonical (.finite sign mantissa exponent hpos)) :
    divCore .binary64 mantissa exponent (2 ^ 52) (-52)
      = if exponent = -1074 then (mantissa, exponent, .exact)
        else (2 * mantissa, exponent - 1, .exact) := by
  obtain ⟨htarget, hleast⟩ := targetExponent_eq h
  have hone : totalExponent (2 ^ 52) (-52) = 1 := by decide
  have htargets : ∀ total : Int, Format.binary64.targetExponent total = max (total - 53) (-1074) :=
    fun total => rfl
  rw [htargets] at htarget
  have hexact : accuracyOfFraction 0 (2 ^ 52) = .exact := rfl
  simp only [divCore, hone, htargets]
  split_ifs with hexponent
  · have hlow : min (exponent - -52) (max (totalExponent mantissa exponent - 1 - 53) (-1074))
        = exponent := by omega
    have hamount : (exponent - -52 - exponent).toNat = 52 := by omega
    rw [hlow, hamount, Nat.shiftLeft_eq, Nat.mul_div_cancel _ (by decide), Nat.mul_mod_left, hexact]
  · have hlow : min (exponent - -52) (max (totalExponent mantissa exponent - 1 - 53) (-1074))
        = exponent - 1 := by omega
    have hamount : (exponent - -52 - (exponent - 1)).toNat = 53 := by omega
    have hwide : mantissa * 2 ^ 53 = 2 * mantissa * 2 ^ 52 := by omega
    rw [hlow, hamount, Nat.shiftLeft_eq, hwide, Nat.mul_div_cancel _ (by decide), Nat.mul_mod_left,
      hexact]

theorem div_one_of_canonical {u : UnpackedFloat} (h : Canonical u) :
    div .binary64 u (.finite .positive (2 ^ 52) (-52) (by decide)) = u := by
  have hsign : ∀ sign : Sign, sign / .positive = sign := by
    intro sign
    cases sign <;> rfl
  cases u with
  | infinity sign => exact congrArg UnpackedFloat.infinity (hsign sign)
  | notANumber => rfl
  | zero sign => exact congrArg UnpackedFloat.zero (hsign sign)
  | finite sign mantissa exponent hpos =>
    simp only [div, divCore_one h, hsign]
    split_ifs with hexponent
    · exact roundWithAccuracy_of_shift h (shiftToTargetExponent_of_canonical h)
    · refine roundWithAccuracy_of_shift h ?_
      -- the first shift takes back the bit that was gained
      have hlog : (2 * mantissa).log2 = mantissa.log2 + 1 := Nat.log2_two_mul hpos.ne'
      have htotal : totalExponent (2 * mantissa) (exponent - 1) = totalExponent mantissa exponent := by
        unfold totalExponent
        rw [hlog]
        omega
      have hamount : (exponent - (exponent - 1)).toNat = 1 := by omega
      simp only [shiftToTargetExponent, shiftToExponent, htotal, (targetExponent_eq h).1, hamount]
      refine Prod.ext ?_ (by show exponent - 1 + 1 = exponent; omega)
      show (⟨2 * mantissa / 2, (2 * mantissa) % 2 != 0, false || false⟩ : ExtendedMantissa) = _
      rw [Nat.mul_div_cancel_left _ Nat.two_pos, Nat.mul_mod_right]
      rfl

theorem canonical_unpack_toModel (x : Float) : Canonical x.toModel.unpack := canonical_unpack _

/-- **A double divided by one is the double.** -/
theorem div_one (x : Float) : x / 1.0 = x := by
  have hone : (1.0 : Float).toModel.unpack = .finite .positive (2 ^ 52) (-52) (by decide) := rfl
  show Float.ofModel (.pack (div .binary64 x.toModel.unpack (1.0 : Float).toModel.unpack)) = x
  rw [hone, div_one_of_canonical (canonical_unpack_toModel x)]
  exact Float.ofBits_toBits x

/-! ### Doubles without a sign -/

/-- A number without a sign: a sum or a quotient of such numbers is one as well. -/
inductive Signless : UnpackedFloat → Prop
  | notANumber : Signless .notANumber
  | infinity : Signless (.infinity .positive)
  | zero : Signless (.zero .positive)
  | finite {mantissa : Nat} {exponent : Int} {hpos : 0 < mantissa} :
      Signless (.finite .positive mantissa exponent hpos)

/-- A double without a sign. -/
def Unsigned (x : Float) : Prop := Signless x.toModel.unpack

theorem signless_unpack {bits : BitVec Format.binary64.numBits}
    (h : Sign.ofBitVec (unpackSign bits) = .positive) : Signless (unpack .binary64 bits) := by
  unfold unpack
  dsimp only
  rw [h]
  split_ifs
  · exact .infinity
  · exact .notANumber
  · exact .zero
  · exact .finite
  · exact .finite

theorem signless_packComponents (exponent : BitVec 11) (mantissa : BitVec 52) :
    Signless (unpack .binary64 (packComponents .binary64 .positive exponent mantissa)) :=
  signless_unpack (by rw [unpackSign_packComponents, Sign.ofBitVec_toBitVec])

/-- What has no sign gets none when it is packed. -/
theorem Signless.unpack_pack {u : UnpackedFloat} (h : Signless u) :
    Signless (unpack .binary64 (pack .binary64 u)) := by
  cases h with
  | notANumber => exact .notANumber
  | infinity => exact .infinity
  | zero => exact .zero
  | finite =>
    unfold pack
    dsimp only
    split_ifs
    · exact signless_packComponents _ _
    · exact signless_packComponents _ _
    · exact signless_packComponents _ _

theorem signless_roundWithAccuracy (mantissa : Nat) (exponent : Int) (accuracy : Accuracy) :
    Signless (roundWithAccuracy .binary64 .positive mantissa exponent accuracy) := by
  unfold roundWithAccuracy
  dsimp only
  split_ifs
  · exact .zero
  · exact .finite

theorem signless_normalize {mantissa : Int} (h : 0 ≤ mantissa) (exponent : Int) :
    Signless (normalize .binary64 mantissa exponent .positive) := by
  unfold UnpackedFloat.normalize
  split
  · rename_i hlt
    have : mantissa < 0 := compare_lt_iff_lt.mp hlt
    omega
  · exact .zero
  · exact signless_roundWithAccuracy _ _ _

theorem Signless.add {u v : UnpackedFloat} (hu : Signless u) (hv : Signless v) :
    Signless (add .binary64 u v) := by
  cases hu with
  | notANumber => exact .notANumber
  | infinity =>
    cases hv with
    | notANumber => exact .notANumber
    | infinity | zero | finite => exact .infinity
  | zero => cases hv <;> constructor
  | finite =>
    cases hv with
    | notANumber => exact .notANumber
    | infinity => exact .infinity
    | zero => exact .finite
    | finite =>
      exact signless_normalize (Int.add_nonneg (Int.natCast_nonneg _) (Int.natCast_nonneg _)) _

theorem Signless.div {u v : UnpackedFloat} (hu : Signless u) (hv : Signless v) :
    Signless (div .binary64 u v) := by
  cases hu with
  | notANumber => exact .notANumber
  | infinity => cases hv <;> constructor
  | zero => cases hv <;> constructor
  | finite =>
    cases hv with
    | notANumber => exact .notANumber
    | infinity => exact .zero
    | zero => exact .infinity
    | finite => exact signless_roundWithAccuracy _ _ _

theorem Signless.mul {u v : UnpackedFloat} (hu : Signless u) (hv : Signless v) :
    Signless (mul .binary64 u v) := by
  cases hu with
  | notANumber => exact .notANumber
  | infinity => cases hv <;> constructor
  | zero => cases hv <;> constructor
  | finite =>
    cases hv with
    | notANumber => exact .notANumber
    | infinity => exact .infinity
    | zero => exact .zero
    | finite => exact signless_roundWithAccuracy _ _ _

/-- What is greater than a number without a sign has none either. -/
theorem Signless.of_compare {u v : UnpackedFloat} (hu : Signless u)
    (h : u.compare v = some .lt) : Signless v := by
  cases v with
  | notANumber => exact .notANumber
  | infinity sign | zero sign | finite sign =>
    cases sign with
    | positive => constructor
    | negative => cases hu <;> cases h

/-- **Sums of doubles without a sign have none.** -/
theorem Unsigned.add {x y : Float} (hx : Unsigned x) (hy : Unsigned y) : Unsigned (x + y) :=
  (Signless.add hx hy).unpack_pack

/-- **Quotients of doubles without a sign have none.** -/
theorem Unsigned.div {x y : Float} (hx : Unsigned x) (hy : Unsigned y) : Unsigned (x / y) :=
  (Signless.div hx hy).unpack_pack

theorem Unsigned.mul {x y : Float} (hx : Unsigned x) (hy : Unsigned y) : Unsigned (x * y) :=
  (Signless.mul hx hy).unpack_pack

/-- A double that is greater than one without a sign has none either. -/
theorem Unsigned.of_lt {x y : Float} (hx : Unsigned x) (hlt : x < y) : Unsigned y := by
  have hmodel : x.toModel.unpack.lt y.toModel.unpack = true := of_decide_eq_true hlt
  exact Signless.of_compare hx (eq_of_beq hmodel)

theorem signless_ofScientific (mantissa : Nat) (exponent : Int) :
    Signless (ofScientific .binary64 mantissa exponent) := by
  unfold ofScientific
  split_ifs
  · exact .zero
  · exact .infinity
  · exact .zero
  · exact Signless.mul .finite .finite
  · exact Signless.div .finite .finite

/-- The double of an integer of at most 53 bits. -/
theorem unpack_ofNat_of_lt {n : Nat} (h : n < 2 ^ 53) :
    (Float.ofNat n).toModel.unpack = unpack .binary64 (pack .binary64 (mul .binary64
      (unpack .binary64 (pack .binary64 (normalize .binary64 (n : Int) 0 .positive)))
      (1.0 : Float).toModel.unpack)) := by
  have hn : n.toUInt64.toNat = n := Nat.mod_eq_of_lt (by omega)
  have hfloat : n.toUInt64.toFloat.toModel.unpack
      = unpack .binary64 (pack .binary64 (normalize .binary64 (n : Int) 0 .positive)) := by
    show unpack .binary64 (pack .binary64
      (normalize .binary64 (n.toUInt64.toNat : Int) 0 .positive)) = _
    rw [hn]
  rw [← hfloat]
  show (Float.ofScientific n false 0).toModel.unpack = _
  unfold Float.ofScientific
  rw [dif_pos ⟨h, by decide⟩, if_neg Bool.false_ne_true]
  rfl

/-- The double of an integer of more than 53 bits. -/
theorem unpack_ofNat_of_le {n : Nat} (h : 2 ^ 53 ≤ n) :
    (Float.ofNat n).toModel.unpack
      = unpack .binary64 (pack .binary64 (ofScientific .binary64 n 0)) := by
  show (Float.ofScientific n false 0).toModel.unpack = _
  unfold Float.ofScientific
  rw [dif_neg (by omega), if_neg Bool.false_ne_true]
  rfl

theorem unsigned_ofNat (n : Nat) : Unsigned (Float.ofNat n) := by
  have hone : Signless (1.0 : Float).toModel.unpack := by
    show Signless (.finite .positive (2 ^ 52) (-52) (by decide))
    exact .finite
  unfold Unsigned
  rcases Nat.lt_or_ge n (2 ^ 53) with hlt | hge
  · rw [unpack_ofNat_of_lt hlt]
    have hnormal := signless_normalize (Int.natCast_nonneg n) 0
    exact (hnormal.unpack_pack.mul hone).unpack_pack
  · rw [unpack_ofNat_of_le hge]
    exact (signless_ofScientific n 0).unpack_pack

theorem unsigned_ofBits {bits : Nat} (h : bits < 2 ^ 63) :
    Unsigned (Float.ofBits (UInt64.ofNat bits)) := by
  refine Signless.unpack_pack (signless_unpack ?_)
  have hsign : (@unpackSign .binary64 (UInt64.ofNat bits).toBitVec).toNat = 0 := by
    have hbits : (UInt64.ofNat bits).toBitVec.toNat = bits := Nat.mod_eq_of_lt (by omega)
    simp only [unpackSign, BitVec.extractLsb, BitVec.toNat_cast, BitVec.extractLsb'_toNat, hbits]
    rw [Nat.shiftRight_eq_div_pow, Nat.div_eq_of_lt h]
  rw [show @unpackSign .binary64 (UInt64.ofNat bits).toBitVec = 0#1 from BitVec.toNat_inj.mp hsign]
  rfl

theorem unsigned_nearest (num den : Nat) : Unsigned (nearest num den) := by
  unfold nearest
  split_ifs
  · exact Signless.zero
  · exact unsigned_ofBits (Nat.lt_of_le_of_lt (Nat.min_le_right _ _) (by decide))

/-- Quotients of integers without a sign have none. -/
theorem unsigned_nearestRatio {num den : Int} (hnum : 0 ≤ num) (hden : 0 ≤ den) :
    Unsigned (nearestRatio num den) := by
  obtain ⟨n, rfl⟩ := Int.eq_ofNat_of_zero_le hnum
  obtain ⟨d, rfl⟩ := Int.eq_ofNat_of_zero_le hden
  unfold nearestRatio
  split_ifs with hsmall hsign
  · exact (unsigned_ofNat n).div (unsigned_ofNat d)
  · simp only [bne_iff_ne, ne_eq, decide_eq_decide] at hsign
    omega
  · exact unsigned_nearest _ _

/-- **Zero added to a double without a sign gives the double.** -/
theorem zero_add_of_unsigned {x : Float} (h : Unsigned x) : 0.0 + x = x := by
  have hzero : (0.0 : Float).toModel.unpack = .zero .positive := rfl
  have hsum : UnpackedFloat.add .binary64 (.zero .positive) x.toModel.unpack = x.toModel.unpack := by
    unfold Unsigned at h
    generalize x.toModel.unpack = u at h
    cases h <;> rfl
  show Float.ofModel (.pack (add .binary64 (0.0 : Float).toModel.unpack x.toModel.unpack)) = x
  rw [hzero, hsum]
  exact Float.ofBits_toBits x

end FuzzySearch.Decimal
