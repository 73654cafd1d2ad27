import FuzzySearch.Proofs.Decimal.Neutral

/-!
# Doubles put together from their parts

The bits of a double are a sign, an exponent field and a mantissa field (`exists_fields`), which
`unpack` and `decode?` take apart (`unpack_packComponents`, `decode?_eq`), alike
(`decode?_eq_parts`).  The parts of a double are `Binary.Proper`, and composing them gives the double
without its sign (`eq_of_decode?`).
-/

namespace FuzzySearch.Decimal

open Float.Model (Format UnpackedFloat)
open Float.Model.UnpackedFloat

/-! ### Fields -/

theorem toNat_packComponents (sign : Sign) (exponent : BitVec 11) (mantissa : BitVec 52) :
    (packComponents .binary64 sign exponent mantissa).toNat
      = sign.toBitVec.toNat * 2 ^ 63 + exponent.toNat * 2 ^ 52 + mantissa.toNat := by
  have hexponent : exponent.toNat < 2 ^ 11 := exponent.isLt
  have hmantissa : mantissa.toNat < 2 ^ 52 := mantissa.isLt
  show (sign.toBitVec ++ exponent ++ mantissa).toNat = _
  rw [BitVec.toNat_append, ← Nat.shiftLeft_add_eq_or_of_lt hmantissa, BitVec.toNat_append,
    ← Nat.shiftLeft_add_eq_or_of_lt hexponent, Nat.shiftLeft_eq, Nat.shiftLeft_eq]
  omega

/-- The double of a sign and two fields. -/
def ofFields (sign : Sign) (exponent : BitVec 11) (mantissa : BitVec 52) : Float :=
  Float.ofBits (UInt64.ofBitVec (packComponents .binary64 sign exponent mantissa))

/-- Every double consists of a sign and two fields. -/
theorem exists_fields (x : Float) : ∃ sign exponent mantissa,
    x.toBits.toBitVec = packComponents .binary64 sign exponent mantissa ∧
      x = ofFields sign exponent mantissa := by
  have hfields := @packComponents_unpackSign_unpackExponent_unpackMantissa .binary64
    x.toBits.toBitVec
  refine ⟨_, _, _, hfields.symm, ?_⟩
  unfold ofFields
  rw [hfields]
  exact (Float.ofBits_toBits x).symm

/-- **A word is unpacked by its fields.** -/
theorem unpack_packComponents (sign : Sign) (exponent : BitVec 11) (mantissa : BitVec 52) :
    unpack .binary64 (packComponents .binary64 sign exponent mantissa) =
      if exponent.toNat = 0x7ff then
        if mantissa.toNat = 0 then .infinity sign else .notANumber
      else if exponent.toNat = 0 then
        if h : mantissa.toNat = 0 then .zero sign
        else .finite sign mantissa.toNat (-1074) (Nat.pos_of_ne_zero h)
      else .finite sign (mantissa.toNat + 2 ^ 52) ((exponent.toNat : Int) - 1075) (by positivity) := by
  have hbias : (Format.binary64.exponentBias : Int) = 1023 := rfl
  have hones : exponent = -1#_ ↔ exponent.toNat = 0x7ff := BitVec.toNat_inj.symm
  have hempty : exponent = 0#_ ↔ exponent.toNat = 0 := BitVec.toNat_inj.symm
  have hnone : mantissa = 0#_ ↔ mantissa.toNat = 0 := BitVec.toNat_inj.symm
  unfold unpack
  simp only [unpackExponent_packComponents, unpackMantissa_packComponents,
    unpackSign_packComponents, Sign.ofBitVec_toBitVec, hones, hempty, hnone]
  split_ifs with hfull hinfinite hleast hzero
  · rfl
  · rfl
  · rfl
  · simp only [UnpackedFloat.finite.injEq, true_and]
    rw [hleast, hbias]
    rfl
  · simp only [UnpackedFloat.finite.injEq, toNat_one_append, true_and]
    rw [hbias]
    exact ⟨Nat.add_comm _ _, rfl⟩

/-- **The parts of a double are read off its fields.** -/
theorem decode?_eq {x : Float} {sign : Sign} {exponent : BitVec 11} {mantissa : BitVec 52}
    (h : x.toBits.toBitVec = packComponents .binary64 sign exponent mantissa) :
    decode? x =
      if exponent.toNat = 0x7ff then none
      else if exponent.toNat = 0 then some ⟨sign == .negative, mantissa.toNat, -1074⟩
      else some ⟨sign == .negative, mantissa.toNat + 1 <<< 52, (exponent.toNat : Int) - 1075⟩ := by
  have hexponent : exponent.toNat < 2 ^ 11 := exponent.isLt
  have hmantissa : mantissa.toNat < 2 ^ 52 := mantissa.isLt
  have hbits : x.toBits.toNat
      = sign.toBitVec.toNat * 2 ^ 63 + exponent.toNat * 2 ^ 52 + mantissa.toNat := by
    rw [← toNat_packComponents, ← h]
    rfl
  have hsign : (x.toBits.toNat >>> 63 == 1) = (sign == .negative) := by
    rw [hbits, Nat.shiftRight_eq_div_pow]
    cases sign with
    | negative =>
      show (_ == 1) = true
      rw [show Sign.negative.toBitVec.toNat = 1 from rfl, beq_iff_eq]
      omega
    | positive =>
      show (_ == 1) = false
      rw [show Sign.positive.toBitVec.toNat = 0 from rfl, beq_eq_false_iff_ne]
      omega
  have hfield : (x.toBits.toNat >>> 52) &&& 0x7ff = exponent.toNat := by
    rw [Nat.and_two_pow_sub_one_eq_mod _ 11, hbits, Nat.shiftRight_eq_div_pow]
    omega
  have hfraction : x.toBits.toNat % 1 <<< 52 = mantissa.toNat := by
    rw [hbits, Nat.shiftLeft_eq]
    omega
  unfold decode?
  simp only [hsign, hfield, hfraction]

/-- The parts of an unpacked double. -/
def parts : UnpackedFloat → Option Binary
  | .notANumber | .infinity _ => none
  | .zero sign => some ⟨sign == .negative, 0, -1074⟩
  | .finite sign mantissa exponent _ => some ⟨sign == .negative, mantissa, exponent⟩

/-- **The parts of a double are those of its unpacked form.** -/
theorem decode?_eq_parts (x : Float) : decode? x = parts x.toModel.unpack := by
  obtain ⟨sign, exponent, mantissa, hbits, -⟩ := exists_fields x
  rw [decode?_eq hbits]
  show _ = parts (unpack .binary64 x.toBits.toBitVec)
  rw [hbits, unpack_packComponents]
  split_ifs with hones hinfinite hempty hzero
  · rfl
  · rfl
  · rw [hzero]
    rfl
  · rfl
  · rfl

/-! ### Signs -/

theorem neg_unpack_packComponents {exponent : BitVec 11} (h : exponent ≠ -1#_)
    (sign : Sign) (mantissa : BitVec 52) :
    (unpack .binary64 (packComponents .binary64 sign exponent mantissa)).neg
      = unpack .binary64 (packComponents .binary64 (-sign) exponent mantissa) := by
  have hne : exponent.toNat ≠ 0x7ff := fun heq => h (BitVec.toNat_inj.mp heq)
  rw [unpack_packComponents, unpack_packComponents, if_neg hne, if_neg hne]
  split_ifs <;> rfl

theorem valid_of_ne {bits : BitVec Format.binary64.numBits} (h : unpackExponent bits ≠ -1#_) :
    Format.binary64.Valid bits := ⟨fun hones => absurd hones h⟩

/-- A change of sign changes the sign only. -/
theorem neg_ofFields {exponent : BitVec 11} (h : exponent ≠ -1#_) (sign : Sign)
    (mantissa : BitVec 52) : -ofFields sign exponent mantissa = ofFields (-sign) exponent mantissa := by
  have hvalid : Format.binary64.Valid (packComponents .binary64 sign exponent mantissa) :=
    valid_of_ne (by rwa [unpackExponent_packComponents])
  show Float.ofModel (.pack (unpack .binary64 (pack .binary64 (unpack .binary64
    (packComponents .binary64 sign exponent mantissa)))).neg) = _
  rw [pack_unpack_of_valid hvalid, neg_unpack_packComponents h]
  rfl

/-! ### Composing -/

/-- The parts of a double: the significand has at most 53 bits, and 53 unless the exponent is the
least one. -/
structure Binary.Proper (b : Binary) : Prop where
  significand_lt : b.significand < 2 ^ 53
  normal : 2 ^ 52 ≤ b.significand ∨ b.exponent = -1074
  least_le : -1074 ≤ b.exponent
  le_greatest : b.exponent ≤ 971

theorem compose_eq_ofBits {significand : Nat} {exponent : Int}
    (h : (exponent + 1074).toNat * 2 ^ 52 + significand < 0x7ff * 2 ^ 52) :
    compose significand exponent
      = Float.ofBits (UInt64.ofNat ((exponent + 1074).toNat * 2 ^ 52 + significand)) := by
  have hinfinite : 0x7ff <<< 52 = 0x7ff * 2 ^ 52 := rfl
  unfold compose
  simp only [Nat.shiftLeft_eq (exponent + 1074).toNat, hinfinite, Nat.min_eq_left h.le]

/-- **A double is composed of its parts**, and has the sign that was taken off. -/
theorem eq_of_decode? {x : Float} {b : Binary} (h : decode? x = some b) :
    b.Proper ∧ x = if b.negative then -compose b.significand b.exponent
      else compose b.significand b.exponent := by
  obtain ⟨sign, exponent, mantissa, hbits, hx⟩ := exists_fields x
  have hexponent : exponent.toNat < 2 ^ 11 := exponent.isLt
  have hmantissa : mantissa.toNat < 2 ^ 52 := mantissa.isLt
  rw [decode?_eq hbits] at h
  have hones : exponent.toNat ≠ 0x7ff := fun hones => by simp [hones] at h
  have hne : exponent ≠ -1#_ := fun heq => hones (by rw [heq]; rfl)
  -- without the sign the bits are those that are composed
  have hcompose : ∀ {significand : Nat} {power : Int},
      (power + 1074).toNat * 2 ^ 52 + significand = exponent.toNat * 2 ^ 52 + mantissa.toNat →
        compose significand power = ofFields .positive exponent mantissa := by
    intro significand power hsum
    have hpositive := toNat_packComponents .positive exponent mantissa
    rw [show Sign.positive.toBitVec.toNat = 0 from rfl, zero_mul, zero_add] at hpositive
    rw [compose_eq_ofBits (by rw [hsum]; omega), hsum, ← hpositive]
    unfold ofFields
    congr 1
    exact UInt64.toNat_inj.mp (by simp)
  have hsigned : x = if (sign == .negative) = true then -ofFields .positive exponent mantissa
      else ofFields .positive exponent mantissa := by
    rw [hx, neg_ofFields hne]
    cases sign <;> rfl
  rw [if_neg hones] at h
  split_ifs at h with hzero
  · obtain rfl := Option.some.inj h
    refine ⟨⟨?_, Or.inr rfl, le_rfl, show (-1074 : Int) ≤ 971 by decide⟩, ?_⟩
    · show mantissa.toNat < _
      omega
    · rw [hcompose (by rw [hzero]; simp)]
      exact hsigned
  · obtain rfl := Option.some.inj h
    refine ⟨⟨?_, Or.inl ?_, ?_, ?_⟩, ?_⟩
    · show mantissa.toNat + 1 <<< 52 < _
      omega
    · show _ ≤ mantissa.toNat + 1 <<< 52
      omega
    · show -1074 ≤ (exponent.toNat : Int) - 1075
      omega
    · show (exponent.toNat : Int) - 1075 ≤ 971
      omega
    · have hsum : compose (mantissa.toNat + 1 <<< 52) ((exponent.toNat : Int) - 1075)
          = ofFields .positive exponent mantissa := hcompose (by omega)
      rw [hsum]
      exact hsigned

/-- What is composed of proper parts is not infinite. -/
theorem Binary.Proper.isInf_compose {b : Binary} (h : b.Proper) :
    (compose b.significand b.exponent).isInf = false := by
  have hlt : (b.exponent + 1074).toNat * 2 ^ 52 + b.significand < 0x7ff * 2 ^ 52 := by
    have := h.significand_lt
    have := h.least_le
    have := h.le_greatest
    omega
  rw [compose_eq_ofBits hlt]
  exact isInf_ofNat_bits hlt

end FuzzySearch.Decimal
