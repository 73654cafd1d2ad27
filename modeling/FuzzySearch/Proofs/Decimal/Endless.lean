import FuzzySearch.Arithmetic
import FuzzySearch.Proofs.Decimal.Fields

/-!
# Doubles without a finite value

An infinity and a value that is no number are endless: they have no parts (`decode?_eq_parts`).  A
double is greater than zero as a fraction, endless without being less than zero, or at most zero
(`not_le_zero_iff`).

Nothing that is computed from endless doubles is of use any more: a sum with an endless term is
endless (`endless_sum`), and no quotient by an endless double is positive (`Endless.not_pos_div`).
-/

namespace FuzzySearch.Decimal

open Float.Model (UnpackedFloat)
open Float.Model.UnpackedFloat

/-! ### Positive doubles -/

/-- The size of a double is positive if it has no sign and is not zero. -/
theorem Binary.toRat_pos_iff (b : Binary) :
    0 < b.toRat ↔ b.negative = false ∧ 0 < b.significand := by
  have hden : (0 : Rat) < b.den := by
    rw [Binary.den, Nat.shiftLeft_eq]
    positivity
  have hnum : (0 : Rat) < b.num ↔ 0 < b.significand := by
    rw [Binary.num, Nat.shiftLeft_eq, Nat.cast_pos]
    exact Nat.mul_pos_iff_of_pos_right (Nat.two_pow_pos _)
  have hsize : (0 : Rat) ≤ (b.num : Rat) / b.den := div_nonneg (Nat.cast_nonneg _) hden.le
  unfold Binary.toRat
  cases b.negative with
  | true => exact iff_of_false (not_lt.mpr (neg_nonpos.mpr hsize)) fun h => Bool.noConfusion h.1
  | false =>
    show 0 < (b.num : Rat) / b.den ↔ _
    rw [div_pos_iff_of_pos_right hden, hnum, eq_self, true_and]

theorem float_le_iff (x y : Float) : x ≤ y ↔ x.toModel.unpack.le y.toModel.unpack = true :=
  decide_eq_true_iff

theorem float_lt_iff (x y : Float) : x < y ↔ x.toModel.unpack.lt y.toModel.unpack = true :=
  decide_eq_true_iff

/-- A double that is a positive fraction. -/
def IsPositive (x : Float) : Prop := ∃ b, decode? x = some b ∧ 0 < b.toRat

/-- **A double that is not at most zero is positive, no number, or infinite.** -/
theorem not_le_zero_iff (x : Float) :
    ¬ x ≤ 0.0 ↔ IsPositive x ∨ x.isNaN = true ∨ x.isInf = true ∧ 0.0 < x := by
  have hzero : (0.0 : Float).toModel.unpack = .zero .positive := rfl
  have hnan : x.isNaN = x.toModel.unpack.isNaN := rfl
  have hinf : x.isInf = x.toModel.unpack.isInf := rfl
  unfold IsPositive
  rw [float_le_iff, float_lt_iff, hzero, hnan, hinf, decode?_eq_parts]
  cases x.toModel.unpack with
  | notANumber => exact iff_of_true Bool.false_ne_true (.inr (.inl rfl))
  | infinity sign =>
    cases sign with
    | positive => exact iff_of_true Bool.false_ne_true (.inr (.inr ⟨rfl, rfl⟩))
    | negative =>
      refine iff_of_false (not_not.mpr rfl) ?_
      rintro (⟨b, hb, -⟩ | hnan | ⟨-, hlt⟩)
      · cases hb
      · exact Bool.noConfusion hnan
      · exact Bool.noConfusion hlt
  | zero sign =>
    refine iff_of_false (not_not.mpr rfl) ?_
    rintro (⟨b, hb, hpos⟩ | hnan | ⟨hinf, -⟩)
    · obtain rfl := Option.some.inj hb
      exact absurd ((Binary.toRat_pos_iff _).mp hpos).2 (lt_irrefl 0)
    · exact Bool.noConfusion hnan
    · exact Bool.noConfusion hinf
  | finite sign mantissa exponent hmantissa =>
    cases sign with
    | positive =>
      refine iff_of_true Bool.false_ne_true (.inl ⟨_, rfl, ?_⟩)
      exact (Binary.toRat_pos_iff _).mpr ⟨rfl, hmantissa⟩
    | negative =>
      refine iff_of_false (not_not.mpr rfl) ?_
      rintro (⟨b, hb, hpos⟩ | hnan | ⟨hinf, -⟩)
      · obtain rfl := Option.some.inj hb
        exact Bool.noConfusion ((Binary.toRat_pos_iff _).mp hpos).1
      · exact Bool.noConfusion hnan
      · exact Bool.noConfusion hinf

/-! ### Sums and quotients -/

/-- No number, or an infinity. -/
inductive EndlessForm : UnpackedFloat → Prop
  | notANumber : EndlessForm .notANumber
  | infinity {sign : Sign} : EndlessForm (.infinity sign)

/-- A double without a finite value. -/
def Endless (x : Float) : Prop := EndlessForm x.toModel.unpack

theorem endless_iff (x : Float) : Endless x ↔ x.isNaN = true ∨ x.isInf = true := by
  have hnan : x.isNaN = x.toModel.unpack.isNaN := rfl
  have hinf : x.isInf = x.toModel.unpack.isInf := rfl
  rw [hnan, hinf, Endless]
  cases x.toModel.unpack with
  | notANumber => exact iff_of_true .notANumber (.inl rfl)
  | infinity => exact iff_of_true .infinity (.inr rfl)
  | zero | finite =>
    refine iff_of_false (fun h => by cases h) ?_
    rintro (h | h) <;> exact Bool.noConfusion h

theorem Endless.decode?_eq_none {x : Float} (h : Endless x) : decode? x = none := by
  rw [decode?_eq_parts]
  unfold Endless at h
  generalize x.toModel.unpack = u at h ⊢
  cases h <;> rfl

theorem EndlessForm.unpack_pack {u : UnpackedFloat} (h : EndlessForm u) :
    EndlessForm (unpack .binary64 (pack .binary64 u)) := by
  cases h with
  | notANumber => exact .notANumber
  | @infinity sign =>
    cases sign with
    | positive => exact .infinity
    | negative => exact .infinity

theorem EndlessForm.add_right {v : UnpackedFloat} (h : EndlessForm v) (u : UnpackedFloat) :
    EndlessForm (add .binary64 u v) := by
  cases h with
  | notANumber => cases u <;> exact .notANumber
  | infinity =>
    cases u with
    | notANumber => exact .notANumber
    | infinity =>
      unfold UnpackedFloat.add
      dsimp only
      split_ifs
      · exact .infinity
      · exact .notANumber
    | zero | finite => exact .infinity

theorem EndlessForm.add_left {u : UnpackedFloat} (h : EndlessForm u) (v : UnpackedFloat) :
    EndlessForm (add .binary64 u v) := by
  cases h with
  | notANumber => exact .notANumber
  | infinity =>
    cases v with
    | notANumber => exact .notANumber
    | infinity => exact add_right .infinity _
    | zero | finite => exact .infinity

/-- A sum with an endless term is endless. -/
theorem Endless.add_left {x : Float} (h : Endless x) (y : Float) : Endless (x + y) :=
  (EndlessForm.add_left h y.toModel.unpack).unpack_pack

theorem Endless.add_right {y : Float} (h : Endless y) (x : Float) : Endless (x + y) :=
  (EndlessForm.add_right h x.toModel.unpack).unpack_pack

theorem Endless.foldl_add {x : Float} (h : Endless x) (ys : List Float) :
    Endless (ys.foldl (· + ·) x) := by
  induction ys generalizing x with
  | nil => exact h
  | cons y ys ih => exact ih (h.add_left y)

/-- **A sum with an endless term is endless**, wherever the term stands. -/
theorem endless_sum {x : Float} {xs : List Float} (hmem : x ∈ xs) (h : Endless x) :
    Endless (ScoreNumber.sum xs) := by
  unfold ScoreNumber.sum
  generalize (ScoreNumber.zero : Float) = start
  induction xs generalizing start with
  | nil => cases hmem
  | cons y ys ih =>
    rcases List.mem_cons.mp hmem with rfl | hmem
    · exact (h.add_right start).foldl_add ys
    · exact ih hmem _

/-- A quotient by an endless number is zero or no number. -/
theorem EndlessForm.div {v : UnpackedFloat} (h : EndlessForm v) (u : UnpackedFloat) :
    div .binary64 u v = .notANumber ∨ ∃ sign, div .binary64 u v = .zero sign := by
  cases h with
  | notANumber => cases u <;> exact .inl rfl
  | infinity =>
    cases u with
    | notANumber | infinity => exact .inl rfl
    | zero | finite => exact .inr ⟨_, rfl⟩

/-- **No quotient by an endless double is positive.** -/
theorem Endless.not_pos_div {y : Float} (h : Endless y) (x : Float) : ¬ 0.0 < x / y := by
  have hzero : (0.0 : Float).toModel.unpack = .zero .positive := rfl
  have hquotient : (x / y).toModel.unpack = unpack .binary64 (pack .binary64
      (UnpackedFloat.div .binary64 x.toModel.unpack y.toModel.unpack)) := rfl
  rw [float_lt_iff, hzero, hquotient]
  rcases EndlessForm.div h x.toModel.unpack with hdiv | ⟨sign, hdiv⟩
  · rw [hdiv]
    exact Bool.false_ne_true
  · rw [hdiv]
    cases sign <;> exact Bool.false_ne_true

end FuzzySearch.Decimal
