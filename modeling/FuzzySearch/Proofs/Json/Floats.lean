import FuzzySearch.Proofs.Decimal.Shortest
import FuzzySearch.Proofs.Json.Numbers

/-!
# Floating-point numbers in JSON

The digits of a floating-point number are laid out with a point, an exponent, or both.  Either way
they are read as a coefficient and a power of ten with the same value (`unsigned?_digitsText`), which
rounds to the number they were written for.  So every number that is neither infinite nor no number
is read back from its text (`scalar?_text`).
-/

namespace FuzzySearch.Json

open Decimal (natText ofDigits Digits padZeros positional pointAfterFirst exponentText)

/-! ### Positional notation -/

theorem digitValues_append (cs cs' : List Char) :
    digitValues (cs ++ cs') = digitValues cs ++ digitValues cs' := List.map_append

theorem unsigned?_point {negative : Bool} {whole places : List Char} (hwhole : Whole whole)
    (hne : places ≠ []) (hplaces : ∀ c ∈ places, c.isDigit = true) :
    unsigned? negative (whole ++ '.' :: places)
      = finite? negative (Decimal.scaleTen (ofDigits (digitValues (whole ++ places)))
          (-places.length)) := by
  have hfront := @Whole.whole?_append _ ('.' :: places) hwhole fun c hc => by
    obtain rfl := Option.some.inj hc
    rfl
  have hback : places? ('.' :: places) = some (digitValues places, []) := by
    have hdigits := @digits?_append _ [] hne hplaces fun c hc => nomatch hc
    rw [List.append_nil] at hdigits
    exact hdigits
  have hexponent : exponent? [] = some (0, []) := rfl
  simp only [unsigned?, hfront, hback, hexponent, Option.bind_eq_bind, Option.bind_some,
    List.isEmpty_nil, List.isEmpty_cons, Bool.not_true, Bool.false_eq_true, if_false,
    digitValues_append]
  rw [zero_sub]
  simp [digitValues]

/-- Zeros in front do not count. -/
theorem ofDigits_padZeros (width : Nat) (cs : List Char) :
    ofDigits (digitValues (padZeros width cs)) = ofDigits (digitValues cs) := by
  unfold padZeros
  generalize width - cs.length = count
  induction count with
  | zero => rfl
  | succ count ih =>
    rw [List.replicate_succ, List.cons_append]
    exact ih

theorem length_padZeros (width : Nat) (cs : List Char) :
    (padZeros width cs).length = max width cs.length := by
  rw [padZeros, List.length_append, List.length_replicate]
  omega

theorem isDigit_padZeros {width : Nat} {cs : List Char} (h : ∀ c ∈ cs, c.isDigit = true) :
    ∀ c ∈ padZeros width cs, c.isDigit = true := by
  intro c hc
  rcases List.mem_append.mp hc with hc | hc
  · rw [List.eq_of_mem_replicate hc]
    rfl
  · exact h c hc

theorem padZeros_of_le {width : Nat} {cs : List Char} (h : width ≤ cs.length) :
    padZeros width cs = cs := by
  rw [padZeros, Nat.sub_eq_zero_of_le h]
  rfl

/-- Zeros behind count as powers of ten. -/
theorem ofDigits_append_zeros (cs : List Char) (count : Nat) :
    ofDigits (digitValues (cs ++ List.replicate count '0'))
      = ofDigits (digitValues cs) * 10 ^ count := by
  induction count with
  | zero => rw [List.replicate_zero, List.append_nil, Nat.pow_zero, Nat.mul_one]
  | succ count ih =>
    rw [List.replicate_succ', ← List.append_assoc, digitValues_append]
    show ofDigits (_ ++ [0]) = _
    rw [Decimal.ofDigits_append_singleton, ih, Nat.pow_succ]
    ring

/-- The first digit of a number that is not zero is none. -/
theorem natText_head_ne_zero {n : Nat} (h : 0 < n) {c : Char} {rest : List Char}
    (hc : natText n = c :: rest) : c.toNat - 48 ≠ 0 := by
  cases rest with
  | nil =>
    intro hzero
    have hvalue := ofDigits_natText n
    rw [hc] at hvalue
    have : ofDigits (digitValues [c]) = c.toNat - 48 := by simp [digitValues, ofDigits]
    omega
  | cons d rest => exact natText_ne_zero_cons hc

/-- Digits in front of a point and behind it that stand for a number. -/
structure Positional (d : Digits) (whole places : List Char) : Prop where
  isWhole : Whole whole
  ne_nil : places ≠ []
  isDigit : ∀ c ∈ places, c.isDigit = true
  value_eq : (ofDigits (digitValues (whole ++ places)) : ℚ) * 10 ^ (-(places.length : ℤ)) = d.value

/-- An integer has zeros behind its digits and behind the point. -/
theorem positional_of_nonneg {d : Digits} (h : 0 < d.coefficient ∨ d.exponent ≤ 0)
    (hexponent : 0 ≤ d.exponent) :
    Positional d (natText d.coefficient ++ List.replicate d.exponent.toNat '0') ['0'] := by
  refine ⟨⟨by simp [natText_ne_nil], ?_, ?_⟩, by simp, by simp, ?_⟩
  · intro c hc
    rcases List.mem_append.mp hc with hc | hc
    · exact isDigit_natText _ c hc
    · rw [List.eq_of_mem_replicate hc]
      rfl
  · intro c e rest heq
    obtain ⟨first, more, hmore⟩ := List.exists_cons_of_ne_nil (natText_ne_nil d.coefficient)
    rcases h with hpos | hle
    · rw [hmore, List.cons_append] at heq
      obtain ⟨rfl, -⟩ := List.cons.inj heq
      exact natText_head_ne_zero hpos hmore
    · rw [show d.exponent.toNat = 0 by omega, List.replicate_zero, List.append_nil] at heq
      exact natText_ne_zero_cons heq
  · have hpower : (10 : ℚ) ^ d.exponent = 10 ^ d.exponent.toNat := by
      rw [← zpow_natCast, Int.toNat_of_nonneg hexponent]
    rw [show ['0'] = List.replicate 1 '0' from rfl, ofDigits_append_zeros, ofDigits_append_zeros,
      ofDigits_natText, Digits.value, hpower]
    simp

/-- A fraction has as many digits behind the point as its exponent says. -/
theorem positional_of_neg {d : Digits} {count : ℕ} (hcount : -d.exponent = count)
    (hpos : 0 < count) {padded : List Char}
    (hpadded : padZeros (count + 1) (natText d.coefficient) = padded) :
    Positional d (padded.take (padded.length - count)) (padded.drop (padded.length - count)) := by
  have hlength : count + 1 ≤ padded.length := by
    rw [← hpadded, length_padZeros]
    omega
  have hdigits : ∀ c ∈ padded, c.isDigit = true :=
    hpadded ▸ isDigit_padZeros (isDigit_natText d.coefficient)
  have hplaces : (padded.drop (padded.length - count)).length = count := by
    rw [List.length_drop]
    omega
  refine ⟨⟨?_, fun c hc => hdigits c (List.mem_of_mem_take hc), ?_⟩, ?_,
    fun c hc => hdigits c (List.mem_of_mem_drop hc), ?_⟩
  · refine List.ne_nil_of_length_pos ?_
    rw [List.length_take]
    omega
  · -- with more than one digit in front of the point there is no padding
    intro c e rest heq
    have hmore := congrArg List.length heq
    rw [List.length_take, List.length_cons, List.length_cons] at hmore
    have hnatText : padded = natText d.coefficient := by
      rw [← hpadded, length_padZeros] at hmore
      rw [← hpadded]
      exact padZeros_of_le (by omega)
    have hsplit := List.take_append_drop (padded.length - count) padded
    rw [heq] at hsplit
    exact natText_ne_zero_cons (hnatText ▸ hsplit).symm
  · exact List.ne_nil_of_length_pos (by rwa [hplaces])
  · rw [List.take_append_drop, hplaces, ← hpadded, ofDigits_padZeros, ofDigits_natText, ← hcount,
      neg_neg]
    rfl

/-- **Digits in positional notation stand for the number.** -/
theorem exists_positional (d : Digits) (h : 0 < d.coefficient ∨ d.exponent ≤ 0) :
    ∃ whole places : List Char, positional d = whole ++ '.' :: places ∧
      Positional d whole places := by
  unfold positional
  simp only
  split_ifs with hexponent
  · exact ⟨_, ['0'], by rw [List.append_assoc], positional_of_nonneg h hexponent⟩
  · obtain ⟨count, hcount⟩ := Int.eq_ofNat_of_zero_le (show 0 ≤ -d.exponent by omega)
    rw [hcount, Int.toNat_natCast]
    exact ⟨_, _, rfl, positional_of_neg hcount (by omega) rfl⟩

/-! ### Exponents -/

theorem exponent?_exponentText (k : Int) : exponent? (exponentText false 1 k) = some (k, []) := by
  have hpad : padZeros 1 (natText k.natAbs) = natText k.natAbs :=
    padZeros_of_le (List.length_pos_iff.mpr (natText_ne_nil _))
  have hdigits := @digits?_append _ [] (natText_ne_nil k.natAbs) (isDigit_natText k.natAbs)
    fun c hc => nomatch hc
  rw [List.append_nil] at hdigits
  unfold exponentText
  rw [hpad]
  by_cases hneg : k < 0
  · rw [if_pos hneg]
    show (digits? (natText k.natAbs)).map _ = _
    simp only [hdigits, Option.map_some, ofDigits_natText, if_true]
    congr 2
    omega
  · rw [if_neg hneg]
    have hsign : Decimal.takeSign (natText k.natAbs) = (false, natText k.natAbs) := by
      obtain ⟨c, rest, hc⟩ := List.exists_cons_of_ne_nil (natText_ne_nil k.natAbs)
      have hdigit := isDigit_natText k.natAbs c (hc ▸ List.mem_cons_self)
      rw [hc]
      unfold Decimal.takeSign
      split
      · rename_i heq
        obtain ⟨rfl, -⟩ := List.cons.inj heq
        cases hdigit
      · rename_i heq
        obtain ⟨rfl, -⟩ := List.cons.inj heq
        cases hdigit
      · rfl
    show exponent? ('e' :: natText k.natAbs) = _
    simp only [exponent?, hsign, hdigits, Option.map_some, ofDigits_natText, Bool.false_eq_true,
      if_false]
    rw [if_pos (by decide)]
    congr 2
    omega

/-- **Digits with an exponent are read as the number they stand for.** -/
theorem unsigned?_scientific (negative : Bool) (n : Nat) (k : Int) :
    unsigned? negative (pointAfterFirst (natText n) ++ exponentText false 1 k)
      = finite? negative (Decimal.scaleTen n (k - ((natText n).length - 1 : Nat))) := by
  have hexponent := exponent?_exponentText k
  obtain ⟨c, rest, hc⟩ := List.exists_cons_of_ne_nil (natText_ne_nil n)
  have hdigits := isDigit_natText n
  have hvalue := ofDigits_natText n
  rw [hc] at hdigits hvalue ⊢
  obtain ⟨mark, htext⟩ : ∃ mark, exponentText false 1 k = 'e' :: mark := ⟨_, rfl⟩
  rw [htext] at hexponent ⊢
  have hwhole : Whole [c] := ⟨List.cons_ne_nil _ _, fun d hd => hdigits d (by simp_all), by simp⟩
  cases rest with
  | nil =>
    have hfront := @Whole.whole?_append _ ('e' :: mark) hwhole fun d hd => by
      obtain rfl := Option.some.inj hd
      rfl
    have hplaces : places? ('e' :: mark) = some ([], 'e' :: mark) := rfl
    simp only [pointAfterFirst, unsigned?, hfront, hplaces, hexponent, Option.bind_eq_bind,
      Option.bind_some, List.isEmpty_nil, List.isEmpty_cons, Bool.not_true, Bool.false_eq_true,
      if_false, List.append_nil, hvalue]
    rfl
  | cons d rest =>
    have hfront := @Whole.whole?_append _ ('.' :: (d :: rest ++ 'e' :: mark)) hwhole fun e he => by
      obtain rfl := Option.some.inj he
      rfl
    have hplaces : places? ('.' :: (d :: rest ++ 'e' :: mark))
        = some (digitValues (d :: rest), 'e' :: mark) :=
      digits?_append (List.cons_ne_nil _ _) (fun e he => hdigits e (List.mem_cons_of_mem c he))
        fun e he => by
          obtain rfl := Option.some.inj he
          rfl
    show unsigned? negative ([c] ++ '.' :: (d :: rest ++ 'e' :: mark)) = _
    simp only [unsigned?, hfront, hplaces, hexponent, Option.bind_eq_bind, Option.bind_some,
      List.isEmpty_nil, List.isEmpty_cons, Bool.not_true, Bool.false_eq_true, if_false,
      ← digitValues_append]
    rw [List.singleton_append, hvalue]
    simp [digitValues]

/-! ### Reading the text of a number -/

/-- **The digits of a number are read as a number of the same value.** -/
theorem unsigned?_digitsText (d : Digits) (h : 0 < d.coefficient ∨ d.exponent ≤ 0) (negative : Bool) :
    ∃ coefficient exponent, unsigned? negative (layout.digitsText d)
        = finite? negative (Decimal.scaleTen coefficient exponent) ∧
      (coefficient : ℚ) * 10 ^ exponent = d.value := by
  unfold Decimal.Layout.digitsText
  simp only
  split_ifs
  · obtain ⟨whole, places, htext, hpositional⟩ := exists_positional d h
    rw [htext, unsigned?_point hpositional.isWhole hpositional.ne_nil hpositional.isDigit]
    exact ⟨_, _, rfl, hpositional.value_eq⟩
  · rw [show layout.plusSign = false from rfl, show layout.exponentWidth = 1 from rfl,
      unsigned?_scientific]
    refine ⟨_, _, rfl, ?_⟩
    have hlength := List.length_pos_iff.mpr (natText_ne_nil d.coefficient)
    rw [Digits.value]
    congr 2
    omega

/-- A text of digits and of what may stand behind the first of them. -/
structure NumberText (cs : List Char) : Prop where
  starts : ∃ c rest, cs = c :: rest ∧ c.isDigit = true
  wordChar : ∀ c ∈ cs, WordChar c

theorem numberText_append {cs rest : List Char} (hne : cs ≠ []) (hcs : ∀ c ∈ cs, c.isDigit = true)
    (hrest : ∀ c ∈ rest, WordChar c) : NumberText (cs ++ rest) := by
  obtain ⟨c, more, rfl⟩ := List.exists_cons_of_ne_nil hne
  refine ⟨⟨c, more ++ rest, rfl, hcs c List.mem_cons_self⟩, fun d hd => ?_⟩
  rcases List.mem_append.mp hd with hd | hd
  · exact wordChar_of_isDigit (hcs d hd)
  · exact hrest d hd

theorem wordChar_exponentText (k : Int) : ∀ c ∈ exponentText false 1 k, WordChar c := by
  intro c hc
  rcases List.mem_cons.mp hc with rfl | hc
  · decide
  · rcases List.mem_append.mp hc with hc | hc
    · simp only [Bool.false_eq_true, if_false] at hc
      split_ifs at hc
      · rw [List.mem_singleton.mp hc]
        decide
      · cases hc
    · exact wordChar_of_isDigit (isDigit_padZeros (isDigit_natText _) c hc)

theorem numberText_digitsText (d : Digits) (h : 0 < d.coefficient ∨ d.exponent ≤ 0) :
    NumberText (layout.digitsText d) := by
  unfold Decimal.Layout.digitsText
  simp only
  split_ifs
  · obtain ⟨whole, places, htext, hpositional⟩ := exists_positional d h
    rw [htext]
    refine numberText_append hpositional.isWhole.ne_nil hpositional.isWhole.isDigit
      (List.forall_mem_cons.mpr ⟨by decide, fun c hc => ?_⟩)
    exact wordChar_of_isDigit (hpositional.isDigit c hc)
  · have hdigits := isDigit_natText d.coefficient
    obtain ⟨c, rest, hc⟩ := List.exists_cons_of_ne_nil (natText_ne_nil d.coefficient)
    obtain ⟨tail, htail, hchars⟩ : ∃ tail, pointAfterFirst (natText d.coefficient) = [c] ++ tail ∧
        ∀ e ∈ tail, WordChar e := by
      rw [hc] at hdigits ⊢
      cases rest with
      | nil => exact ⟨[], rfl, List.forall_mem_nil _⟩
      | cons e rest =>
        refine ⟨'.' :: e :: rest, rfl, List.forall_mem_cons.mpr ⟨by decide, fun e' he' => ?_⟩⟩
        exact wordChar_of_isDigit (hdigits e' (List.mem_cons_of_mem c he'))
    rw [htail, List.append_assoc]
    refine numberText_append (List.cons_ne_nil _ _) (fun e he => ?_) fun e he => ?_
    · rw [List.mem_singleton.mp he]
      exact hdigits c (hc ▸ List.mem_cons_self)
    · rcases List.mem_append.mp he with he | he
      · exact hchars e he
      · exact wordChar_exponentText _ e he

open Decimal (decode? shortest compose)

/-- The digits of a double are read as the double without its sign. -/
theorem unsigned?_shortest {b : Decimal.Binary} (h : b.Proper) (negative : Bool) :
    unsigned? negative (layout.digitsText (shortest b))
      = some (.float (if negative then -compose b.significand b.exponent
          else compose b.significand b.exponent)) := by
  have hfinite : finite? negative (compose b.significand b.exponent)
      = some (.float (if negative then -compose b.significand b.exponent
          else compose b.significand b.exponent)) := by
    rw [finite?, if_neg (by rw [h.isInf_compose]; exact Bool.false_ne_true)]
  rw [← hfinite]
  rcases Nat.eq_zero_or_pos b.significand with hzero | hpos
  · -- zero has its own text
    have hexponent : b.exponent = -1074 := h.normal.resolve_left (by omega)
    rw [Decimal.shortest_of_zero hzero, hzero, hexponent]
    rfl
  · obtain ⟨coefficient, exponent, hread, hvalue⟩ := unsigned?_digitsText (shortest b)
      (Or.inl (Decimal.coefficient_shortest_pos h hpos)) negative
    have hrounds := Decimal.rounds_shortest h hpos
    rw [hread, Decimal.scaleTen_eq_of_rounds h hpos (hvalue ▸ hrounds)]

theorem numberText_shortest {b : Decimal.Binary} (h : b.Proper) :
    NumberText (layout.digitsText (shortest b)) := by
  refine numberText_digitsText _ ?_
  rcases Nat.eq_zero_or_pos b.significand with hzero | hpos
  · exact Or.inr (Decimal.shortest_of_zero hzero ▸ Int.le_refl 0)
  · exact Or.inl (Decimal.coefficient_shortest_pos h hpos)

/-- A number that is neither infinite nor no number has parts, and its text is that of their digits
behind the sign. -/
theorem exists_text_eq {x : Float} (h : (x.isNaN || x.isInf) = false) :
    ∃ b : Decimal.Binary, b.Proper ∧
      (x = if b.negative then -compose b.significand b.exponent
        else compose b.significand b.exponent) ∧
      (layout.text x).toList = if b.negative then '-' :: layout.digitsText (shortest b)
        else layout.digitsText (shortest b) := by
  cases hdecode : decode? x with
  | some b =>
    obtain ⟨hproper, hx⟩ := Decimal.eq_of_decode? hdecode
    refine ⟨b, hproper, hx, ?_⟩
    unfold Decimal.Layout.text
    rw [hdecode]
    exact String.toList_ofList
  | none =>
    rw [Bool.or_eq_false_iff] at h
    rcases Decimal.isNaN_or_isInf_of_decode? hdecode with hnan | hinf
    · exact Bool.noConfusion (hnan.symm.trans h.1)
    · exact Bool.noConfusion (hinf.symm.trans h.2)

/-- **Every number that is neither infinite nor no number is read back from its text.** -/
theorem scalar?_text {x : Float} (h : (x.isNaN || x.isInf) = false) :
    scalar? (layout.text x).toList = some (.float x) := by
  obtain ⟨b, hproper, hx, htext⟩ := exists_text_eq h
  obtain ⟨⟨c, rest, hc, hdigit⟩, -⟩ := numberText_shortest hproper
  have hread := unsigned?_shortest hproper b.negative
  rw [← hx] at hread
  rw [htext]
  cases hnegative : b.negative with
  | true =>
    rw [hnegative] at hread
    rw [if_pos rfl, scalar?_eq_number? (Or.inr rfl), number?_minus, hread]
  | false =>
    rw [hnegative] at hread
    rw [if_neg Bool.false_ne_true, hc, scalar?_eq_number? (Or.inl hdigit), number?_of_isDigit hdigit,
      ← hc, hread]

theorem wordChar_text {x : Float} (h : (x.isNaN || x.isInf) = false) :
    ∀ c ∈ (layout.text x).toList, WordChar c := by
  obtain ⟨b, hproper, -, htext⟩ := exists_text_eq h
  have hdigits := (numberText_shortest hproper).wordChar
  rw [htext]
  split_ifs
  · exact List.forall_mem_cons.mpr ⟨by decide, hdigits⟩
  · exact hdigits

end FuzzySearch.Json
