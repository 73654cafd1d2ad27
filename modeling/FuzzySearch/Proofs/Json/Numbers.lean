import FuzzySearch.Json.Writing
import FuzzySearch.Proofs.Decimal.RoundTrip
import Mathlib.Tactic.SplitIfs

/-!
# Integers in JSON

The digits of a natural number begin with a zero only if the number is zero
(`natText_ne_zero_cons`), so they are those of a whole number of JSON (`whole_natText`), and an integer
of a machine word is read back from its text (`scalar?_intText`).
-/

namespace FuzzySearch.Json

open Decimal (natText ofDigits intText)

/-! ### Digits -/

theorem isDigit_eq (c : Char) : isDigit c = c.isDigit := by
  rw [Bool.eq_iff_iff, Decimal.isDigit_iff]
  simp [isDigit, Char.le_def, UInt32.le_iff_toNat_le]

/-- The values of digit characters. -/
def digitValues (cs : List Char) : List Nat := cs.map (·.toNat - 48)

/-- Digits are read up to the first character that is none. -/
theorem digits?_append {cs rest : List Char} (hne : cs ≠ []) (hcs : ∀ c ∈ cs, c.isDigit = true)
    (hrest : ∀ c ∈ rest.head?, c.isDigit = false) :
    digits? (cs ++ rest) = some (digitValues cs, rest) := by
  have hdigits : ∀ c ∈ cs, isDigit c = true := fun c hc => (isDigit_eq c).trans (hcs c hc)
  have hstop : rest.takeWhile isDigit = [] ∧ rest.dropWhile isDigit = rest := by
    cases rest with
    | nil => exact ⟨rfl, rfl⟩
    | cons c rest =>
      have hc : ¬ isDigit c = true := by
        rw [isDigit_eq, hrest c rfl]
        exact Bool.false_ne_true
      exact ⟨List.takeWhile_cons_of_neg hc, List.dropWhile_cons_of_neg hc⟩
  obtain ⟨c, more, rfl⟩ := List.exists_cons_of_ne_nil hne
  unfold digits?
  rw [List.takeWhile_append_of_pos hdigits, List.dropWhile_append_of_pos hdigits, hstop.1, hstop.2,
    List.append_nil]
  rfl

theorem ofDigits_natText (n : Nat) : ofDigits (digitValues (natText n)) = n := by
  rw [digitValues, Decimal.ofDigits_map, natText, Nat.ofDigitChars_toDigits (by decide) (by decide)]

theorem natText_ne_nil (n : Nat) : natText n ≠ [] := Nat.toDigits_ne_nil

theorem isDigit_natText (n : Nat) : ∀ c ∈ natText n, c.isDigit = true := fun _ =>
  Decimal.isDigit_of_mem_natText

/-- **No leading zero**: what has more than one digit does not begin with a zero. -/
theorem natText_ne_zero_cons {n : Nat} {c d : Char} {rest : List Char}
    (h : natText n = c :: d :: rest) : c.toNat - 48 ≠ 0 := by
  intro hzero
  have hvalue := ofDigits_natText n
  rw [h, digitValues, List.map_cons, hzero] at hvalue
  -- without the zero, the same number has fewer digits than are needed
  have hlt : n < 10 ^ (d :: rest).length := by
    have hdigits : ∀ v ∈ digitValues (d :: rest), v < 10 := by
      intro v hv
      obtain ⟨c', hc', rfl⟩ := List.mem_map.mp hv
      have := (Decimal.isDigit_iff c').mp
        (isDigit_natText n c' (h ▸ List.mem_cons_of_mem c hc'))
      omega
    have hbound := Decimal.ofDigits_lt hdigits
    rw [digitValues, List.length_map] at hbound
    exact lt_of_eq_of_lt hvalue.symm hbound
  have hlength : (natText n).length ≤ (d :: rest).length :=
    (Nat.length_toDigits_le_iff (by decide) (Nat.succ_pos _)).mpr hlt
  rw [h, List.length_cons] at hlength
  exact Nat.not_succ_le_self _ hlength

/-- The digits of a whole number of JSON: a zero in front of them stands alone. -/
structure Whole (cs : List Char) : Prop where
  ne_nil : cs ≠ []
  isDigit : ∀ c ∈ cs, c.isDigit = true
  no_zero : ∀ c d rest, cs = c :: d :: rest → c.toNat - 48 ≠ 0

theorem whole_natText (n : Nat) : Whole (natText n) :=
  ⟨natText_ne_nil n, isDigit_natText n, fun _ _ _ => natText_ne_zero_cons⟩

/-- **A whole number is read up to the first character that is no digit.** -/
theorem Whole.whole?_append {cs rest : List Char} (h : Whole cs)
    (hrest : ∀ c ∈ rest.head?, c.isDigit = false) :
    whole? (cs ++ rest) = some (digitValues cs, rest) := by
  have hdigits := digits?_append h.ne_nil h.isDigit hrest
  unfold whole?
  rw [hdigits]
  obtain ⟨c, more, rfl⟩ := List.exists_cons_of_ne_nil h.ne_nil
  split
  · rename_i heq
    obtain ⟨hfirst, hmore⟩ := List.cons.inj (Prod.mk.inj (Option.some.inj heq)).1
    obtain ⟨d, ds, rfl⟩ : ∃ d ds, more = d :: ds := by
      cases more with
      | nil => cases hmore
      | cons d ds => exact ⟨d, ds, rfl⟩
    exact absurd hfirst (h.no_zero c d ds rfl)
  · rfl

/-! ### Words -/

/-- A character of a word or number. -/
structure WordChar (c : Char) : Prop where
  not_space : isSpace c = false
  ne_quote : c ≠ '"'
  not_mark : mark? c = none

instance (c : Char) : Decidable (WordChar c) :=
  decidable_of_iff (isSpace c = false ∧ c ≠ '"' ∧ (mark? c).isNone = true)
    ⟨fun ⟨hspace, hquote, hmark⟩ => ⟨hspace, hquote, Option.isNone_iff_eq_none.mp hmark⟩,
      fun ⟨hspace, hquote, hmark⟩ => ⟨hspace, hquote, Option.isNone_iff_eq_none.mpr hmark⟩⟩

theorem wordChar_of_isDigit {c : Char} (h : c.isDigit = true) : WordChar c := by
  have hrange := (Decimal.isDigit_iff c).mp h
  have hne : ∀ d : Char, ¬(48 ≤ d.toNat ∧ d.toNat ≤ 57) → c ≠ d := by
    rintro d hd rfl
    exact hd hrange
  refine ⟨?_, hne _ (by decide), ?_⟩
  · simp [isSpace, hne ' ' (by decide), hne '\t' (by decide), hne '\n' (by decide),
      hne '\r' (by decide)]
  · simp [mark?, hne '[' (by decide), hne ']' (by decide), hne '\x7b' (by decide),
      hne '\x7d' (by decide), hne ',' (by decide), hne ':' (by decide)]

/-- What begins with a digit, or with a minus sign and a digit, is none of the three words. -/
theorem scalar?_eq_number? {c : Char} (h : c.isDigit = true ∨ c = '-') (cs : List Char) :
    scalar? (c :: cs) = number? (c :: cs) := by
  have hne : ∀ d : Char, d.isDigit = false ∧ d ≠ '-' → ∀ ds, c :: cs ≠ d :: ds := by
    rintro d ⟨hdigit, hminus⟩ ds heq
    obtain ⟨rfl, -⟩ := List.cons.inj heq
    rcases h with h | rfl
    · rw [hdigit] at h
      cases h
    · exact hminus rfl
  have hnull : c :: cs ≠ "null".toList := hne 'n' (by decide) _
  have htrue : c :: cs ≠ "true".toList := hne 't' (by decide) _
  have hfalse : c :: cs ≠ "false".toList := hne 'f' (by decide) _
  rw [scalar?, if_neg hnull, if_neg htrue, if_neg hfalse]

/-! ### Integers -/

theorem intText_toList (n : Int) : (intText n).toList
    = if n < 0 then '-' :: natText n.natAbs else natText n.natAbs := by
  rw [intText, String.toList_ofList]

/-- The number that is written behind its sign. -/
def unsigned? (negative : Bool) (cs : List Char) : Option Value := do
  let (whole, rest) ← whole? cs
  let (places, tail) ← places? rest
  let (exponent, final) ← exponent? tail
  if !final.isEmpty then none
  else if rest.isEmpty then
    let size : Int := ofDigits whole
    let n := if negative then -size else size
    if isMachineInteger n then some (.int n) else finite? negative (Decimal.nearestInt size)
  else
    finite? negative (Decimal.scaleTen (ofDigits (whole ++ places)) (exponent - places.length))

theorem number?_minus (cs : List Char) : number? ('-' :: cs) = unsigned? true cs := rfl

theorem number?_of_isDigit {c : Char} (h : c.isDigit = true) (cs : List Char) :
    number? (c :: cs) = unsigned? false (c :: cs) := by
  have hminus : c ≠ '-' := by
    rintro rfl
    cases h
  unfold number? unsigned?
  split
  rename_i negative rest hsign
  split at hsign
  · rename_i heq
    exact absurd (List.cons.inj heq).1 hminus
  · obtain ⟨rfl, rfl⟩ := Prod.mk.inj hsign
    rfl

theorem unsigned?_natText {negative : Bool} {n : Nat} {m : Int}
    (hm : (if negative = true then -(n : Int) else n) = m) (h : isMachineInteger m = true) :
    unsigned? negative (natText n) = some (.int m) := by
  have hwhole := @Whole.whole?_append _ [] (whole_natText n) fun c hc => nomatch hc
  rw [List.append_nil] at hwhole
  have hplaces : places? [] = some ([], []) := rfl
  have hexponent : exponent? [] = some (0, []) := rfl
  simp only [unsigned?, hwhole, hplaces, hexponent, ofDigits_natText, Option.bind_eq_bind,
    Option.bind_some, List.isEmpty_nil, Bool.not_true, Bool.false_eq_true, if_false, if_true, hm, h]

/-- **An integer of a machine word is read back.** -/
theorem scalar?_intText {n : Int} (h : isMachineInteger n = true) :
    scalar? (intText n).toList = some (.int n) := by
  rw [intText_toList]
  split_ifs with hneg
  · rw [scalar?_eq_number? (Or.inr rfl), number?_minus]
    refine unsigned?_natText ?_ h
    rw [if_pos rfl]
    omega
  · obtain ⟨c, cs, hcs⟩ := List.exists_cons_of_ne_nil (natText_ne_nil n.natAbs)
    have hdigit := isDigit_natText n.natAbs c (hcs ▸ List.mem_cons_self)
    rw [hcs, scalar?_eq_number? (Or.inl hdigit), number?_of_isDigit hdigit, ← hcs]
    refine unsigned?_natText ?_ h
    rw [if_neg Bool.false_ne_true]
    omega

theorem wordChar_intText (n : Int) : ∀ c ∈ (intText n).toList, WordChar c := by
  intro c hc
  rw [intText_toList] at hc
  split_ifs at hc
  · rcases List.mem_cons.mp hc with rfl | hc
    · decide
    · exact wordChar_of_isDigit (isDigit_natText _ c hc)
  · exact wordChar_of_isDigit (isDigit_natText _ c hc)

end FuzzySearch.Json
