import FuzzySearch.Decimal.Layout
import FuzzySearch.Decimal.Reading
import Mathlib.Data.List.Induction
import Mathlib.Data.Nat.Digits.Defs

/-!
# Integers written and read back

An integer is written in decimal digits after an optional sign, and read from at most
`longestInteger` digits.  So an integer that is not too long is read back from its text
(`readInt?_intText`), and whatever is read is not too long (`natAbs_lt_of_readInt?`).
-/

namespace FuzzySearch.Decimal

/-! ### Digits -/

theorem isDigit_iff (c : Char) : c.isDigit = true ↔ 48 ≤ c.toNat ∧ c.toNat ≤ 57 := by
  simp [Char.isDigit, UInt32.le_iff_toNat_le]

theorem digitValue?_of_isDigit {c : Char} (h : c.isDigit = true) :
    digitValue? c = some (c.toNat - 48) := by
  obtain ⟨hle, hlt⟩ := (isDigit_iff c).mp h
  have hfirst : digitZeros.find? (fun first => first ≤ c.toNat && c.toNat < first + 10)
      = some 48 := by
    refine List.find?_cons_of_pos ?_
    simp only [Bool.and_eq_true, decide_eq_true_eq]
    omega
  rw [digitValue?, hfirst, Option.map_some]

theorem lt_of_digitValue? {c : Char} {d : Nat} (h : digitValue? c = some d) : d < 10 := by
  obtain ⟨first, hfirst, rfl⟩ := Option.map_eq_some_iff.mp h
  have hrange := List.find?_some hfirst
  simp only [Bool.and_eq_true, decide_eq_true_eq] at hrange
  omega

theorem takeDigits_of_isDigit {cs : List Char} (h : ∀ c ∈ cs, c.isDigit = true) :
    takeDigits cs = (cs.map fun c => c.toNat - 48, []) := by
  induction cs with
  | nil => rfl
  | cons c cs ih =>
    have hdigit := digitValue?_of_isDigit (h c List.mem_cons_self)
    have hrest := ih fun d hd => h d (List.mem_cons_of_mem c hd)
    unfold takeDigits
    simp only [hdigit, hrest, List.map_cons]

theorem lt_of_mem_takeDigits {cs : List Char} {d : Nat} (h : d ∈ (takeDigits cs).1) : d < 10 := by
  fun_induction takeDigits cs with
  | case1 => exact absurd h List.not_mem_nil
  | case2 c rest d' hd digits rest' heq ih =>
    rw [heq] at ih
    rcases List.mem_cons.mp h with rfl | h
    · exact lt_of_digitValue? hd
    · exact ih h
  | case3 rest next d' hd digits rest' heq _ ih =>
    rw [heq] at ih
    rcases List.mem_cons.mp h with rfl | h
    · exact lt_of_digitValue? hd
    · exact ih h
  | case4 => exact absurd h List.not_mem_nil
  | case5 => exact absurd h List.not_mem_nil

theorem ofDigits_map (cs : List Char) :
    ofDigits (cs.map fun c => c.toNat - 48) = Nat.ofDigitChars 10 cs 0 := by
  rw [ofDigits, List.foldl_map, Nat.ofDigitChars_eq_foldl]
  rfl

theorem ofDigits_append_singleton (digits : List Nat) (d : Nat) :
    ofDigits (digits ++ [d]) = 10 * ofDigits digits + d := by
  rw [ofDigits, List.foldl_append]
  rfl

/-- So many digits spell a number below the power of ten. -/
theorem ofDigits_lt {digits : List Nat} (h : ∀ d ∈ digits, d < 10) :
    ofDigits digits < 10 ^ digits.length := by
  induction digits using List.reverseRecOn with
  | nil => exact Nat.one_pos
  | append_singleton digits d ih =>
    have hd : d < 10 := h d (List.mem_append_right digits (List.mem_singleton_self d))
    have hdigits := ih fun e he => h e (List.mem_append_left [d] he)
    rw [ofDigits_append_singleton, List.length_append, List.length_singleton, Nat.pow_succ]
    omega

/-! ### Texts of integers -/

theorem isDigit_of_mem_natText {n : Nat} {c : Char} (h : c ∈ natText n) : c.isDigit = true :=
  Nat.isDigit_of_mem_toDigits (by decide) (by decide) h

theorem exists_natText_eq_cons (n : Nat) : ∃ c cs, natText n = c :: cs :=
  List.exists_cons_of_ne_nil Nat.toDigits_ne_nil

theorem not_isWhiteSpace_of_isDigit {c : Char} (h : c.isDigit = true ∨ c = '-') :
    Text.isWhiteSpace c = false := by
  have hrange : 45 ≤ c.toNat ∧ c.toNat ≤ 57 := by
    rcases h with h | rfl
    · have := (isDigit_iff c).mp h
      omega
    · decide
  have hblank : Text.isBlankChar c = false := by
    simp only [Text.isBlankChar, Text.inRanges, Text.blankRanges, List.any_cons, List.any_nil,
      Bool.or_false, Bool.or_eq_false_iff, Bool.and_eq_false_iff, decide_eq_false_iff_not]
    omega
  rw [Text.isWhiteSpace, hblank, Bool.false_and]

theorem dropWhile_isWhiteSpace {cs : List Char} (h : ∀ c ∈ cs, Text.isWhiteSpace c = false) :
    cs.dropWhile Text.isWhiteSpace = cs := by
  cases cs with
  | nil => rfl
  | cons c cs => exact List.dropWhile_cons_of_neg (by simp [h c List.mem_cons_self])

theorem trim_of_not_isWhiteSpace {cs : List Char}
    (h : ∀ c ∈ cs, Text.isWhiteSpace c = false) : Text.trim cs = cs := by
  rw [Text.trim, dropWhile_isWhiteSpace h,
    dropWhile_isWhiteSpace fun c hc => h c (List.mem_reverse.mp hc), List.reverse_reverse]

theorem leadingDigits_natText (n : Nat) :
    leadingDigits (natText n) = ((natText n).map fun c => c.toNat - 48, []) := by
  obtain ⟨c, cs, hcs⟩ := exists_natText_eq_cons n
  have hc : c.isDigit = true := isDigit_of_mem_natText (hcs ▸ List.mem_cons_self)
  rw [← takeDigits_of_isDigit fun d hd => isDigit_of_mem_natText hd, hcs]
  unfold leadingDigits
  split
  · rename_i heq
    obtain ⟨rfl, -⟩ := List.cons.inj heq
    exact absurd hc (by decide)
  · rfl

/-- What is read when the digits of a number stand behind the sign. -/
theorem readInt?_of_takeSign {cs : List Char} {negative : Bool} {n : Nat}
    (hsign : takeSign (Text.trim cs) = (negative, natText n)) (h : n < 10 ^ longestInteger) :
    readInt? cs = some (if negative then -(n : Int) else n) := by
  have hlength : ¬ longestInteger < ((natText n).map fun c => c.toNat - 48).length := by
    rw [List.length_map, Nat.not_lt]
    exact (Nat.length_toDigits_le_iff (by decide) (by decide)).mpr h
  have hvalue : ofDigits ((natText n).map fun c => c.toNat - 48) = n := by
    rw [ofDigits_map]
    exact Nat.ofDigitChars_toDigits (by decide) (by decide)
  have hdigits := leadingDigits_natText n
  obtain ⟨d, digits, hcons⟩ : ∃ d digits, (natText n).map (fun c => c.toNat - 48) = d :: digits := by
    obtain ⟨c, rest, hcs⟩ := exists_natText_eq_cons n
    exact ⟨_, _, by rw [hcs, List.map_cons]⟩
  rw [hcons] at hlength hvalue hdigits
  unfold readInt?
  simp only [hsign, hdigits, if_neg hlength, hvalue]

/-- **An integer that is not too long is read back from its text.** -/
theorem readInt?_intText {n : Int} (h : n.natAbs < 10 ^ longestInteger) :
    readInt? (intText n).toList = some n := by
  have htrim : Text.trim (intText n).toList = (intText n).toList := by
    refine trim_of_not_isWhiteSpace fun c hc => not_isWhiteSpace_of_isDigit ?_
    rw [intText, String.toList_ofList] at hc
    split_ifs at hc
    · rcases List.mem_cons.mp hc with rfl | hc
      · exact Or.inr rfl
      · exact Or.inl (isDigit_of_mem_natText hc)
    · exact Or.inl (isDigit_of_mem_natText hc)
  by_cases hneg : n < 0
  · have hsign : takeSign (Text.trim (intText n).toList) = (true, natText n.natAbs) := by
      rw [htrim, intText, String.toList_ofList, if_pos hneg]
      rfl
    rw [readInt?_of_takeSign hsign h, if_pos rfl]
    congr 1
    omega
  · have hsign : takeSign (Text.trim (intText n).toList) = (false, natText n.natAbs) := by
      rw [htrim, intText, String.toList_ofList, if_neg hneg]
      obtain ⟨c, cs, hcs⟩ := exists_natText_eq_cons n.natAbs
      have hc : c.isDigit = true := isDigit_of_mem_natText (hcs ▸ List.mem_cons_self)
      rw [hcs]
      unfold takeSign
      -- a digit is no sign
      split
      · rename_i heq
        obtain ⟨rfl, -⟩ := List.cons.inj heq
        exact absurd hc (by decide)
      · rename_i heq
        obtain ⟨rfl, -⟩ := List.cons.inj heq
        exact absurd hc (by decide)
      · rfl
    rw [readInt?_of_takeSign hsign h, if_neg Bool.false_ne_true]
    congr 1
    omega

/-- **What is read is not too long.** -/
theorem natAbs_lt_of_readInt? {cs : List Char} {n : Int} (h : readInt? cs = some n) :
    n.natAbs < 10 ^ longestInteger := by
  unfold readInt? at h
  simp only at h
  split at h
  · cases h
  · rename_i digits hne hdigits
    by_cases hlength : longestInteger < digits.length
    · rw [if_pos hlength] at h
      cases h
    rw [if_neg hlength] at h
    have hmem : ∀ d ∈ digits, d < 10 := by
      intro d hd
      have hd' : d ∈ (leadingDigits (takeSign (Text.trim cs)).2).1 := by rwa [hdigits]
      unfold leadingDigits at hd'
      split at hd'
      · exact absurd hd' List.not_mem_nil
      · exact lt_of_mem_takeDigits hd'
    have hlt : ofDigits digits < 10 ^ longestInteger :=
      (ofDigits_lt hmem).trans_le (Nat.pow_le_pow_right (by decide) (Nat.not_lt.mp hlength))
    have habs : n.natAbs = ofDigits digits := by
      rw [← Option.some.inj h]
      split_ifs <;> omega
    rwa [habs]
  · cases h

end FuzzySearch.Decimal
