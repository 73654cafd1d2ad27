import FuzzySearch.Json.Writing
import Mathlib.Data.Bool.AllAny
import Mathlib.Tactic.SplitIfs

/-!
# Texts in JSON

A character inside a text is written as itself, as a backslash and a letter, or as a backslash and
four digits (`Escape`), and is read back as one code unit (`units?_textChar`).  No character is half
of a surrogate pair, so the units give the characters again (`text?_written`).  The quote at the end
of a text is the first one that no backslash stands before, so the scan of a written text makes one
token (`scan_quoted`).
-/

namespace FuzzySearch.Json

/-! ### Characters inside a text -/

/-- The ways to write a character inside a text. -/
inductive Escape (c : Char) : List Char → Prop where
  | plain (hquote : c ≠ '"') (hbackslash : c ≠ '\\') (hcontrol : 32 ≤ c.toNat) : Escape c [c]
  | short {letter : Char} (hletter : letter ≠ 'u')
      (hfind : shortEscapes.find? (·.1 == letter) = some (letter, c)) : Escape c ['\\', letter]
  | digits {a b d e : Char} (hvalue : hexValue? [a, b, d, e] = some c.toNat)
      (hplain : ∀ digit ∈ [a, b, d, e], digit ≠ '"' ∧ digit ≠ '\\') :
      Escape c ['\\', 'u', a, b, d, e]

theorem find?_shortEscapes : ∀ escape ∈ shortEscapes, escape.1 ≠ 'u' ∧
    shortEscapes.find? (·.1 == escape.1) = some escape := by
  decide

theorem hexValue?_hex : ∀ n ∈ List.range 32, hexValue? (Text.hex 4 n) = some n ∧
    (Text.hex 4 n).all fun digit => digit ≠ '"' ∧ digit ≠ '\\' := by
  decide

theorem escape_textChar (c : Char) : Escape c (textChar c) := by
  unfold textChar
  by_cases hmark : c = '"' ∨ c = '\\'
  · have hescape : (c, c) ∈ shortEscapes := by
      rcases hmark with rfl | rfl <;> decide
    obtain ⟨hletter, hfind⟩ := find?_shortEscapes _ hescape
    rw [if_pos (by simpa using hmark)]
    exact .short hletter hfind
  · rw [if_neg (by simpa using hmark)]
    rw [not_or] at hmark
    by_cases hcontrol : c.toNat < 32
    · rw [if_pos hcontrol]
      split
      · rename_i letter escaped hescape
        have hsame := List.find?_some hescape
        obtain rfl : escaped = c := beq_iff_eq.mp hsame
        obtain ⟨hletter, hfind⟩ := find?_shortEscapes _ (List.mem_of_find?_eq_some hescape)
        exact .short hletter hfind
      · obtain ⟨hvalue, hplain⟩ := hexValue?_hex c.toNat (List.mem_range.mpr hcontrol)
        exact .digits hvalue (List.all_iff_forall_prop.mp hplain)
    · rw [if_neg hcontrol]
      exact .plain hmark.1 hmark.2 (Nat.not_lt.mp hcontrol)

/-! ### Reading a text -/

/-- **A written character is one code unit.** -/
theorem units?_textChar (c : Char) (rest : List Char) :
    units? (textChar c ++ rest) = (units? rest).map (c.toNat :: ·) := by
  have hescape := escape_textChar c
  generalize textChar c = written at hescape ⊢
  cases hescape with
  | plain hquote hbackslash hcontrol =>
    rw [List.singleton_append, units?]
    · rw [if_neg (by simp [hbackslash, Nat.not_lt.mpr hcontrol])]
    · rintro _ _ _ _ _ rfl
      exact absurd rfl hbackslash
    · rintro _ _ rfl
      exact absurd rfl hbackslash
  | short hletter hfind =>
    rw [List.cons_append, List.singleton_append, units?]
    · rw [hfind]
      cases units? rest <;> rfl
    · rintro _ _ _ _ _ rfl
      exact absurd rfl hletter
  | digits hvalue hplain =>
    simp only [List.cons_append, List.nil_append]
    rw [units?, hvalue]
    cases units? rest <;> rfl

theorem units?_written (cs : List Char) :
    units? (cs.flatMap textChar) = some (cs.map Char.toNat) := by
  induction cs with
  | nil => rfl
  | cons c cs ih => rw [List.flatMap_cons, units?_textChar, ih]; rfl

/-- A character is no half of a surrogate pair. -/
theorem not_surrogate (c : Char) :
    isHighSurrogate c.toNat = false ∧ isLowSurrogate c.toNat = false := by
  have hvalid : c.toNat < 0xd800 ∨ 0xdfff < c.toNat ∧ c.toNat < 0x110000 := c.valid
  simp only [isHighSurrogate, isLowSurrogate, Bool.and_eq_false_iff, decide_eq_false_iff_not]
  omega

theorem characters?_toNat (cs : List Char) : characters? (cs.map Char.toNat) = some cs := by
  induction cs with
  | nil => rfl
  | cons c cs ih =>
    obtain ⟨hhigh, hlow⟩ := not_surrogate c
    cases cs with
    | nil => simp [characters?, hhigh, hlow]
    | cons d cs =>
      rw [List.map_cons] at ih ⊢
      rw [List.map_cons, characters?, if_neg (by simp [hhigh]), if_neg (by simp [hlow]), ih,
        Option.map_some, Char.ofNat_toNat]

/-- **A text is read back from between its quotes.** -/
theorem text?_written (s : String) : text? (s.toList.flatMap textChar) = some s := by
  unfold text?
  rw [units?_written]
  show ((characters? (s.toList.map Char.toNat)).bind fun characters =>
    some (String.ofList characters)) = some s
  rw [characters?_toNat, Option.bind_some, String.ofList_toList]

/-! ### Scanning a text -/

/-- A written character is taken into the text, and leaves no backslash behind. -/
theorem scan_textChar (made : List Token) (backwards : List Char) (c : Char) :
    (textChar c).foldlM Scan.step ⟨made, .text backwards false⟩
      = some ⟨made, .text ((textChar c).reverse ++ backwards) false⟩ := by
  have hplain : ∀ (backwards : List Char) (d : Char), d ≠ '"' → d ≠ '\\' →
      Scan.step ⟨made, .text backwards false⟩ d = some ⟨made, .text (d :: backwards) false⟩ := by
    intro backwards d hquote hbackslash
    simp [Scan.step, hquote, hbackslash]
  have hescaped : ∀ (backwards : List Char) (d : Char),
      Scan.step ⟨made, .text backwards true⟩ d = some ⟨made, .text (d :: backwards) false⟩ :=
    fun _ _ => rfl
  have hbackslash : ∀ backwards : List Char,
      Scan.step ⟨made, .text backwards false⟩ '\\' = some ⟨made, .text ('\\' :: backwards) true⟩ :=
    fun _ => rfl
  have hescape := escape_textChar c
  generalize textChar c = written at hescape ⊢
  cases hescape with
  | plain hquote hback _ =>
    simp [hplain _ _ hquote hback]
  | short => simp [hbackslash, hescaped]
  | digits _ hdigits =>
    simp only [List.mem_cons, List.not_mem_nil, or_false, forall_eq_or_imp, forall_eq] at hdigits
    obtain ⟨ha, hb, hd, he⟩ := hdigits
    simp [hbackslash, hescaped, hplain _ _ ha.1 ha.2, hplain _ _ hb.1 hb.2, hplain _ _ hd.1 hd.2,
      hplain _ _ he.1 he.2]

theorem scan_textChars (made : List Token) (backwards cs : List Char) :
    (cs.flatMap textChar).foldlM Scan.step ⟨made, .text backwards false⟩
      = some ⟨made, .text ((cs.flatMap textChar).reverse ++ backwards) false⟩ := by
  induction cs generalizing backwards with
  | nil => rfl
  | cons c cs ih =>
    rw [List.flatMap_cons, List.foldlM_append, scan_textChar]
    show (cs.flatMap textChar).foldlM Scan.step _ = _
    rw [ih, List.reverse_append, List.append_assoc]

/-- **The scan of a written text makes one token.** -/
theorem scan_quoted (made : List Token) (s : String) :
    (quoted s).toList.foldlM Scan.step ⟨made, .between⟩ = some ⟨.text s :: made, .between⟩ := by
  have hopen : Scan.step ⟨made, .between⟩ '"' = some ⟨made, .text [] false⟩ := rfl
  have hclose : Scan.step ⟨made, .text (s.toList.flatMap textChar).reverse false⟩ '"'
      = some ⟨.text s :: made, .between⟩ := by
    have htext := text?_written s
    simp only [Scan.step, if_pos, List.reverse_reverse, htext, Option.map_some]
  rw [quoted, String.toList_ofList, List.cons_append, List.foldlM_cons, hopen]
  show (s.toList.flatMap textChar ++ ['"']).foldlM Scan.step ⟨made, .text [] false⟩ = _
  rw [List.foldlM_append, scan_textChars, List.append_nil]
  show (['"'].foldlM Scan.step _ : Option Scan) = _
  rw [List.foldlM_cons, hclose]
  rfl

end FuzzySearch.Json
