import FuzzySearch.Text.Case
import Mathlib.Tactic.SplitIfs

/-!
# Texts in lower case

What a character is lowered to is itself or a letter that is not lowered any further
(`Text.loweredTo_of_mem_lowerChar`), so a text in lower case stays as it is
(`Text.lower_lower`).  The letters that come in are neither blank nor marks of ASCII.  Only a dotted
capital letter becomes two characters, so a text gets longer by the number of these letters
(`Text.length_fold`, `Text.length_fold_eq_iff`).

The table of the lower-case mappings is read in pairs of runs: the images of a run lie in no other
one, because the two are disjoint or fall on numbers of different parity.
-/

namespace FuzzySearch.Text

/-! ### Runs of a case table -/

/-- Whether a run of a case table holds a code point. -/
def inRun (n : Nat) (run : Nat × Nat × Nat × Int) : Bool :=
  run.1 ≤ n && n ≤ run.2.1 && (n - run.1) % run.2.2.1 == 0

/-- The code point that a run maps another one to. -/
def imageIn (run : Nat × Nat × Nat × Int) (n : Nat) : Nat := (n + run.2.2.2).toNat

theorem mapByRuns_cases (runs : List (Nat × Nat × Nat × Int)) (c : Char) :
    (mapByRuns runs c = c ∧ ∀ run ∈ runs, inRun c.toNat run = false) ∨
      ∃ run ∈ runs, inRun c.toNat run = true ∧
        mapByRuns runs c = Char.ofNat (imageIn run c.toNat) := by
  unfold mapByRuns
  simp only
  split
  · rename_i low high step shift hfind
    exact Or.inr ⟨_, List.mem_of_find?_eq_some hfind, List.find?_some hfind, rfl⟩
  · rename_i hfind
    refine Or.inl ⟨rfl, fun run hrun => ?_⟩
    exact Bool.eq_false_iff.mpr (List.find?_eq_none.mp hfind run hrun)

/-- Whether the images of a run lie outside another one.  The comparisons are those that the kernel
computes with, because they are made for each pair of runs. -/
def apart (run other : Nat × Nat × Nat × Int) : Bool :=
  Nat.blt (imageIn run run.2.1) other.1 || Nat.blt other.2.1 (imageIn run run.1) ||
    (Nat.beq other.2.2.1 2 && (Nat.beq run.2.2.1 2 || Nat.beq run.1 run.2.1) &&
      !Nat.beq (imageIn run run.1 % 2) (other.1 % 2))

theorem inRun_imageIn_of_apart {n : Nat} {run other : Nat × Nat × Nat × Int}
    (hn : inRun n run = true) (hshift : 0 ≤ run.1 + run.2.2.2) (h : apart run other = true) :
    inRun (imageIn run n) other = false := by
  obtain ⟨low, high, step, shift⟩ := run
  obtain ⟨low', high', step', shift'⟩ := other
  rw [Bool.eq_false_iff]
  intro himage
  unfold inRun at hn himage
  unfold apart at h
  unfold imageIn at h himage
  simp only [Bool.and_eq_true, Bool.or_eq_true, Bool.not_eq_true', ← Bool.not_eq_true,
    decide_eq_true_eq, beq_iff_eq, Nat.blt_eq, Nat.beq_eq] at *
  obtain ⟨⟨hlow, hhigh⟩, hstep⟩ := hn
  obtain ⟨⟨hlow', hhigh'⟩, hstep'⟩ := himage
  rcases h with (h | h) | ⟨⟨htwo', htwo | hone⟩, hparity⟩
  · omega
  · omega
  · rw [htwo] at hstep
    rw [htwo'] at hstep'
    omega
  · rw [htwo'] at hstep'
    omega

/-! ### Settled characters -/

/-- A character that others are lowered to: a small letter of ASCII, or a character beyond ASCII that
is neither blank nor lowered any further. -/
structure Settled (c : Char) : Prop where
  lowerChar_eq : lowerChar c = [c]
  ne_sigma : c ≠ '\u03a3'
  not_blank : isBlankChar c = false
  isLetter : 97 ≤ c.toNat ∧ c.toNat ≤ 122 ∨ 128 ≤ c.toNat

/-- Code points beyond ASCII that are not settled: blank ones, the capital I with a dot above and the
capital sigma. -/
def unsettledRanges : List (Nat × Nat) := (0x130, 0x130) :: (0x3a3, 0x3a3) :: blankRanges

/-- Whether the images of a run are small letters of ASCII, or characters beyond ASCII that can be
settled. -/
def settles (run : Nat × Nat × Nat × Int) : Bool :=
  let low := imageIn run run.1
  let high := imageIn run run.2.1
  0 ≤ run.1 + run.2.2.2 && (97 ≤ low && high ≤ 122 || 128 ≤ low) &&
    (high < 0xd800 || 0xdfff < low && high < 0x110000) &&
    unsettledRanges.all fun range => high < range.1 || range.2 < low

theorem settles_lowerRuns : ∀ run ∈ CaseTable.lowerRuns, settles run = true := by decide +kernel

theorem all_apart_lowerRuns : (CaseTable.lowerRuns.all fun run =>
    CaseTable.lowerRuns.all (apart run)) = true := by
  decide +kernel

theorem toLower_of_small : ∀ n ∈ List.range' 97 26, (Char.ofNat n).toLower = Char.ofNat n := by
  decide +kernel

theorem toLower_of_ascii : ∀ n ∈ List.range 128, (Char.ofNat n).toLower = Char.ofNat n ∨
    97 ≤ (Char.ofNat n).toLower.toNat ∧ (Char.ofNat n).toLower.toNat ≤ 122 := by
  decide +kernel

theorem toNat_ofNat {n : Nat} (h : n.isValidChar) : (Char.ofNat n).toNat = n := by
  rw [Char.ofNat, dif_pos h]
  exact UInt32.toNat_ofNatLT ..

theorem settled_of_small {c : Char} (hlow : 97 ≤ c.toNat) (hhigh : c.toNat ≤ 122) : Settled c := by
  have hlower := toLower_of_small c.toNat (List.mem_range'_1.mpr ⟨hlow, by omega⟩)
  rw [Char.ofNat_toNat] at hlower
  refine ⟨?_, ?_, ?_, Or.inl ⟨hlow, hhigh⟩⟩
  · rw [lowerChar, if_pos (by omega), hlower]
  · rintro rfl
    exact absurd hhigh (by decide)
  · rw [isBlankChar, inRanges, List.any_eq_false]
    intro range hrange
    have hsmall : range.2 < 97 ∨ 122 < range.1 := by
      revert range
      decide
    simp only [Bool.and_eq_true, decide_eq_true_eq]
    omega

/-- What a run maps a code point to is settled. -/
theorem settled_imageIn {n : Nat} {run : Nat × Nat × Nat × Int} (hrun : run ∈ CaseTable.lowerRuns)
    (hn : inRun n run = true) : Settled (Char.ofNat (imageIn run n)) := by
  have hapart := List.all_eq_true.mp all_apart_lowerRuns run hrun
  have hsettles := settles_lowerRuns run hrun
  -- the image lies between those of the ends of the run
  have hbounds : imageIn run run.1 ≤ imageIn run n ∧ imageIn run n ≤ imageIn run run.2.1 := by
    unfold inRun at hn
    simp only [Bool.and_eq_true, decide_eq_true_eq] at hn
    unfold imageIn
    omega
  unfold settles at hsettles
  simp only [Bool.and_eq_true, Bool.or_eq_true, decide_eq_true_eq, List.all_eq_true] at hsettles
  obtain ⟨⟨⟨hshift, hletter⟩, hvalid⟩, hranges⟩ := hsettles
  have hnat : (Char.ofNat (imageIn run n)).toNat = imageIn run n :=
    toNat_ofNat (by unfold Nat.isValidChar; omega)
  by_cases hsmall : imageIn run n < 128
  · exact settled_of_small (by omega) (by omega)
  · have hout : ∀ range ∈ unsettledRanges, ¬(range.1 ≤ imageIn run n ∧ imageIn run n ≤ range.2) := by
      intro range hrange
      have := hranges range hrange
      omega
    have hne : ∀ c : Char, (c.toNat, c.toNat) ∈ unsettledRanges →
        Char.ofNat (imageIn run n) ≠ c := by
      rintro c hc rfl
      rw [hnat] at hc
      exact hout _ hc ⟨Nat.le_refl _, Nat.le_refl _⟩
    refine ⟨?_, hne _ (by decide), ?_, Or.inr (by omega)⟩
    · rw [lowerChar, if_neg (by omega), if_neg (hne _ (by decide))]
      rcases mapByRuns_cases CaseTable.lowerRuns (Char.ofNat (imageIn run n)) with
        ⟨hfixed, -⟩ | ⟨other, hother, hin, -⟩
      · rw [hfixed]
      · rw [hnat, inRun_imageIn_of_apart hn hshift (List.all_eq_true.mp hapart other hother)] at hin
        cases hin
    · rw [isBlankChar, inRanges, List.any_eq_false]
      intro range hrange
      have := hout range (List.mem_cons_of_mem _ (List.mem_cons_of_mem _ hrange))
      rw [hnat]
      simpa using this

/-! ### Lowering -/

theorem settled_of_mem_dottedI : ∀ d ∈ dottedI, Settled d := by
  have hi : Settled 'i' := settled_of_small (by decide) (by decide)
  have hdot : Settled '\u0307' :=
    ⟨by decide +kernel, by decide, by decide, Or.inr (by decide)⟩
  exact List.forall_mem_cons.mpr ⟨hi, List.forall_mem_singleton.mpr hdot⟩

/-- A character that is lowered to itself, or to a settled one. -/
def LoweredTo (c d : Char) : Prop := (d = c ∧ c ≠ '\u03a3' ∧ lowerChar c = [c]) ∨ Settled d

/-- **What a character is lowered to is itself or settled.** -/
theorem loweredTo_of_mem_lowerChar {c d : Char} (hc : c ≠ '\u03a3') (h : d ∈ lowerChar c) :
    LoweredTo c d := by
  by_cases hascii : c.toNat < 128
  · have hlower : lowerChar c = [c.toLower] := by rw [lowerChar, if_pos hascii]
    rw [hlower, List.mem_singleton] at h
    have hcases := toLower_of_ascii c.toNat (List.mem_range.mpr hascii)
    rw [Char.ofNat_toNat] at hcases
    rcases hcases with hfixed | hsmall
    · rw [hfixed] at h hlower
      exact Or.inl ⟨h, hc, hlower⟩
    · rw [h]
      exact Or.inr (settled_of_small hsmall.1 hsmall.2)
  · by_cases hdotted : c = '\u0130'
    · rw [lowerChar, if_neg hascii, if_pos hdotted] at h
      exact Or.inr (settled_of_mem_dottedI d h)
    · have hlower : lowerChar c = [mapByRuns CaseTable.lowerRuns c] := by
        rw [lowerChar, if_neg hascii, if_neg hdotted]
      rw [hlower, List.mem_singleton] at h
      rcases mapByRuns_cases CaseTable.lowerRuns c with ⟨hfixed, -⟩ | ⟨run, hrun, hin, himage⟩
      · rw [hfixed] at h hlower
        exact Or.inl ⟨h, hc, hlower⟩
      · rw [h, himage]
        exact Or.inr (settled_imageIn hrun hin)

theorem lowerChar_ne_nil (c : Char) : lowerChar c ≠ [] := by
  unfold lowerChar
  split_ifs <;> simp [dottedI]

/-- The first character of a text is lowered to some characters before the others. -/
theorem lowerAfter_cons (before : List Char) (c : Char) (rest : List Char) :
    ∃ letters, letters ≠ [] ∧ (∀ d ∈ letters, LoweredTo c d) ∧
      lowerAfter before (c :: rest) = letters ++ lowerAfter (c :: before) rest := by
  have hfinal : Settled '\u03c2' := ⟨by decide +kernel, by decide, by decide, Or.inr (by decide)⟩
  have hsmall : Settled '\u03c3' := ⟨by decide +kernel, by decide, by decide, Or.inr (by decide)⟩
  rw [lowerAfter]
  split_ifs with hsigma
  · exact ⟨['\u03c2'], by simp, List.forall_mem_singleton.mpr (Or.inr hfinal), rfl⟩
  · exact ⟨['\u03c3'], by simp, List.forall_mem_singleton.mpr (Or.inr hsmall), rfl⟩
  · exact ⟨lowerChar c, lowerChar_ne_nil c, fun d => loweredTo_of_mem_lowerChar hsigma, rfl⟩

theorem LoweredTo.fixed {c d : Char} (h : LoweredTo c d) : d ≠ '\u03a3' ∧ lowerChar d = [d] := by
  rcases h with ⟨rfl, hsigma, hfixed⟩ | hsettled
  · exact ⟨hsigma, hfixed⟩
  · exact ⟨hsettled.ne_sigma, hsettled.lowerChar_eq⟩

/-- Every character of a lowered text comes from one of the text. -/
theorem exists_of_mem_lowerAfter {before cs : List Char} {d : Char}
    (h : d ∈ lowerAfter before cs) : ∃ c ∈ cs, LoweredTo c d := by
  induction cs generalizing before with
  | nil => cases h
  | cons c rest ih =>
    obtain ⟨letters, -, hletters, heq⟩ := lowerAfter_cons before c rest
    rw [heq, List.mem_append] at h
    rcases h with h | h
    · exact ⟨c, List.mem_cons_self, hletters d h⟩
    · obtain ⟨c', hc', hd⟩ := ih h
      exact ⟨c', List.mem_cons_of_mem c hc', hd⟩

theorem lowerAfter_of_fixed {before cs : List Char}
    (h : ∀ d ∈ cs, d ≠ '\u03a3' ∧ lowerChar d = [d]) : lowerAfter before cs = cs := by
  induction cs generalizing before with
  | nil => rfl
  | cons c rest ih =>
    obtain ⟨⟨hsigma, hfixed⟩, hrest⟩ := List.forall_mem_cons.mp h
    rw [lowerAfter, if_neg hsigma, hfixed, ih hrest]
    rfl

/-- **A text in lower case stays as it is when it is lowered.** -/
theorem lower_lower (cs : List Char) : lower (lower cs) = lower cs := by
  refine lowerAfter_of_fixed fun d hd => ?_
  obtain ⟨c, -, hlowered⟩ := exists_of_mem_lowerAfter hd
  exact hlowered.fixed

/-- A folded text stays as it is when it is folded. -/
theorem fold_fold (caseSensitive : Bool) (cs : List Char) :
    fold caseSensitive (fold caseSensitive cs) = fold caseSensitive cs := by
  cases caseSensitive with
  | true => rfl
  | false => exact lower_lower cs

theorem exists_head?_lowerAfter (before : List Char) {c : Char} {cs : List Char}
    (h : cs.head? = some c) : ∃ d, (lowerAfter before cs).head? = some d ∧ LoweredTo c d := by
  obtain ⟨rest, rfl⟩ : ∃ rest, cs = c :: rest := by
    cases cs with
    | nil => cases h
    | cons c' rest => exact ⟨rest, by rw [Option.some.inj h]⟩
  obtain ⟨letters, hne, hletters, heq⟩ := lowerAfter_cons before c rest
  obtain ⟨d, more, rfl⟩ := List.exists_cons_of_ne_nil hne
  exact ⟨d, by rw [heq]; rfl, hletters d List.mem_cons_self⟩

theorem exists_getLast?_lowerAfter (before : List Char) {c : Char} {cs : List Char}
    (h : cs.getLast? = some c) :
    ∃ d, (lowerAfter before cs).getLast? = some d ∧ LoweredTo c d := by
  induction cs generalizing before with
  | nil => cases h
  | cons first rest ih =>
    obtain ⟨letters, hne, hletters, heq⟩ := lowerAfter_cons before first rest
    rw [heq]
    cases rest with
    | nil =>
      obtain rfl : first = c := Option.some.inj h
      refine ⟨letters.getLast hne, ?_, hletters _ (List.getLast_mem hne)⟩
      rw [lowerAfter, List.append_nil, List.getLast?_eq_some_getLast hne]
    | cons second more =>
      rw [List.getLast?_cons_cons] at h
      obtain ⟨d, hd, hlowered⟩ := ih (first :: before) h
      exact ⟨d, by rw [List.getLast?_append, hd]; rfl, hlowered⟩

/-! ### Lengths -/

theorem length_lowerChar {c : Char} (h : c ≠ '\u0130') : (lowerChar c).length = 1 := by
  unfold lowerChar
  split_ifs
  · rfl
  · rfl

/-- **Lowering makes a text longer by its dotted capital letters**, and by nothing else. -/
theorem length_lowerAfter (before cs : List Char) :
    (lowerAfter before cs).length = cs.length + cs.count '\u0130' := by
  induction cs generalizing before with
  | nil => rfl
  | cons c rest ih =>
    rw [lowerAfter, List.length_cons]
    by_cases hdotted : c = '\u0130'
    · have hletters : (lowerChar '\u0130').length = 2 := by decide
      rw [hdotted, if_neg (by decide), List.length_append, ih, hletters, List.count_cons_self]
      omega
    · rw [List.count_cons_of_ne hdotted]
      split_ifs
      · rw [List.length_cons, ih]
        omega
      · rw [List.length_cons, ih]
        omega
      · rw [List.length_append, ih, length_lowerChar hdotted]
        omega

theorem length_fold (caseSensitive : Bool) (cs : List Char) :
    (fold caseSensitive cs).length
      = cs.length + if caseSensitive then 0 else cs.count '\u0130' := by
  cases caseSensitive with
  | true => rfl
  | false => exact length_lowerAfter [] cs

/-- **A text keeps its length exactly if letter case counts or it has no dotted capital letter.** -/
theorem length_fold_eq_iff (caseSensitive : Bool) (cs : List Char) :
    (fold caseSensitive cs).length = cs.length ↔ caseSensitive = true ∨ '\u0130' ∉ cs := by
  rw [length_fold, Nat.add_eq_left, ← List.count_eq_zero]
  cases caseSensitive <;> simp

end FuzzySearch.Text
