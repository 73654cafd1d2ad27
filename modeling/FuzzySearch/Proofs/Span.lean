import FuzzySearch.Span
import Mathlib.Data.List.Basic
import Mathlib.Data.List.Pairwise
import Mathlib.Data.List.Sort

/-!
# Spans and the positions that they cover

Many lists of spans cover the same positions.  Only one of them is `Separated`: its spans are in
order, each covers something, and between any two of them stands a position that none covers
(`Separated.eq_of_covered_iff`).
-/

namespace FuzzySearch

/-! ### Spans inside a text -/

/-- A span of at least one position, all of them positions of a text of some size. -/
def Span.Inside (s : Span) (size : Nat) : Prop := 0 ≤ s.first ∧ s.first ≤ s.last ∧ s.last < size

instance (s : Span) (size : Nat) : Decidable (s.Inside size) :=
  inferInstanceAs (Decidable (_ ∧ _ ∧ _))

theorem Span.inside_mk (first last : Int) (size : Nat) :
    (⟨first, last⟩ : Span).Inside size ↔ 0 ≤ first ∧ first ≤ last ∧ last < size :=
  Iff.rfl

/-! ### Covered positions -/

/-- A position that one of some spans covers. -/
def Covered (spans : List Span) (i : Int) : Prop := ∃ s ∈ spans, s.covers i

instance (spans : List Span) : DecidablePred (Covered spans) :=
  fun i => inferInstanceAs (Decidable (∃ s ∈ spans, s.covers i))

@[simp] theorem not_covered_nil (i : Int) : ¬ Covered [] i := by simp [Covered]

@[simp] theorem covered_cons {s : Span} {spans : List Span} {i : Int} :
    Covered (s :: spans) i ↔ s.covers i ∨ Covered spans i := by
  simp [Covered]

/-- A position of a text of some size that one of some spans covers. -/
def CoveredIn (size : Nat) (spans : List Span) (i : Int) : Prop :=
  (0 ≤ i ∧ i < size) ∧ Covered spans i

instance (size : Nat) (spans : List Span) : DecidablePred (CoveredIn size spans) :=
  fun _ => inferInstanceAs (Decidable (_ ∧ _))

/-! ### Spans in increasing order -/

/-- Spans in strictly increasing order are determined by which they are. -/
theorem eq_of_pairwise_first_lt {spans others : List Span}
    (hspans : spans.Pairwise fun s t => s.first < t.first)
    (hothers : others.Pairwise fun s t => s.first < t.first)
    (h : ∀ s, s ∈ spans ↔ s ∈ others) : spans = others := by
  have : Std.Irrefl fun s t : Span => s.first < t.first := ⟨fun s => Int.lt_irrefl s.first⟩
  have : Std.Antisymm fun s t : Span => s.first < t.first :=
    ⟨fun _ _ hlt hgt => absurd hgt (Int.lt_asymm hlt)⟩
  exact hspans.eq_of_mem_iff hothers h

/-! ### Separated spans -/

/-- Spans in order that each cover something, with a position between any two of them that neither
covers. -/
structure Separated (spans : List Span) : Prop where
  proper : ∀ s ∈ spans, s.first ≤ s.last
  apart : spans.Pairwise fun s t => s.last + 1 < t.first

theorem separated_nil : Separated [] := ⟨by simp, .nil⟩

theorem separated_cons_iff {s : Span} {spans : List Span} :
    Separated (s :: spans) ↔
      s.first ≤ s.last ∧ (∀ t ∈ spans, s.last + 1 < t.first) ∧ Separated spans := by
  constructor
  · rintro ⟨hproper, hapart⟩
    rw [List.forall_mem_cons] at hproper
    rw [List.pairwise_cons] at hapart
    exact ⟨hproper.1, hapart.1, hproper.2, hapart.2⟩
  · rintro ⟨hs, hbehind, hspans⟩
    exact ⟨List.forall_mem_cons.mpr ⟨hs, hspans.proper⟩,
      List.pairwise_cons.mpr ⟨hbehind, hspans.apart⟩⟩

namespace Separated

variable {s : Span} {spans : List Span} {i : Int}

/-- Separated spans begin in strictly increasing order. -/
theorem pairwise_first_lt (h : Separated spans) :
    spans.Pairwise fun s t => s.first < t.first := by
  refine h.apart.imp_of_mem fun hs _ hlt => ?_
  have := h.proper _ hs
  omega

/-- What the spans behind the first one cover stands clear of it. -/
theorem last_lt_of_covered (h : Separated (s :: spans)) (hi : Covered spans i) :
    s.last + 1 < i := by
  obtain ⟨-, hbehind, -⟩ := separated_cons_iff.mp h
  obtain ⟨t, ht, hcovers⟩ := hi
  have := hbehind t ht
  have := hcovers.1
  omega

theorem covered_first (h : Separated (s :: spans)) : Covered (s :: spans) s.first :=
  covered_cons.mpr (Or.inl ⟨Int.le_refl _, h.proper s (by simp)⟩)

/-- Nothing before the first span is covered. -/
theorem first_le_of_covered (h : Separated (s :: spans)) (hi : Covered (s :: spans) i) :
    s.first ≤ i := by
  have hs := h.proper s (by simp)
  rcases covered_cons.mp hi with hi | hi
  · exact hi.1
  · have := h.last_lt_of_covered hi
    omega

/-- The position behind a span is not covered. -/
theorem not_covered_behind (h : Separated spans) (hs : s ∈ spans) :
    ¬ Covered spans (s.last + 1) := by
  induction spans with
  | nil => simp
  | cons t spans ih =>
    intro hcovered
    obtain ⟨-, hbehind, hspans⟩ := separated_cons_iff.mp h
    rcases List.mem_cons.mp hs with rfl | hs
    · rcases covered_cons.mp hcovered with hcovers | hcovered
      · have := hcovers.2
        omega
      · have := h.last_lt_of_covered hcovered
        omega
    · rcases covered_cons.mp hcovered with hcovers | hcovered
      · have := hbehind s hs
        have := hspans.proper s hs
        have := hcovers.2
        omega
      · exact ih hspans hs hcovered

/-- The spans behind the first one cover what is left when its positions are taken away. -/
theorem covered_tail_iff (h : Separated (s :: spans)) :
    Covered spans i ↔ Covered (s :: spans) i ∧ s.last < i := by
  rw [covered_cons]
  constructor
  · intro hi
    have := h.last_lt_of_covered hi
    exact ⟨Or.inr hi, by omega⟩
  · rintro ⟨hcovers | hi, hlt⟩
    · have := hcovers.2
      omega
    · exact hi

/-- A first span does not end behind that of spans which begin where it does and cover as much. -/
theorem last_le {t : Span} {others : List Span} (ht : Separated (t :: others))
    (hfirst : s.first = t.first)
    (hcover : ∀ i, Covered (s :: spans) i → Covered (t :: others) i) : s.last ≤ t.last := by
  by_contra hlt
  -- otherwise the position behind `t` is one of those of `s`
  apply ht.not_covered_behind (List.mem_cons_self ..)
  apply hcover
  have := ht.proper t (by simp)
  exact covered_cons.mpr (Or.inl ⟨by omega, by omega⟩)

/-- **Separated spans are determined by the positions that they cover.** -/
theorem eq_of_covered_iff {others : List Span} (hspans : Separated spans)
    (hothers : Separated others) (h : ∀ i, Covered spans i ↔ Covered others i) :
    spans = others := by
  induction spans generalizing others with
  | nil =>
    cases others with
    | nil => rfl
    | cons t others => exact absurd ((h t.first).mpr hothers.covered_first) (not_covered_nil _)
  | cons s spans ih =>
    cases others with
    | nil => exact absurd ((h s.first).mp hspans.covered_first) (not_covered_nil _)
    | cons t others =>
      have hfirst : s.first = t.first := by
        have := hspans.first_le_of_covered ((h t.first).mpr hothers.covered_first)
        have := hothers.first_le_of_covered ((h s.first).mp hspans.covered_first)
        omega
      have hlast : s.last = t.last := by
        have := hothers.last_le hfirst fun i => (h i).mp
        have := hspans.last_le hfirst.symm fun i => (h i).mpr
        omega
      obtain rfl : s = t := by
        cases s
        cases t
        simp_all
      congr 1
      apply ih (separated_cons_iff.mp hspans).2.2 (separated_cons_iff.mp hothers).2.2
      intro i
      rw [hspans.covered_tail_iff, hothers.covered_tail_iff, h]

end Separated

end FuzzySearch
