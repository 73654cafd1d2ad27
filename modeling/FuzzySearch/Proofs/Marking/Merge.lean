import FuzzySearch.Marking.Merge
import FuzzySearch.Proofs.Span
import Mathlib.Data.List.Sort
import Mathlib.Tactic.SplitIfs

/-!
# What merging makes of spans

Merged spans are separated and cover what the spans cover, so they are a canonical form of the
covered positions (`mergeSpans_canonical`).  Spans are joined in order of their first positions.  A
span that begins too late to be joined on to the current one is followed by none that begins sooner,
so the current one is done with (`separated_joinOnto`).

Merged spans that are cut off at the ends of a text still are separated, lie inside the text and
cover the covered positions of the text (`covered_clipSpans`).
-/

namespace FuzzySearch

/-! ### Joining -/

/-- Spans that each cover something, in order of their first positions. -/
structure InOrder (spans : List Span) : Prop where
  proper : ∀ s ∈ spans, s.first ≤ s.last
  sorted : spans.Pairwise fun s t => s.first ≤ t.first

theorem inOrder_cons_iff {s : Span} {spans : List Span} :
    InOrder (s :: spans) ↔ s.first ≤ s.last ∧ (∀ t ∈ spans, s.first ≤ t.first) ∧ InOrder spans := by
  constructor
  · rintro ⟨hproper, hsorted⟩
    rw [List.forall_mem_cons] at hproper
    rw [List.pairwise_cons] at hsorted
    exact ⟨hproper.1, hsorted.1, hproper.2, hsorted.2⟩
  · rintro ⟨hs, hbehind, hspans⟩
    exact ⟨List.forall_mem_cons.mpr ⟨hs, hspans.proper⟩,
      List.pairwise_cons.mpr ⟨hbehind, hspans.sorted⟩⟩

/-- Spans are still in order when the second is joined on to the first. -/
theorem InOrder.join {current s : Span} {spans : List Span} (h : InOrder (current :: s :: spans)) :
    InOrder (⟨current.first, max current.last s.last⟩ :: spans) := by
  obtain ⟨hcurrent, hbehind, hspans⟩ := inOrder_cons_iff.mp h
  apply inOrder_cons_iff.mpr
  refine ⟨?_, ?_, (inOrder_cons_iff.mp hspans).2.2⟩
  · show current.first ≤ max current.last s.last
    omega
  · intro t ht
    exact hbehind t (List.mem_cons_of_mem s ht)

/-- Joining keeps the covered positions. -/
theorem covered_joinOnto {current : Span} {spans : List Span} (h : InOrder (current :: spans))
    (i : Int) : Covered (joinOnto current spans) i ↔ Covered (current :: spans) i := by
  induction spans generalizing current with
  | nil => rw [joinOnto]
  | cons s spans ih =>
    obtain ⟨hcurrent, hbehind, hspans⟩ := inOrder_cons_iff.mp h
    rw [joinOnto]
    split_ifs with htouch
    · rw [ih h.join, covered_cons, covered_cons, covered_cons, ← or_assoc]
      apply or_congr_left
      have := hbehind s (by simp)
      simp only [Span.covers]
      omega
    · rw [covered_cons, ih hspans, ← covered_cons]

theorem first_le_of_mem_joinOnto {current : Span} {spans : List Span}
    (h : InOrder (current :: spans)) {t : Span} (ht : t ∈ joinOnto current spans) :
    current.first ≤ t.first := by
  induction spans generalizing current with
  | nil =>
    rw [List.mem_singleton.mp ht]
  | cons s spans ih =>
    obtain ⟨-, hbehind, hspans⟩ := inOrder_cons_iff.mp h
    rw [joinOnto] at ht
    split_ifs at ht with htouch
    · have hfirst := ih h.join ht
      exact hfirst
    · rcases List.mem_cons.mp ht with rfl | ht
      · exact Int.le_refl _
      · exact (hbehind s (by simp)).trans (ih hspans ht)

/-- **Joining spans in order separates them.** -/
theorem separated_joinOnto {current : Span} {spans : List Span} (h : InOrder (current :: spans)) :
    Separated (joinOnto current spans) := by
  induction spans generalizing current with
  | nil =>
    exact separated_cons_iff.mpr ⟨h.proper current (by simp), by simp, separated_nil⟩
  | cons s spans ih =>
    obtain ⟨hcurrent, -, hspans⟩ := inOrder_cons_iff.mp h
    rw [joinOnto]
    split_ifs with htouch
    · exact ih h.join
    · apply separated_cons_iff.mpr
      refine ⟨hcurrent, ?_, ih hspans⟩
      intro t ht
      have := first_le_of_mem_joinOnto hspans ht
      omega

theorem separated_joinSorted {spans : List Span} (h : InOrder spans) :
    Separated (joinSorted spans) := by
  cases spans with
  | nil => exact separated_nil
  | cons s spans => exact separated_joinOnto h

theorem covered_joinSorted {spans : List Span} (h : InOrder spans) (i : Int) :
    Covered (joinSorted spans) i ↔ Covered spans i := by
  cases spans with
  | nil => rfl
  | cons s spans => exact covered_joinOnto h i

/-! ### Merging -/

theorem Span.le_iff {s t : Span} :
    s.le t = true ↔ s.first < t.first ∨ s.first = t.first ∧ s.last ≤ t.last := by
  simp [Span.le]

/-- What merging joins is in order. -/
theorem inOrder_mergeSort (spans : List Span) :
    InOrder ((spans.filter fun s => s.first ≤ s.last).mergeSort Span.le) where
  proper := by
    intro s hs
    rw [List.mem_mergeSort, List.mem_filter] at hs
    exact of_decide_eq_true hs.2
  sorted := by
    have hsorted : ((spans.filter fun s => s.first ≤ s.last).mergeSort Span.le).Pairwise
        fun s t => s.le t := by
      apply List.pairwise_mergeSort
      · intro a b c hab hbc
        rw [Span.le_iff] at *
        omega
      · intro a b
        rw [Bool.or_eq_true, Span.le_iff, Span.le_iff]
        omega
    apply hsorted.imp
    intro s t hle
    rw [Span.le_iff] at hle
    omega

theorem separated_mergeSpans (spans : List Span) : Separated (mergeSpans spans) :=
  separated_joinSorted (inOrder_mergeSort spans)

/-- Merging keeps the covered positions. -/
theorem covered_mergeSpans {spans : List Span} {i : Int} :
    Covered (mergeSpans spans) i ↔ Covered spans i := by
  rw [mergeSpans, covered_joinSorted (inOrder_mergeSort spans)]
  simp only [Covered, List.mem_mergeSort, List.mem_filter, decide_eq_true_eq]
  constructor
  · rintro ⟨s, ⟨hs, -⟩, hcovers⟩
    exact ⟨s, hs, hcovers⟩
  · rintro ⟨s, hs, hcovers⟩
    exact ⟨s, ⟨hs, hcovers.1.trans hcovers.2⟩, hcovers⟩

/-- **Merged spans are a canonical form of the covered positions.**  None of them is empty; they are
in order, with a position between any two that no span covers; and they cover what the spans cover.
So two lists of spans have the same merged form exactly if they cover the same positions.  In
particular the order of the spans is of no account, and merging a second time changes nothing. -/
theorem mergeSpans_canonical (spans : List Span) :
    (∀ s ∈ mergeSpans spans, s.first ≤ s.last) ∧
      (mergeSpans spans).Pairwise (fun s t => s.last < t.first ∧
        ∃ i, s.last < i ∧ i < t.first ∧ ¬ Covered spans i) ∧
      (∀ i, Covered (mergeSpans spans) i ↔ Covered spans i) ∧
      (∀ others, mergeSpans others = mergeSpans spans ↔
        ∀ i, Covered others i ↔ Covered spans i) ∧
      (∀ others, others.Perm spans → mergeSpans others = mergeSpans spans) ∧
      mergeSpans (mergeSpans spans) = mergeSpans spans := by
  have hseparated := separated_mergeSpans spans
  have hcanonical : ∀ others, mergeSpans others = mergeSpans spans ↔
      ∀ i, Covered others i ↔ Covered spans i := by
    intro others
    constructor
    · intro h i
      rw [← covered_mergeSpans, h, covered_mergeSpans]
    · intro h
      apply (separated_mergeSpans others).eq_of_covered_iff hseparated
      intro i
      rw [covered_mergeSpans, covered_mergeSpans, h]
  refine ⟨hseparated.proper, ?_, fun i => covered_mergeSpans, hcanonical, ?_, ?_⟩
  · apply hseparated.apart.imp_of_mem
    intro s t hs _ hapart
    refine ⟨by omega, s.last + 1, by omega, hapart, ?_⟩
    rw [← covered_mergeSpans]
    exact hseparated.not_covered_behind hs
  · intro others hperm
    rw [hcanonical]
    intro i
    exact exists_congr fun s => and_congr_left fun _ => hperm.mem_iff
  · rw [hcanonical]
    intro i
    exact covered_mergeSpans

/-! ### Clipping -/

section

variable {size : Nat} {spans : List Span} {s : Span}

theorem mem_clipSpans :
    s ∈ clipSpans size spans ↔ ∃ t ∈ mergeSpans spans,
      t.first < (size : Int) ∧ 0 ≤ t.last ∧ s = ⟨max 0 t.first, min ((size : Int) - 1) t.last⟩ := by
  simp only [clipSpans, List.mem_map, List.mem_filter, Bool.and_eq_true, decide_eq_true_eq]
  constructor
  · rintro ⟨t, ⟨ht, hfirst, hlast⟩, rfl⟩
    exact ⟨t, ht, hfirst, hlast, rfl⟩
  · rintro ⟨t, ht, hfirst, hlast, rfl⟩
    exact ⟨t, ⟨ht, hfirst, hlast⟩, rfl⟩

theorem inside_of_mem_clipSpans (hsize : 0 < size) (h : s ∈ clipSpans size spans) :
    s.Inside size := by
  obtain ⟨t, ht, hfirst, hlast, rfl⟩ := mem_clipSpans.mp h
  have := (separated_mergeSpans spans).proper t ht
  rw [Span.inside_mk]
  omega

/-- Clipped spans cover the covered positions of the text. -/
theorem covered_clipSpans {i : Int} :
    Covered (clipSpans size spans) i ↔ CoveredIn size spans i := by
  rw [CoveredIn, ← @covered_mergeSpans spans]
  constructor
  · rintro ⟨s, hs, hcovers⟩
    obtain ⟨t, ht, -, -, rfl⟩ := mem_clipSpans.mp hs
    simp only [Span.covers] at hcovers
    exact ⟨by omega, t, ht, by omega, by omega⟩
  · rintro ⟨hi, t, ht, hcovers⟩
    obtain ⟨hfirst, hlast⟩ := hcovers
    refine ⟨_, mem_clipSpans.mpr ⟨t, ht, by omega, by omega, rfl⟩, ?_⟩
    simp only [Span.covers]
    omega

/-- Clipping does not bring spans together. -/
theorem separated_clipSpans (hsize : 0 < size) : Separated (clipSpans size spans) where
  proper := fun s hs => (inside_of_mem_clipSpans hsize hs).2.1
  apart := by
    rw [clipSpans, List.pairwise_map]
    apply ((separated_mergeSpans spans).apart.filter _).imp
    intro s t hapart
    show min ((size : Int) - 1) s.last + 1 < max 0 t.first
    omega

end

end FuzzySearch
