import FuzzySearch.Proofs.Pattern.Bounds
import FuzzySearch.Proofs.Text.Occurrence

/-!
# Terms that ask for a pattern anywhere

A term that asks for a pattern anywhere in a text is compared by the search for its occurrences.
No query has a term without letters, so the search always ends, and what it finds covers the pattern
wherever it stands (`terms_report_all_occurrences`).
-/

namespace FuzzySearch

open Text

namespace Term

variable {pattern text : List Char}

/-- The positions of a pattern that stands at `start`. -/
def placedAt (pattern : List Char) (start : Nat) : Span :=
  ⟨start, (start : Int) + pattern.length - 1⟩

theorem covers_placedAt {start i : Nat} :
    (placedAt pattern start).covers i ↔ start ≤ i ∧ i < start + pattern.length := by
  simp only [placedAt, Span.covers]
  omega

theorem occurrenceSpans_eq : occurrenceSpans pattern text =
    (occurrences pattern text 0).map (placedAt pattern) := rfl

/-- The spans of occurrences stand at the positions that the search finds. -/
theorem occurrenceSpans_of_scan (hpattern : pattern ≠ []) {starts : List Nat}
    (h : Scan pattern text 0 starts) :
    occurrenceSpans pattern text = starts.map (placedAt pattern) := by
  rw [(scan_iff hpattern).mp h, occurrenceSpans_eq]

theorem pairwise_occurrenceSpans (hpattern : pattern ≠ []) (text : List Char) :
    (occurrenceSpans pattern text).Pairwise fun s t => s.last < t.first := by
  rw [occurrenceSpans_eq, List.pairwise_map]
  apply ((scan_iff hpattern).mpr rfl).pairwise.imp
  intro i j hij
  simp only [placedAt]
  omega

theorem exists_of_mem_occurrenceSpans (hpattern : pattern ≠ []) {s : Span}
    (h : s ∈ occurrenceSpans pattern text) :
    ∃ i, OccursAt pattern text i ∧ s = placedAt pattern i := by
  obtain ⟨i, hi, rfl⟩ := List.mem_map.mp h
  exact ⟨i, (((scan_iff hpattern).mpr rfl).of_mem hi).2, rfl⟩

/-- An occurrence has a position in common with one of the spans. -/
theorem exists_covers_of_occursAt (hpattern : pattern ≠ []) {i : Nat}
    (h : OccursAt pattern text i) :
    ∃ s ∈ occurrenceSpans pattern text, ∃ k : Nat, s.covers k ∧ (placedAt pattern i).covers k := by
  obtain ⟨j, hj, hji, hij⟩ := ((scan_iff hpattern).mpr rfl).exists_overlap (Nat.zero_le i) h
  refine ⟨placedAt pattern j, List.mem_map_of_mem hj, max i j, ?_, ?_⟩
  · rw [covers_placedAt]
    omega
  · rw [covers_placedAt]
    omega

end Term

open Term

/-- **Terms report all occurrences of their patterns.**  Every term of every query has a pattern
with letters, and exactly for such patterns the search through a text ends.  When a term asks for
such a pattern, the search has one outcome; the spans of the comparison are the occurrences that it
finds, in order and without overlap; every occurrence has a position in one of them; and the text
matches exactly if the pattern stands somewhere in it. -/
theorem terms_report_all_occurrences {α : Type} [ScoreNumber α] (options : MatchOptions α)
    (query text : List Char) :
    (∀ terms ∈ termGroups query, ∀ term ∈ terms,
      term.pattern ≠ [] ∧ ∃ starts, Scan term.pattern text 0 starts) ∧
    ∀ pattern : List Char,
      ((∃ starts, Scan pattern text 0 starts) ↔ pattern ≠ []) ∧
      (pattern ≠ [] →
        let result := Term.matchLetters options ⟨.includes, pattern⟩ text
        (∀ starts, Scan pattern text 0 starts → result.spans = starts.map (placedAt pattern)) ∧
        (∀ s ∈ result.spans, ∃ i, OccursAt pattern text i ∧ s = placedAt pattern i) ∧
        result.spans.Pairwise (fun s t => s.last < t.first) ∧
        (∀ i, OccursAt pattern text i →
          ∃ s ∈ result.spans, ∃ k : Nat, s.covers k ∧ (placedAt pattern i).covers k) ∧
        (result.isMatch = true ↔ pattern <:+: text)) := by
  constructor
  · intro terms hterms term hterm
    have hpattern := pattern_ne_nil_of_mem_termGroups hterms hterm
    exact ⟨hpattern, (exists_scan_iff term.pattern text).mpr hpattern⟩
  · intro pattern
    refine ⟨exists_scan_iff pattern text, ?_⟩
    intro hpattern result
    refine ⟨?_, ?_, ?_, ?_, ?_⟩
    · intro starts hscan
      exact occurrenceSpans_of_scan hpattern hscan
    · intro s hs
      exact exists_of_mem_occurrenceSpans hpattern hs
    · exact pairwise_occurrenceSpans hpattern text
    · intro i hoccurs
      exact exists_covers_of_occursAt hpattern hoccurs
    · exact isMatch_verdict_includes hpattern text

end FuzzySearch
