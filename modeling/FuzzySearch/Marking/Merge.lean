import FuzzySearch.Span

/-!
# Merging spans

`mergeSpans` puts spans in order and joins those that overlap or touch, so that of all lists of
spans that cover the same positions it gives the shortest.  Spans that cover nothing are dropped.
-/

namespace FuzzySearch

/-- Spans in order of their first positions, and of their last ones when those agree. -/
def Span.le (a b : Span) : Bool :=
  a.first < b.first || (a.first == b.first && a.last ≤ b.last)

/-- Joins a span with spans that do not begin before it, as long as they overlap or touch. -/
def joinOnto (current : Span) : List Span → List Span
  | [] => [current]
  | s :: rest =>
    if s.first ≤ current.last + 1 then joinOnto ⟨current.first, max current.last s.last⟩ rest
    else current :: joinOnto s rest

/-- Joins spans that are in order. -/
def joinSorted : List Span → List Span
  | [] => []
  | s :: rest => joinOnto s rest

/-- The spans in order, those that overlap or touch being joined. -/
def mergeSpans (spans : List Span) : List Span :=
  joinSorted ((spans.filter fun s => s.first ≤ s.last).mergeSort Span.le)

/-- The merged spans, cut off at the ends of a text of a length. -/
def clipSpans (length : Nat) (spans : List Span) : List Span :=
  let inside := (mergeSpans spans).filter fun s => s.first < (length : Int) && 0 ≤ s.last
  inside.map fun s => ⟨max 0 s.first, min ((length : Int) - 1) s.last⟩

example : joinSorted [⟨0, 1⟩, ⟨2, 3⟩, ⟨5, 5⟩] = [⟨0, 3⟩, ⟨5, 5⟩] := by decide

end FuzzySearch
