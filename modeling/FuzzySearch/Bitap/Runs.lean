import FuzzySearch.Span

/-!
# Runs of marked positions

`runs k marks` are the maximal runs of marked positions, left to right, that are at least `k`
long.
-/

namespace FuzzySearch.Bitap

/-- The run from `start` up to but not including `stop`, if it is long enough. -/
def closeRun (least : Int) (start stop : Nat) : List Span :=
  if least ≤ (stop : Int) - start then [⟨start, (stop : Int) - 1⟩] else []

/-- The runs from position `pos` on; `open?` is the start of a run that reaches `pos`. -/
def runsFrom (least : Int) : (pos : Nat) → (open? : Option Nat) → List Bool → List Span
  | _, none, [] => []
  | pos, some start, [] => closeRun least start pos
  | pos, none, mark :: rest => runsFrom least (pos + 1) (if mark then some pos else none) rest
  | pos, some start, mark :: rest =>
    if mark then runsFrom least (pos + 1) (some start) rest
    else closeRun least start pos ++ runsFrom least (pos + 1) none rest

/-- The maximal runs of marked positions that are at least `least` long. -/
def runs (least : Int) (marks : List Bool) : List Span := runsFrom least 0 none marks

example : runs 2 [true, false, true, true, true] = [⟨2, 4⟩] := by decide
example : runs 1 [true, false, true, true, true] = [⟨0, 0⟩, ⟨2, 4⟩] := by decide

end FuzzySearch.Bitap
