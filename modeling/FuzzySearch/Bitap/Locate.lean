import FuzzySearch.Bitap.Alphabet
import FuzzySearch.Bitap.Runs
import FuzzySearch.Bitap.Score
import FuzzySearch.Bitap.Window
import FuzzySearch.Text.Occurrence

/-!
# Approximate occurrences by bit vectors

A text is scanned from right to left.  Row `e` holds one bit vector per text position: bit `k` of
the vector at `j` says that the last `k + 1` letters of the pattern are found from character
`j - 1` of the text on with at most `e` errors.  A row is computed from its right neighbours and from
the row of one error less.

Before the first row, the exact occurrences of the pattern tighten the threshold.  After that each
row is scanned only in the window around the expected position where a match of so many errors
could still pass the threshold, and a match inside the row narrows the window further.

`locate` is the search for a pattern that fits a machine word; `search` first turns away every
other pattern.
-/

namespace FuzzySearch.Bitap

open ScoreNumber

variable {α : Type} [ScoreNumber α]

/-- The number of bits of a machine word, which no pattern may exceed. -/
def wordSize : Nat := 32

/-- What counts as a match. -/
structure Criteria (α : Type) where
  /-- Where the pattern is expected. -/
  location : Int
  /-- The way from there that costs a full point. -/
  distance : Int
  /-- The greatest score that is accepted. -/
  threshold : α
  /-- Whether the whole text is scanned. -/
  findAll : Bool
  /-- The least length of a matched run. -/
  minMatchLength : Int
  /-- Whether the matched spans are asked for. -/
  includeSpans : Bool
  /-- Whether positions do not count. -/
  ignoreLocation : Bool

/-- The fixed data of one search. -/
structure Problem where
  /-- The number of characters of the pattern. -/
  length : Nat
  /-- The letter mask of each character of the text. -/
  masks : Array Nat
  /-- Where the pattern is expected: a position of the text or its end. -/
  expected : Nat
  /-- The way from there that costs a full point. -/
  distance : Int
  /-- Whether positions do not count. -/
  ignoreLocation : Bool
  /-- Whether the whole text is scanned. -/
  findAll : Bool

namespace Problem

/-- The score of a match with `errors` errors at `position`. -/
def score (p : Problem) (errors position : Nat) : α :=
  Bitap.score p.length ⟨p.expected, p.distance, p.ignoreLocation⟩ errors position

end Problem

/-- The bit vector at a position, from the vector to its right and from the two vectors of the row
of one error less. -/
def cell (errors mask right lastHere lastRight : Nat) : Nat :=
  let exact := ((right <<< 1) ||| 1) &&& mask
  if errors = 0 then exact
  else exact ||| ((((lastRight ||| lastHere) <<< 1) ||| 1) ||| lastRight)

/-- The best match so far. -/
structure Best (α : Type) where
  /-- The score that the next match must not exceed. -/
  threshold : α
  /-- The position of the last match that was accepted. -/
  position : Option Nat
  /-- The score of the last match that was looked at. -/
  score : α

/-- Scans a row from vector `j` down to vector `start`.  Gives the best match, the row, and the
marks of the characters that occur in the pattern. -/
def scan (p : Problem) (errors : Nat) (last : Array Nat) :
    (j : Nat) → (start : Nat) → Best α → (row : Array Nat) → (marks : Array Bool) →
      Best α × Array Nat × Array Bool
  | 0, _, best, row, marks => (best, row, marks)
  | j + 1, start, best, row, marks =>
    if j + 1 < start then (best, row, marks)
    else
      let mask := p.masks.getD j 0
      let marks := if j < p.masks.size then marks.setIfInBounds j (mask != 0) else marks
      let bits :=
        cell errors mask (row.getD (j + 2) 0) (last.getD (j + 1) 0) (last.getD (j + 2) 0)
      let row := row.setIfInBounds (j + 1) bits
      if bits.testBit (p.length - 1) then
        let score : α := p.score errors j
        if score ≤ best.threshold then
          let best : Best α := ⟨score, some j, score⟩
          if j ≤ p.expected then (best, row, marks)
          else scan p errors last j (max 1 (2 * p.expected - j)) best row marks
        else scan p errors last j start { best with score := score } row marks
      else scan p errors last j start best row marks

/-- What one row hands on to the next. -/
structure Progress (α : Type) where
  /-- The best match so far. -/
  best : Best α
  /-- How far from the expected position the last row reached. -/
  reach : Nat
  /-- The last row; empty before the first. -/
  row : Array Nat
  /-- The characters of the text that are marked. -/
  marks : Array Bool

/-- The last vector of a row that is scanned. -/
def finish (p : Problem) (reach : Nat) : Nat :=
  if p.findAll then p.masks.size else min (p.expected + reach) p.masks.size + p.length

/-- The first vector of a row that is scanned. -/
def start (p : Problem) (reach : Nat) : Nat := max 1 (p.expected + 1 - reach)

/-- A row before it is scanned: past the end of the text the pattern can only be completed by
errors. -/
def blankRow (errors finish : Nat) : Array Nat :=
  (Array.replicate (finish + 2) 0).setIfInBounds (finish + 1) ((1 <<< errors) - 1)

/-- Finds the window of a row and scans it. -/
def scanRow (p : Problem) (errors : Nat) (s : Progress α) : Progress α :=
  let reach := Bitap.reach
    (fun d => decide (p.score errors (p.expected + d) ≤ s.best.threshold)) s.reach
  let finish := Bitap.finish p reach
  let (best, row, marks) :=
    scan p errors s.row finish (start p reach) s.best (blankRow errors finish) s.marks
  ⟨best, reach, row, marks⟩

/-- Scans rows of more and more errors until not even a match at the expected position could pass
the threshold. -/
def scanRows (p : Problem) : (remaining errors : Nat) → Progress α → Progress α
  | 0, _, s => s
  | remaining + 1, errors, s =>
    let s := scanRow p errors s
    if s.best.threshold < p.score (errors + 1) p.expected then s
    else scanRows p remaining (errors + 1) s

/-- Marks the characters of an exact occurrence. -/
def markOccurrence (length : Nat) (marks : Array Bool) (position : Nat) : Array Bool :=
  (List.range length).foldl (fun marks k => marks.setIfInBounds (position + k) true) marks

/-- Looks for an approximate occurrence of a pattern that is not empty and fits a word. -/
def locate (text pattern : List Char) (c : Criteria α) : Comparison α :=
  let size := text.length
  let p : Problem :=
    { length := pattern.length
      masks := (text.map (letterMask pattern)).toArray
      expected := (max 0 (min c.location size)).toNat
      distance := c.distance
      ignoreLocation := c.ignoreLocation
      findAll := c.findAll }
  let needSpans := 1 < c.minMatchLength || c.includeSpans
  let exact := Text.occurrences pattern text p.expected
  let threshold :=
    exact.foldl (fun threshold position => smaller (p.score 0 position) threshold) c.threshold
  let marks :=
    if needSpans then exact.foldl (markOccurrence p.length) (Array.replicate size false) else #[]
  let final := scanRows p p.length 0
    { best := ⟨threshold, none, one⟩, reach := p.length + size, row := #[], marks := marks }
  let score := greater floorScore final.best.score
  let spans := if needSpans then runs c.minMatchLength final.marks.toList else []
  { isMatch := final.best.position.isSome && (!needSpans || !spans.isEmpty)
    score := score
    spans := if c.includeSpans then spans else [] }

/-- Looks for an approximate occurrence of any pattern. -/
def search (text pattern : List Char) (c : Criteria α) : Except SearchError (Comparison α) :=
  if wordSize < pattern.length then .error (.patternTooLong wordSize)
  else if pattern = [] then .error .divisionByZero
  else .ok (locate text pattern c)

end FuzzySearch.Bitap
