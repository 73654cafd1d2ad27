import FuzzySearch.Options.Match
import FuzzySearch.Text.Case

/-!
# Fuzzy patterns

A fuzzy pattern may be longer than a machine word.  It is then cut into chunks of a word's length,
the last one being flush with the end of the pattern, and the score of the pattern is the mean of
the scores of its chunks.  The pattern matches when one of its chunks does.
-/

namespace FuzzySearch

open ScoreNumber

/-- A part of a pattern that fits a machine word. -/
structure Chunk where
  /-- The characters of the part. -/
  letters : List Char
  /-- Where the part begins in the pattern. -/
  start : Nat
  deriving DecidableEq, Repr

/-- The part of a pattern that begins at `start`. -/
def Chunk.at (letters : List Char) (start : Nat) : Chunk :=
  ⟨(letters.drop start).take Bitap.wordSize, start⟩

/-- The chunks of a pattern: one after the other, and a last one that ends with the pattern. -/
def chunks (letters : List Char) : List Chunk :=
  let size := letters.length
  if size = 0 then []
  else if size ≤ Bitap.wordSize then [⟨letters, 0⟩]
  else
    let whole := (List.range (size / Bitap.wordSize)).map fun k =>
      Chunk.at letters (Bitap.wordSize * k)
    if size % Bitap.wordSize = 0 then whole
    else whole ++ [Chunk.at letters (size - Bitap.wordSize)]

/-- A pattern that is looked for approximately. -/
structure FuzzyPattern (α : Type) where
  /-- The pattern, in the form in which texts are compared. -/
  letters : List Char
  /-- How it is compared. -/
  options : MatchOptions α

namespace FuzzyPattern

variable {α : Type} [ScoreNumber α]

/-- The fuzzy pattern of some characters. -/
def ofLetters (letters : List Char) (options : MatchOptions α) : FuzzyPattern α :=
  ⟨Text.fold options.caseSensitive letters, options⟩

/-- The result of matching every chunk against a text that is already folded. -/
def chunkResults (p : FuzzyPattern α) (text : List Char) : List (Comparison α) :=
  (chunks p.letters).map fun chunk =>
    Bitap.locate text chunk.letters (p.options.criteria chunk.start)

/-- One result out of the results of the chunks. -/
def combine (includeSpans : Bool) (results : List (Comparison α)) : Comparison α :=
  let matched := results.filter (·.isMatch)
  if matched.isEmpty then Comparison.failed
  else
    { isMatch := true
      score := mean (sum (results.map (·.score))) results.length
      spans := if includeSpans then matched.flatMap (·.spans) else [] }

/-- Matches a pattern against a text. -/
def matchLetters (p : FuzzyPattern α) (text : List Char) : Comparison α :=
  let text := Text.fold p.options.caseSensitive text
  if p.letters = text then
    { isMatch := true
      score := zero
      spans := if p.options.includeMatches then [⟨0, (text.length : Int) - 1⟩] else [] }
  else combine p.options.includeMatches (p.chunkResults text)

end FuzzyPattern

end FuzzySearch
