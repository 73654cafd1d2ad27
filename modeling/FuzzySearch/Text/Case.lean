import FuzzySearch.Text.Blank
import FuzzySearch.Text.CaseTable

/-!
# Letter case

`lower` and `upper` map whole texts with the full mappings of Unicode.  One character can become
several, and a capital sigma becomes a final sigma exactly when a cased letter stands before it and
none after it, characters that ignore case not counted.  `fold` is the form in which texts are
compared: as they are when case matters, and in lower case otherwise.
-/

namespace FuzzySearch.Text

/-- The image of a code point under the first run that holds it. -/
def mapByRuns (runs : List (Nat × Nat × Nat × Int)) (c : Char) : Char :=
  let n := c.toNat
  match runs.find? fun (low, high, step, _) => low ≤ n && n ≤ high && (n - low) % step == 0 with
  | some (_, _, _, shift) => Char.ofNat (n + shift).toNat
  | none => c

/-- A capital I with a dot above becomes an i and a combining dot above. -/
def dottedI : List Char := ['i', '\u0307']

/-- The lower-case form of a character on its own. -/
def lowerChar (c : Char) : List Char :=
  if c.toNat < 128 then [c.toLower]
  else if c = '\u0130' then dottedI
  else [mapByRuns CaseTable.lowerRuns c]

/-- The upper-case form of a character. -/
def upperChar (c : Char) : List Char :=
  if c.toNat < 128 then [c.toUpper]
  else
    match CaseTable.upperExpansions.find? (·.1 == c.toNat) with
    | some (_, image) => image.map Char.ofNat
    | none => [mapByRuns CaseTable.upperRuns c]

/-- Whether the nearest character that does not ignore case is a cased letter. -/
def meetsCased (cs : List Char) : Bool :=
  match cs.dropWhile (inRanges CaseTable.caseIgnorableRanges) with
  | [] => false
  | c :: _ => inRanges CaseTable.casedRanges c

/-- Lower-case form of a text whose earlier characters are `before`, nearest first. -/
def lowerAfter : (before : List Char) → List Char → List Char
  | _, [] => []
  | before, c :: rest =>
    if c = '\u03a3' then
      (if meetsCased before && !meetsCased rest then '\u03c2' else '\u03c3') ::
        lowerAfter (c :: before) rest
    else lowerChar c ++ lowerAfter (c :: before) rest

/-- The lower-case form of a text. -/
def lower (cs : List Char) : List Char := lowerAfter [] cs

/-- The upper-case form of a text. -/
def upper (cs : List Char) : List Char := cs.flatMap upperChar

/-- The form in which texts are compared. -/
def fold (caseSensitive : Bool) (cs : List Char) : List Char :=
  if caseSensitive then cs else lower cs

/-- The lower-case form of a string. -/
def lowerString (s : String) : String := String.ofList (lower s.toList)

/-- The upper-case form of a string. -/
def upperString (s : String) : String := String.ofList (upper s.toList)

example : lowerString "ΑΣ Σ" = "ας σ" := by decide +kernel
example : lowerString "İ" = "i\u0307" := by decide +kernel
example : upperString "straße" = "STRASSE" := by decide +kernel

end FuzzySearch.Text
