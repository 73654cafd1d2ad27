import FuzzySearch.Hit.Basic

/-!
# Reports of hits

A hit is reported with its document, and on demand with its score and its matches.  A match without
spans is not reported.
-/

namespace FuzzySearch

/-- A match as it is reported. -/
structure ReportedMatch where
  /-- Where the text matched. -/
  spans : List Span
  /-- The text. -/
  text : String
  /-- The specification of the key, if there is a key. -/
  key : Option Value
  /-- The position of the text in the list it comes from. -/
  nested : Option Int

/-- A document that matches a query. -/
structure ReportedHit (α : Type) where
  /-- The document. -/
  item : Value
  /-- Its position. -/
  position : Int
  /-- Its matches, when they were asked for. -/
  found : Option (List ReportedMatch)
  /-- Its score, when it was asked for. -/
  score : Option α

variable {α : Type}

/-- A match as it is reported, unless it has no spans. -/
def TextMatch.reported? (found : TextMatch α) : Option ReportedMatch :=
  if found.spans.isEmpty then none
  else
    some
      { spans := found.spans
        text := found.text
        key := found.key.map (·.source)
        nested := found.nested.filter (-1 < ·) }

/-- The document at a position, negative positions being counted from the end. -/
def document? (docs : List Value) (position : Int) : Option Value :=
  if 0 ≤ position then docs[position.toNat]?
  else if position + docs.length < 0 then none
  else docs[(position + docs.length).toNat]?

/-- A hit as it is reported. -/
def Hit.report (docs : List Value) (includeMatches includeScore : Bool) (hit : Hit α) :
    Except SearchError (ReportedHit α) :=
  match document? docs hit.position with
  | none => .error .pastEnd
  | some item =>
    .ok
      { item := item
        position := hit.position
        found := if includeMatches then some (hit.found.filterMap TextMatch.reported?) else none
        score := if includeScore then some hit.score else none }

end FuzzySearch
