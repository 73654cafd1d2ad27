import FuzzySearch.Engine.Basic
import FuzzySearch.Hit.Report
import FuzzySearch.Hit.Score
import FuzzySearch.Logic.Query

/-!
# Searching a collection

A text is searched in every record of the index: in a collection of texts in the text of the record,
otherwise in the entries of all keys.  A mapping is a logical query.  The hits are scored, sorted,
cut off at a limit and reported.
-/

namespace FuzzySearch.Engine

variable {α : Type}

/-! ### Matches and hits -/

/-- Whether the collection is one of texts, as its first document tells. -/
def holdsTexts (engine : Engine α) : Bool :=
  match engine.docs with
  | .text _ :: _ => true
  | _ => false

section

variable [ScoreNumber α]

/-- The matches of a matcher in an entry. -/
def entryMatches (key : Option (Key α)) (entry : Option (IndexedField α))
    (matcher : Option (Matcher α)) : List (TextMatch α) :=
  match entry, matcher with
  | some entry, some matcher =>
    entry.texts.filterMap fun indexed =>
      let result := matcher.compareText indexed.text
      if result.isMatch then
        some ⟨result.score, indexed.text, indexed.norm, result.spans, key, indexed.nested⟩
      else none
  | _, _ => []

/-- A hit without a score. -/
def hit? (position : Int) (found : List (TextMatch α)) : Option (Hit α) :=
  if found.isEmpty then none else some ⟨position, found, ScoreNumber.one⟩

end

variable [Weighting α]

/-! ### Hits of a query -/

/-- The hit of a record that is a text.  A value that stands in the place of a text is reported by
the text of it. -/
def textHit? (matcher : Matcher α) (record : Record α) :
    Except SearchError (Option (Hit α)) :=
  match record.body with
  | .fields _ => .ok none
  | .text .null _ => .ok none
  | .text v norm => do
    let result ← matcher.compareValue v
    if result.isMatch then
      return hit? record.position [⟨result.score, v.plain, norm, result.spans, none, none⟩]
    else return none

/-- The hits of a pattern in a collection of texts. -/
def textHits (engine : Engine α) (pattern : String) : Except SearchError (List (Hit α)) := do
  let matcher := MatcherFactory.matcher engine.factories pattern engine.options.toMatchOptions
  let hits ← engine.index.records.mapM (textHit? matcher)
  return hits.filterMap id

/-- The hit of a pattern in the entries of all keys of a record. -/
def fieldsHit? (engine : Engine α) (matcher : Matcher α) (record : Record α) :
    Option (Hit α) :=
  match record.body with
  | .text _ _ => none
  | .fields fields =>
    hit? record.position (engine.index.keys.zipIdx.flatMap fun (key, number) =>
      let key := (engine.weightedKeys.get? key.id).getD key
      entryMatches (some key) (Index.entry? fields number) (some matcher))

/-- The hits of a pattern in a collection of records with fields. -/
def fieldHits (engine : Engine α) (pattern : String) : List (Hit α) :=
  let matcher := MatcherFactory.matcher engine.factories pattern engine.options.toMatchOptions
  engine.index.records.filterMap (engine.fieldsHit? matcher)

/-- The matches of a leaf of a logical query in a record. -/
def leafMatches (engine : Engine α) (fields : List (Int × IndexedField α)) (leaf : Leaf α) :
    List (TextMatch α) :=
  let id := Value.text leaf.keyName
  entryMatches (engine.weightedKeys.get? id) (engine.index.entryOf? fields id) leaf.matcher

/-- The hit of a logical query in a record. -/
def logicalHit? (engine : Engine α) (expression : Expression α) (record : Record α) :
    Option (Hit α) :=
  match record.body with
  | .text _ _ => none
  | .fields fields =>
    let found : Id (List (TextMatch α)) :=
      expression.evaluate fun leaf => pure (engine.leafMatches fields leaf)
    hit? record.position found.run

/-- The hits of a logical query. -/
def logicalHits (engine : Engine α) (query : Value) : Except SearchError (List (Hit α)) := do
  let matcher := fun pattern =>
    some (MatcherFactory.matcher engine.factories pattern engine.options.toMatchOptions)
  let expression ← LogicalQuery.compile matcher query
  return engine.index.records.filterMap (engine.logicalHit? expression)

/-- The hits of a query, in the order of the records. -/
def hits (engine : Engine α) (query : Value) : Except SearchError (List (Hit α)) :=
  match query with
  | .text pattern =>
    if engine.holdsTexts then engine.textHits pattern else .ok (engine.fieldHits pattern)
  | query => engine.logicalHits query

/-! ### Results -/

/-- The results of a query, the best first; a negative limit keeps all of them. -/
def search (engine : Engine α) (query : Value) (limit : Int) :
    Except SearchError (List (ReportedHit α)) := do
  let options := engine.options
  let hits ← engine.hits query
  let hits ← hits.mapM (Hit.scored options.ignoreFieldNorm)
  let hits := if options.shouldSort then Hit.sorted options.order hits else hits
  let hits := if -1 < limit then hits.take limit.toNat else hits
  hits.mapM (Hit.report engine.docs options.includeMatches options.includeScore)

end FuzzySearch.Engine
