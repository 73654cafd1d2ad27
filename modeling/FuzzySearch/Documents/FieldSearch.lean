import FuzzySearch.Engine.Search
import FuzzySearch.Text.Han

/-!
# Searching the fields of documents

The fields of a document stand in the item itself, or in a store under the title of the item.  Their
texts can be changed by a phonetic normalizer before they are searched; with a store this does not
happen to the field `text`, which is too long for it, nor when the query has Han characters.
-/

namespace FuzzySearch

/-- The fields of the documents with known titles. -/
abbrev FieldsByTitle := List (String × Option (List (String × Value)))

/-- The text of a field value: the items of a list are put together, unless they are no single
values. -/
def joinedText : Value → String
  | .null => ""
  | .list items | .tuple items => " ".intercalate ((items.filter (·.isScalar)).map Value.searchText)
  | v => v.searchText

/-- The fields that are never normalized when they come from a store. -/
def unchangedFields : List String := ["text"]

/-- The fields of a title, unless the title is not known. -/
def FieldsByTitle.fields? (store : FieldsByTitle) (title : Value) :
    Except SearchError (Option (List (String × Value))) :=
  match title with
  | .text s => .ok ((lookup? s store).getD none)
  | v => if v.isHashable then .ok none else .error .wrongKind

/-- Finds the text of a field in a store. -/
def storeExtractor (store : FieldsByTitle) (normalize : Option (String → String))
    (queryIsHan : Bool) : Extractor := fun item path =>
  match path with
  | [] => .ok (.text "")
  | name :: _ => do
    let title ← item.required "title"
    match ← store.fields? title with
    | none => return .text ""
    | some fields =>
      let text := joinedText ((lookup? name fields).getD .null)
      if unchangedFields.contains name || queryIsHan then return .text text
      else return .text ((normalize.getD id) text)

/-- Finds the text of a field in the item itself. -/
def itemExtractor (normalize : Option (String → String)) : Extractor := fun item path =>
  match path with
  | [] => .ok (.text "")
  | name :: _ =>
    match item.member? name with
    | none | some .null => .ok .null
    | some v => .ok (.text ((normalize.getD id) (joinedText v)))

/-- Finds the text of a field in a store, or in the item itself when there is no store. -/
def fieldExtractor (store : Option FieldsByTitle) (normalize : Option (String → String))
    (queryIsHan : Bool) : Extractor :=
  match store with
  | some store => storeExtractor store normalize queryIsHan
  | none => itemExtractor normalize

/-- The limits of a field search that are in force when no others are given. -/
def fieldSearchLimits : List (String × Value) :=
  [("threshold", .float (ScoreNumber.ratio 3 10)), ("distance", .int 60),
    ("min_match_char_length", .int 1)]

/-- The options of a field search on some keys, with limits in place of the usual ones. -/
def fieldSearchOptions (keys : List (KeySpec Float)) (limits : List (String × Value))
    (extract : Extractor) : Except SearchError (EngineOptions Float) := do
  let limits := limits.foldl (fun all limit => insertEntry limit.1 limit.2 all) fieldSearchLimits
  let options ← EngineOptions.ofValues
    ([("include_score", .bool true), ("include_matches", .bool true)] ++ limits)
    { EngineFunctions.usual with extract := some extract }
  return { options with keys := keys }

/-- The items whose fields match a query, the best first. -/
def searchFields (items : Value) (query : String) (keys : Listing (KeySpec Float))
    (limits : List (String × Value)) (store : Option FieldsByTitle)
    (normalize : Option (String → String)) : Except SearchError (List (ReportedHit Float)) := do
  let keys ← keys.elements .described
  let extract := fieldExtractor store normalize (Text.containsHan query)
  let options ← fieldSearchOptions keys limits extract
  let engine ← Engine.build items options .absent MatcherFactory.standard
  engine.search (.text query) (-1)

end FuzzySearch
