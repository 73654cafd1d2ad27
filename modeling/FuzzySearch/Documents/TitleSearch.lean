import FuzzySearch.Documents.FieldSearch
import FuzzySearch.Text.Occurrence

/-!
# Searching titles

The titles that contain every keyword of a query are the answer if there are any.  Otherwise the
fields of the documents are searched approximately, and titles with an excluded text are left out.
-/

namespace FuzzySearch

/-- The fields that are searched when none are named. -/
def usualFields : List String := ["title", "tags", "text"]

/-- The fields that a caller names. -/
inductive FieldNames where
  | unsaid
  | one (name : String)
  | several (names : List String)

/-- The names, without empty ones in a list of them. -/
def FieldNames.toList : FieldNames → List String
  | unsaid => []
  | one name => [name]
  | several names => names.filter fun name => !name.isEmpty

/-- The fields to be searched: the named ones, or all but those. -/
def chosenFields (named : FieldNames) (leaveOut : Bool) : List String :=
  let names := named.toList
  if leaveOut then usualFields.filter fun name => !names.contains name
  else if names.isEmpty then usualFields
  else names

/-- The keywords of a query, in lower case. -/
def keywords (query : String) : List (List Char) :=
  (Text.splitAt ' ' (Text.lower query.toList)).filter fun word => !word.isEmpty

/-- Whether a title contains every keyword, in any order and any case. -/
def hasKeywords (words : List (List Char)) (title : String) : Bool :=
  let title := Text.lower title.toList
  words.all fun word => Text.contains word title

/-- Whether a title contains none of the texts; the empty text does not count. -/
def isFreeOf (excluded : List String) (title : String) : Bool :=
  !(excluded.any fun text => !text.isEmpty && Text.contains text.toList title.toList)

/-- The item of a title. -/
def titleItem (title : String) : Value := .mapping [("title", .text title)]

/-- The titles found by an approximate search of the fields of their documents. -/
def searchTitleFields (query : String) (titles : List String) (fields : List String)
    (store : Option FieldsByTitle) (normalize : Option (String → String)) :
    Except SearchError (List String) := do
  let results ← searchFields (.list (titles.map titleItem)) query
    (.value (.list (fields.map .text))) [] store normalize
  return results.filterMap fun result => titles[result.position.toNat]?

/-- The titles that match a query. -/
def searchTitles (query : String) (titles : List String) (fields : FieldNames)
    (excluded : List String) (leaveOut : Bool) (store : Option FieldsByTitle)
    (normalize : Option (String → String)) : Except SearchError (List String) :=
  let exact := titles.filter (hasKeywords (keywords query))
  if !exact.isEmpty then .ok exact
  else do
    let found ← searchTitleFields query titles (chosenFields fields leaveOut) store normalize
    return found.filter (isFreeOf excluded)

example : keywords " API  Ref" = ["api".toList, "ref".toList] := by decide +kernel

end FuzzySearch
