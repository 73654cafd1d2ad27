import FuzzySearch.Files.FilePath
import FuzzySearch.Marking.Marked
import FuzzySearch.Json.Writing
import FuzzySearch.Hit.Report
import FuzzySearch.Value.Written

/-!
# What is printed

Results are printed as JSON on one line or as a table, everything else as text with marks of style.
In a table the matched characters of the best match can be emphasized.
-/

namespace FuzzySearch.CommandLine

/-- Characters from one position up to another that are shown in a style. -/
structure StyledRange where
  /-- The first position. -/
  start : Nat
  /-- The position after the last one. -/
  stop : Nat
  /-- The style. -/
  style : String
  deriving DecidableEq, Repr

/-- A cell of a table. -/
inductive Cell where
  | plain (s : String)
  | styled (s : String) (ranges : List StyledRange)
  deriving DecidableEq, Repr

/-- Something that is printed. -/
inductive Printed where
  /-- A line of JSON. -/
  | json (line : String)
  /-- A text with marks of style. -/
  | markup (s : String)
  | table (title : String) (header : List String) (rows : List (List Cell))

/-! ### Cells -/

/-- The style of matched characters. -/
def matchStyle : String := "bold yellow"

/-- The style of the name of a key. -/
def labelStyle : String := "dim"

/-- Whether a character moves the cursor or rings, so that it cannot be shown. -/
def isControl (c : Char) : Bool := [7, 8, 11, 12, 13].contains c.toNat

/-- A text without the characters that cannot be shown. -/
def showable (s : String) : List Char := s.toList.filter fun c => !isControl c

/-- The range of a span in a text of a length, unless nothing of it is inside. -/
def matchRange? (length : Nat) (s : Span) : Option StyledRange :=
  let fromEnd (i : Int) : Int := if i < 0 then length + i else i
  let start := fromEnd s.first
  let stop := fromEnd (s.last + 1)
  if (length : Int) ≤ start ∨ stop ≤ start then none
  else some ⟨start.toNat, (min (length : Int) stop).toNat, matchStyle⟩

/-- The name of the key of a match. -/
def labelOf (key : Value) : String :=
  match key with
  | .list segments => ".".intercalate (segments.map Value.plain)
  | v => v.plain

/-- A cell that shows a match, behind the name of its key. -/
def matchCell (found : ReportedMatch) : Cell :=
  let text := showable found.text
  let ranges := (mergeSpans found.spans).filterMap (matchRange? text.length)
  match found.key with
  | none | some .null => .styled (String.ofList text) ranges
  | some key =>
    let label := showable (labelOf key ++ ": ")
    let moved := ranges.map fun r =>
      { r with start := r.start + label.length, stop := r.stop + label.length }
    .styled (String.ofList (label ++ text)) (⟨0, label.length, labelStyle⟩ :: moved)

/-- An item as text: a text as it is, anything else in JSON. -/
def itemText (item : Value) : Except SearchError String :=
  match item with
  | .text s => .ok s
  | v => Json.write v

/-- The cell of a result. -/
def itemCell (highlight : Bool) (result : ReportedHit Float) : Except SearchError Cell := do
  match highlight, result.found with
  | true, some (found :: _) => return matchCell found
  | true, _ => return .styled (String.ofList (showable (← itemText result.item))) []
  | false, _ => return .plain (← itemText result.item)

/-! ### Tables -/

/-- The heads of the columns of a table of results. -/
def resultHeader : List String := ["#", "Ref", "Score", "Item"]

/-- The row of a result. -/
def resultRow (highlight : Bool) (rank : Nat) (result : ReportedHit Float) :
    Except SearchError (List Cell) := do
  let score := (result.score.map (Decimal.fixedText 4)).getD "-"
  let cell ← itemCell highlight result
  return [.plain (Decimal.intText (rank + 1)), .plain (Decimal.intText result.position),
    .plain score, cell]

/-- The table of the results of a query, or a notice that there are none. -/
def resultTable (results : List (ReportedHit Float)) (query : String) (highlight : Bool) :
    Except SearchError Printed := do
  if results.isEmpty then
    return .markup ("[yellow]No matches for " ++ Text.quoted query ++ "[/yellow]")
  else
    let rows ← results.zipIdx.mapM fun (result, rank) => resultRow highlight rank result
    return .table ("Results for " ++ Text.quoted query) resultHeader rows

/-! ### JSON -/

/-- An entry of a mapping, unless it has no value. -/
def entryUnlessNull (name : String) (v : Value) : List (String × Value) :=
  match v with
  | .null => []
  | v => [(name, v)]

/-- The list of the two ends of a span. -/
def spanValue (s : Span) : Value := .list [.int s.first, .int s.last]

/-- A match as a value. -/
def matchValue (highlight : Bool) (found : ReportedMatch) : Value :=
  let shown := String.ofList (marked .plain found.text.toList found.spans)
  .mapping ([("indices", .list (found.spans.map spanValue)), ("value", .text found.text)] ++
    entryUnlessNull "key" (found.key.getD .null) ++
    entryUnlessNull "ref_index" ((found.nested.map Value.int).getD .null) ++
    if highlight then [("highlight", .text shown)] else [])

/-- A result as a value; what is null is left out. -/
def resultValue (highlight : Bool) (result : ReportedHit Float) : Value :=
  let found := (result.found.map fun all => Value.list (all.map (matchValue highlight))).getD .null
  .mapping (entryUnlessNull "item" result.item ++ [("ref_index", .int result.position)] ++
    entryUnlessNull "matches" found ++
    entryUnlessNull "score" ((result.score.map Value.float).getD .null))

/-- A line of JSON. -/
def jsonLine (v : Value) : Except SearchError Printed := do
  return .json (← Json.write v)

/-! ### Failures -/

/-- Whether the message of a failure goes on with details, so that its mark of style stays open. -/
def hasDetails : SearchError → Bool
  | .snapshotNotJson _ | .snapshotInvalid _ | .unreadable _ | .notJson _ | .queryNotJson
  | .invalidOptions _ _ => true
  | _ => false

/-- Whether a failure is reported to the user; any other one ends the program. -/
def isReported : SearchError → Bool
  | .positionOutOfRange _ _ | .negativePosition _ | .unknownStyle _ => false
  | e => e.message?.isSome

/-- A text in red. -/
def inRed (s : String) (closed : Bool) : Printed :=
  .markup ("[red]❌ " ++ s ++ if closed then "[/red]" else "")

/-- The report of a failure. -/
def failureReport (e : SearchError) : Printed :=
  inRed ("Error: " ++ e.message?.getD "") (!hasDetails e)

/-- The report of settings that are refused. -/
def settingsReport (e : SearchError) : Printed :=
  inRed ("Invalid FUZZYDEX_* settings: " ++ e.message?.getD "") (!hasDetails e)

end FuzzySearch.CommandLine
