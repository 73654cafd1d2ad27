import FuzzySearch.CommandLine.Command
import FuzzySearch.CommandLine.Display
import FuzzySearch.Documents.TitleSearch
import FuzzySearch.Files.SnapshotFile
import FuzzySearch.Settings.Basic

/-!
# Running commands

A command is run in a folder with an environment.  It gives the folder as it is afterwards, what is
printed, and whether the command succeeded.
-/

namespace FuzzySearch.CommandLine

/-- The name of a key and its weight, if the part behind the last colon is a number. -/
def keySpec (s : String) : Value :=
  match Text.splitLast? ':' s.toList with
  | none => .text s
  | some (name, weight) =>
    match Decimal.readFloat? weight with
    | some weight => .mapping [("name", .text (String.ofList name)), ("weight", .float weight)]
    | none => .text s

/-- The list that a file holds as JSON. -/
def readList (folder : Folder) (file : String) : Except SearchError (List Value) :=
  let path := FilePath.ofText file
  match folder.text? path.place with
  | none => .error (.unreadable path.text)
  | some text =>
    match Json.read? text with
    | none => .error (.notJson path.text)
    | some (.list items) => .ok items
    | some _ => .error (.notAList path.text)

/-- The logical query that a text gives as JSON. -/
def readQuery (s : String) : Except SearchError Value :=
  match Json.read? s with
  | none => .error .queryNotJson
  | some (.mapping entries) => .ok (.mapping entries)
  | some _ => .error .queryNotObject

/-- The specification of a key of an index. -/
def specOfKey (key : Key Float) : Value :=
  let name := match key.source with
    | .null => .list (key.path.map .text)
    | v => v
  .mapping [("name", name), ("weight", .float key.weight)]

namespace SearchCommand

/-- The keys of a search: those that are given, or else those of the index. -/
def keySpecs (c : SearchCommand) (index : Option (Index Float)) : List Value :=
  let given := c.keys.map keySpec
  match index with
  | some index => if given.isEmpty then index.keys.map specOfKey else given
  | none => given

/-- What a search says about its options. -/
def said (c : SearchCommand) (keys : List Value) : List (String × Value) :=
  [("keys", .list keys), ("include_score", .bool true),
    ("include_matches", .bool (c.json || c.highlight)), ("use_extended_search", .bool c.extended)] ++
    c.threshold.toList.map fun x => ("threshold", .float x)

/-- The results of a search in some records, with the index of a snapshot if there is one. -/
def results (c : SearchCommand) (settings : Settings) (records : List Value)
    (index : Option (Index Float)) : Except SearchError (List (ReportedHit Float)) := do
  let options ← settings.engineOptions (c.said (c.keySpecs index)) EngineFunctions.usual
  let given := (index.map GivenIndex.index).getD .absent
  let engine ← Engine.build (.list records) options given MatcherFactory.standard
  let query ← if c.logical then readQuery c.query else .ok (.text c.query)
  engine.search query c.limit

/-- Runs a search. -/
def run (c : SearchCommand) (settings : Settings) (folder : Folder) :
    Except SearchError (List Printed) := do
  let records ← readList folder c.records
  let index ← c.index.mapM fun file =>
    SnapshotFile.load folder (FilePath.ofText file) standardExtractor
  let results ← c.results settings records index
  if c.json then
    let line ← jsonLine (.list (results.map (resultValue c.highlight)))
    return [line]
  else
    let table ← resultTable results c.query c.highlight
    return [table]

end SearchCommand

/-- The index of records for keys as they are written. -/
def buildIndex (records : List Value) (keys : List String) : Except SearchError (Index Float) :=
  Index.ofSpecs (keys.map fun key => .described (keySpec key)) (.list records) standardExtractor
    none

/-- Writes an index. -/
def runIndex (records output : String) (keys : List String) (folder : Folder) :
    Folder × Except SearchError (List Printed) :=
  let index := do
    let records ← readList folder records
    buildIndex records keys
  match index with
  | .error e => (folder, .error e)
  | .ok index =>
    let path := FilePath.ofText output
    match SnapshotFile.save folder path (.index index) with
    | (folder, some e) => (folder, .error e)
    | (folder, none) =>
      let count := Decimal.intText index.size
      let notice := "[green]Indexed " ++ count ++ " records into " ++ path.text ++ "[/green]"
      (folder, .ok [.markup notice])

/-- Searches titles. -/
def runTitles (file query : String) (excluded : List String) (json : Bool) (folder : Folder) :
    Except SearchError (List Printed) := do
  let titles ← readList folder file
  let found ← searchTitles query (titles.map Value.plain) .unsaid excluded false none none
  if json then
    let line ← jsonLine (.list (found.map .text))
    return [line]
  else if found.isEmpty then
    return [.markup ("[yellow]No titles match " ++ Text.quoted query ++ "[/yellow]")]
  else return found.map fun title => .markup ("  • " ++ title)

/-- Runs a command. -/
def Command.run (settings : Settings) (folder : Folder) :
    Command → Folder × Except SearchError (List Printed)
  | .search c => (folder, c.run settings folder)
  | .index records output keys => runIndex records output keys folder
  | .titles file query excluded json => (folder, runTitles file query excluded json folder)

/-- How a run ends. -/
inductive Outcome where
  /-- Nothing was run. -/
  | halted (why : Halt)
  /-- The program came to its end. -/
  | finished (succeeded : Bool) (printed : List Printed)
  /-- A failure ended the program. -/
  | failed (e : SearchError)

/-- The outcome of what may have failed. -/
def outcomeOf : Except SearchError (List Printed) → Outcome
  | .ok printed => .finished true printed
  | .error e => if isReported e then .finished false [failureReport e] else .failed e

/-- The text of the file of definitions in a folder. -/
def definitionsIn (folder : Folder) : Option String := folder.text? [".env"]

/-- Runs the program with some arguments. -/
def runArguments (environment : List (String × String)) (folder : Folder) (args : List String) :
    Folder × Outcome :=
  match Command.parse args with
  | .error why => (folder, .halted why)
  | .ok command =>
    match Settings.read environment (definitionsIn folder) with
    | .error e => (folder, .finished false [settingsReport e])
    | .ok settings =>
      let (folder, printed) := command.run settings folder
      (folder, outcomeOf printed)

example : (keySpec "a:b:x").written = "'a:b:x'" := by decide +kernel

end FuzzySearch.CommandLine
