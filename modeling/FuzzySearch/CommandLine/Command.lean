import FuzzySearch.CommandLine.Arguments

/-!
# Commands

There are three commands: one searches a collection of records, one writes an index of a collection,
and one searches titles.  `Command.parse` reads a command from arguments.
-/

namespace FuzzySearch.CommandLine

/-- A search in a collection. -/
structure SearchCommand where
  /-- The file of the records. -/
  records : String
  /-- The query. -/
  query : String
  /-- The keys, as they are written. -/
  keys : List String
  /-- Whether the query is a logical one, in JSON. -/
  logical : Bool
  /-- Whether the query is in the extended form. -/
  extended : Bool
  /-- The greatest score that is accepted. -/
  threshold : Option Float
  /-- The greatest number of results; all of them if negative. -/
  limit : Int
  /-- The snapshot to be used. -/
  index : Option String
  /-- Whether results are written as JSON. -/
  json : Bool
  /-- Whether matched characters are shown. -/
  highlight : Bool

/-- A command. -/
inductive Command where
  | search (c : SearchCommand)
  /-- Writes the index of the records of a file. -/
  | index (records output : String) (keys : List String)
  /-- Searches the titles of a file. -/
  | titles (file query : String) (excluded : List String) (json : Bool)

namespace Command

/-- The option of a key. -/
def keyOption : OptionSpec := ⟨["--key", "-k"], .text, false⟩

/-- The option of JSON output. -/
def jsonOption : OptionSpec := ⟨["--json"], .nothing, false⟩

/-- The options of a search. -/
def searchOptions : List OptionSpec :=
  [keyOption, ⟨["--logical"], .nothing, false⟩, ⟨["--extended"], .nothing, false⟩,
    ⟨["--threshold"], .number, false⟩, ⟨["--limit", "-n"], .integer, false⟩,
    ⟨["--index"], .text, false⟩, jsonOption, ⟨["--highlight"], .nothing, false⟩]

/-- The options of writing an index. -/
def indexOptions : List OptionSpec := [⟨["--output", "-o"], .text, false⟩, keyOption]

/-- The options of a search of titles. -/
def titlesOptions : List OptionSpec := [⟨["--exclude"], .text, false⟩, jsonOption]

/-- Whether something was left over. -/
abbrev Surplus := Bool

/-- Reads a search. -/
def parseSearch (args : List String) : Except Halt (Command × Surplus) := do
  let taken ← take searchOptions 2 args
  let last? (name : String) : Option (List Char) :=
    (taken.operands name).getLast?.map String.toList
  let command : SearchCommand :=
    { records := taken.positionals.headD ""
      query := taken.positionals.getLastD ""
      keys := taken.operands "--key"
      logical := taken.has "--logical"
      extended := taken.has "--extended"
      threshold := (last? "--threshold").bind Decimal.readFloat?
      limit := ((last? "--limit").bind Decimal.readInt?).getD (-1)
      index := ((taken.operands "--index").getLast?).filter (· != "")
      json := taken.has "--json"
      highlight := taken.has "--highlight" }
  return (.search command, taken.surplus)

/-- Reads the writing of an index, which needs an output. -/
def parseIndex (args : List String) : Except Halt (Command × Surplus) := do
  let taken ← take indexOptions 1 args
  match (taken.operands "--output").getLast? with
  | none => .error .misuse
  | some output =>
    return (.index (taken.positionals.headD "") output (taken.operands "--key"), taken.surplus)

/-- Reads a search of titles. -/
def parseTitles (args : List String) : Except Halt (Command × Surplus) := do
  let taken ← take titlesOptions 2 args
  return (.titles (taken.positionals.headD "") (taken.positionals.getLastD "")
    (taken.operands "--exclude") (taken.has "--json"), taken.surplus)

/-- Reads the command of a name. -/
def parseNamed (name : String) (args : List String) : Except Halt (Command × Surplus) :=
  if name = "search" then parseSearch args
  else if name = "index" then parseIndex args
  else if name = "titles" then parseTitles args
  else .error .misuse

/-- Reads a command; only options may stand before its name. -/
def parseFrom (surplus : Surplus) : List String → Except Halt (Command × Surplus)
  | [] => .error .misuse
  | s :: rest =>
    if s = "--" then .error .misuse
    else do
      match ← itemOf [helpOption] s with
      | .positional name =>
        let (command, more) ← parseNamed name rest
        return (command, surplus || more)
      | .option spec attached =>
        let _ ← expand [helpOption] spec attached
        .error .helpAsked
      | _ => parseFrom true rest

/-- The command that arguments give. -/
def parse (args : List String) : Except Halt Command := do
  let (command, surplus) ← parseFrom false args
  if surplus then .error .misuse else return command

end Command

end FuzzySearch.CommandLine
