import FuzzySearch.CommandLine.PlainText
import FuzzySearch.CommandLine.Run

/-!
# The program

The files that a command names are read into a folder, the command is run in it, and what it printed
and the snapshot that it wrote are brought out again.
-/

namespace FuzzySearch.CommandLine

/-- The files that a command reads. -/
def Command.inputs : Command → List String
  | .search c => c.records :: c.index.toList
  | .index records _ _ => [records]
  | .titles file _ _ _ => [file]

/-- The file that a command writes. -/
def Command.output? : Command → Option String
  | .index _ output _ => some output
  | _ => none

/-- The folder with the file of a path, if there is one that can be read. -/
def readInto (folder : Folder) (file : String) : IO Folder := do
  let path := FilePath.ofText file
  try
    let text ← IO.FS.readFile path.text
    match folder.write text path.place with
    | .ok folder => return folder
    | .error _ => return folder
  catch _ => return folder

/-- The settings in the environment, under their names in capital letters. -/
def readEnvironment : IO (List (String × String)) := do
  let found ← Settings.names.mapM fun name => do
    let name := Text.upperString (Settings.environmentPrefix ++ name)
    let value ← IO.getEnv name
    return value.map fun s => (name, s)
  return found.filterMap id

/-- Writes a file of a folder, in place of an older one. -/
def writeOut (folder : Folder) (file : String) : IO Unit := do
  let path := FilePath.ofText file
  match folder.text? path.place, path.temporary? with
  | some text, some temporary =>
    IO.FS.createDirAll path.parent.text
    IO.FS.writeFile temporary.text text
    IO.FS.rename temporary.text path.text
  | _, _ => return ()

/-- Runs the program and gives its exit code. -/
def runProgram (args : List String) : IO UInt32 := do
  let files := match Command.parse args with
    | .ok command => command.inputs
    | .error _ => []
  let folder ← (".env" :: files).foldlM readInto []
  let environment ← readEnvironment
  match runArguments environment folder args with
  | (_, .halted .helpAsked) =>
    IO.println "search RECORDS QUERY | index RECORDS --output FILE | titles FILE QUERY"
    return 0
  | (_, .halted .misuse) => return 2
  | (_, .failed e) =>
    IO.eprintln (e.message?.getD "The command failed.")
    return 1
  | (after, .finished succeeded printed) =>
    match succeeded, Command.parse args with
    | true, .ok command => command.output?.forM (writeOut after)
    | _, _ => pure ()
    for line in printed.flatMap Printed.lines do
      IO.println line
    return if succeeded then 0 else 1

end FuzzySearch.CommandLine

/-- The program. -/
def main (args : List String) : IO UInt32 := FuzzySearch.CommandLine.runProgram args
