import FuzzySearch.Files.FilePath
import FuzzySearch.Files.Folder
import FuzzySearch.Index.Snapshot
import FuzzySearch.Json.Reading
import FuzzySearch.Json.Writing

/-!
# Snapshot files

A snapshot of an index is kept in a file as JSON.  `save` writes it to a temporary file beside the
target, which takes the place of the target once it is complete.  `load` reads it back; a file that
is missing, is no JSON or is no snapshot is reported as such.
-/

namespace FuzzySearch.SnapshotFile

/-- Whether there is a file at a path. -/
def isPresent (folder : Folder) (path : FilePath) : Bool := (folder.text? path.place).isSome

/-- Puts a text in the place of a file.  A failure can leave the temporary file behind. -/
def replace (folder : Folder) (path temporary : FilePath) (text : String) :
    Folder × Option SearchError :=
  match folder.write text temporary.place with
  | .error e => (folder, some e)
  | .ok started =>
    match started.write text path.place with
    | .error e => (started, some e)
    | .ok finished => (finished.erase temporary.place, none)

/-- Writes the snapshot of an index to a file, whose folder is made if need be. -/
def write (folder : Folder) (path : FilePath) (index : Index Float) :
    Folder × Option SearchError :=
  match folder.makeFolders path.parent.place with
  | .error e => (folder, some e)
  | .ok folder =>
    match path.temporary?, Json.write index.toValue with
    | none, _ => (folder, some .malformed)
    | _, .error e => (folder, some e)
    | some temporary, .ok text => replace folder path temporary text

/-- Saves what is given as an index, unless it is none. -/
def save (folder : Folder) (path : FilePath) : GivenIndex Float → Folder × Option SearchError
  | .index index => write folder path index
  | .absent | .other => (folder, some .notAnIndex)

/-- What is reported when the value in a snapshot file is no index. -/
def rejection (path : FilePath) : SearchError → SearchError
  | .notAnIndex | .missingEntry | .wrongKind | .malformed | .missingProperty _
  | .invalidWeight _ => .snapshotInvalid path.text
  | e => e

/-- Reads the snapshot in a file.  The limit that a call stack sets to the depth of values is left
aside; `Json.read?` has a limit of its own. -/
def load (folder : Folder) (path : FilePath) (extract : Extractor) :
    Except SearchError (Index Float) :=
  match folder.text? path.place with
  | none => .error (.snapshotMissing path.text)
  | some text =>
    match Json.read? text with
    | none => .error (.snapshotNotJson path.text)
    | some (.mapping entries) =>
      (Index.ofValue (.mapping entries) extract none).mapError (rejection path)
    | some _ => .error (.snapshotNotObject path.text)

end FuzzySearch.SnapshotFile
