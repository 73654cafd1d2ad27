import FuzzySearch.Error
import FuzzySearch.Value.Basic

/-!
# Folders

A folder holds files with their texts, and other folders.  `Folder.find?` follows names into a
folder; `makeFolders`, `write` and `erase` give the folder after a change.
-/

namespace FuzzySearch

/-- What a folder holds under a name. -/
inductive FolderEntry where
  | file (text : String)
  | folder (entries : List (String × FolderEntry))

/-- A folder. -/
abbrev Folder := List (String × FolderEntry)

namespace Folder

/-- What stands at a place. -/
def find? (folder : Folder) : List String → Option FolderEntry
  | [] => some (.folder folder)
  | name :: rest =>
    match lookup? name folder with
    | some (.folder inner) => find? inner rest
    | some (.file text) => if rest.isEmpty then some (.file text) else none
    | none => none

/-- The text of the file at a place. -/
def text? (folder : Folder) (place : List String) : Option String :=
  match folder.find? place with
  | some (.file text) => some text
  | _ => none

/-- Makes the folders on the way to a place, the place included. -/
def makeFolders (folder : Folder) : List String → Except SearchError Folder
  | [] => .ok folder
  | name :: rest =>
    match lookup? name folder with
    | some (.file _) => .error (if rest.isEmpty then .fileInTheWay else .notADirectory)
    | some (.folder inner) => do
      let inner ← makeFolders inner rest
      return insertEntry name (.folder inner) folder
    | none => do
      let inner ← makeFolders [] rest
      return insertEntry name (.folder inner) folder

/-- Writes a file at a place. -/
def write (text : String) (folder : Folder) : List String → Except SearchError Folder
  | [] => .error .isADirectory
  | [name] =>
    match lookup? name folder with
    | some (.folder _) => .error .isADirectory
    | _ => .ok (insertEntry name (.file text) folder)
  | name :: rest =>
    match lookup? name folder with
    | some (.file _) => .error .notADirectory
    | some (.folder inner) => do
      let inner ← write text inner rest
      return insertEntry name (.folder inner) folder
    | none => do
      let inner ← write text [] rest
      return insertEntry name (.folder inner) folder

/-- Removes what stands at a place. -/
def erase (folder : Folder) : List String → Folder
  | [] => folder
  | [name] => folder.filter (·.1 != name)
  | name :: rest =>
    match lookup? name folder with
    | some (.folder inner) => insertEntry name (.folder (erase inner rest)) folder
    | _ => folder

mutual

/-- The texts of the paths in a folder entry, itself included. -/
def entryPaths (path : String) : FolderEntry → List String
  | .file _ => [path]
  | .folder entries => path :: innerPaths (path ++ "/") entries

/-- The texts of the paths in a folder, each after `front`. -/
def innerPaths (front : String) : List (String × FolderEntry) → List String
  | [] => []
  | (name, entry) :: rest => entryPaths (front ++ name) entry ++ innerPaths front rest

end

/-- The texts of all paths in a folder, in order. -/
def paths (folder : Folder) : List String :=
  (innerPaths "" folder).mergeSort fun a b => !(b < a)

end Folder

end FuzzySearch
