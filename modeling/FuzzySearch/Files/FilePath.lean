import FuzzySearch.Text.Split

/-!
# Paths of files

A path is a list of names with slashes between them.  Empty names and single dots mean nothing and
are dropped.  `FilePath.place` is the place that a path leads to: a double dot cancels the name
before it.
-/

namespace FuzzySearch

/-- The path of a file or folder. -/
structure FilePath where
  /-- Whether the path begins at the root. -/
  rooted : Bool
  /-- The names on the way; none of them is empty or a single dot. -/
  names : List String
  deriving DecidableEq, Repr

namespace FilePath

/-- The path that a text gives. -/
def ofText (s : String) : FilePath where
  rooted := s.toList.head? == some '/'
  names := (Text.split '/' s).filter fun name => name != "" && name != "."

/-- The shortest text of a path. -/
def text (path : FilePath) : String :=
  let joined := "/".intercalate path.names
  if path.rooted then "/" ++ joined else if path.names.isEmpty then "." else joined

/-- The names that lead to a place, with double dots resolved; `backwards` are those before. -/
def resolve (backwards : List String) : List String → List String
  | [] => backwards.reverse
  | name :: rest =>
    match backwards with
    | previous :: before =>
      if name = ".." && previous != ".." then resolve before rest
      else resolve (name :: backwards) rest
    | [] => resolve [name] rest

/-- The place that a path leads to; the root counts as a folder of its own. -/
def place (path : FilePath) : List String :=
  let names := resolve [] path.names
  if path.rooted then "/" :: names else names

/-- The path of the folder that a path lies in. -/
def parent (path : FilePath) : FilePath := { path with names := path.names.dropLast }

/-- The path of the temporary file beside a file; none if the path has no name. -/
def temporary? (path : FilePath) : Option FilePath :=
  path.names.getLast?.map fun name => { path with names := path.names.dropLast ++ [name ++ ".tmp"] }

example : (ofText "a//b/./c.json").text = "a/b/c.json" := by decide
example : (ofText "a/../b").place = ["b"] := by decide

end FilePath

end FuzzySearch
