import FuzzySearch.CommandLine.Display

/-!
# Printing without styles

On a terminal without styles a text is printed without its marks, and a table as lines whose cells
stand below each other.
-/

namespace FuzzySearch.CommandLine

/-- The styles that texts are marked with. -/
def markNames : List String := ["red", "green", "yellow"]

/-- A text without a mark of style around it. -/
def withoutMarks (s : String) : String :=
  let cs := s.toList
  let opening? := markNames.find? fun name => ("[" ++ name ++ "]").toList.isPrefixOf cs
  match opening? with
  | none => s
  | some name =>
    let inside := cs.drop (name.length + 2)
    let closing := ("[/" ++ name ++ "]").toList
    String.ofList
      (if closing.isSuffixOf inside then inside.take (inside.length - closing.length) else inside)

/-- The text of a cell. -/
def Cell.text : Cell → String
  | .plain s => s
  | .styled s _ => s

/-- The greatest width of the cells of each column. -/
def columnWidths (rows : List (List String)) : List Nat :=
  rows.foldl (fun widths row =>
    let sizes := row.map String.length
    (List.range (max widths.length sizes.length)).map fun k =>
      max (widths.getD k 0) (sizes.getD k 0)) []

/-- A row as a line. -/
def rowLine (widths : List Nat) (row : List String) : String :=
  let cells := row.zip widths |>.map fun (cell, width) =>
    cell ++ String.ofList (List.replicate (width - cell.length) ' ')
  String.ofList (Text.stripEnd ("  ".intercalate cells).toList)

/-- The lines of what is printed. -/
def Printed.lines : Printed → List String
  | .json line => [line]
  | .markup s => [withoutMarks s]
  | .table title header rows =>
    let all := header :: rows.map fun row => row.map Cell.text
    title :: all.map (rowLine (columnWidths all))

example : withoutMarks "[red]no[/red]" = "no" := by decide

end FuzzySearch.CommandLine
