import FuzzySearch.Decimal.Layout
import FuzzySearch.Error
import FuzzySearch.Json.Token
import FuzzySearch.Text.Quoted

/-!
# Writing JSON

`write` gives the shortest JSON text of a value: no blanks, and nothing escaped that need not be.
What JSON has no notation for is refused, numbers that are not finite excepted, which are written
as null.
-/

namespace FuzzySearch.Json

/-- Floating-point numbers are positional from `0.00001` up to sixteen digits; an exponent has no
superfluous characters. -/
def layout : Decimal.Layout where
  leastPositional := -5
  greatestPositional := 15
  plusSign := false
  exponentWidth := 1

/-- A character inside a text. -/
def textChar (c : Char) : List Char :=
  if c = '"' || c = '\\' then ['\\', c]
  else if c.toNat < 32 then
    match shortEscapes.find? (·.2 == c) with
    | some (letter, _) => ['\\', letter]
    | none => '\\' :: 'u' :: Text.hex 4 c.toNat
  else [c]

/-- A text between quotes. -/
def quoted (s : String) : String :=
  String.ofList ('"' :: s.toList.flatMap textChar ++ ['"'])

/-- Texts with commas between them. -/
def listed (parts : List String) : String := ",".intercalate parts

/-- How deep lists and mappings may be nested. -/
def deepestWritten : Nat := 254

mutual

/-- The JSON text of a value inside `level` lists and mappings. -/
def writeAt (level : Nat) : Value → Except SearchError String
  | .null => .ok "null"
  | .bool b => .ok (if b then "true" else "false")
  | .int n => if isMachineInteger n then .ok (Decimal.intText n) else .error .wrongKind
  | .float x => .ok (if x.isNaN || x.isInf then "null" else layout.text x)
  | .text s => .ok (quoted s)
  | .list items | .tuple items =>
    if items.isEmpty then .ok "[]"
    else if deepestWritten ≤ level then .error .wrongKind
    else do
      let parts ← writeItems (level + 1) items
      return "[" ++ listed parts ++ "]"
  | .mapping entries =>
    if deepestWritten ≤ level then .error .wrongKind
    else do
      let parts ← writeEntries (level + 1) entries
      return "\x7b" ++ listed parts ++ "\x7d"
  | _ => .error .wrongKind

/-- The JSON texts of the items of a list. -/
def writeItems (level : Nat) : List Value → Except SearchError (List String)
  | [] => .ok []
  | item :: rest => do
    let part ← writeAt level item
    let parts ← writeItems level rest
    return part :: parts

/-- The JSON texts of the entries of a mapping. -/
def writeEntries (level : Nat) : List (String × Value) → Except SearchError (List String)
  | [] => .ok []
  | (name, v) :: rest => do
    let part ← writeAt level v
    let parts ← writeEntries level rest
    return (quoted name ++ ":" ++ part) :: parts

end

/-- The JSON text of a value. -/
def write (v : Value) : Except SearchError String := writeAt 0 v

end FuzzySearch.Json
