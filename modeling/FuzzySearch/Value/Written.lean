import FuzzySearch.Decimal.Layout
import FuzzySearch.Text.Quoted
import FuzzySearch.Value.Basic

/-!
# The text of a value

`Value.written` shows a value so that its kind can be seen: texts are quoted, lists are in
brackets, mappings in braces.  `Value.plain` shows a text as it is and everything else as written.
`Value.searchText` is the text that is searched: as `plain`, but truth values are in lower case.
-/

namespace FuzzySearch

/-- Floating-point numbers are positional from `0.0001` up to sixteen digits; an exponent has a
sign and two digits. -/
def valueLayout : Decimal.Layout where
  leastPositional := -4
  greatestPositional := 15
  plusSign := true
  exponentWidth := 2

namespace Value

/-- Texts with a comma and a blank between them. -/
def listed (parts : List String) : String := ", ".intercalate parts

/-- One octet inside quotes. -/
def writtenOctet (quote : Char) (octet : UInt8) : List Char :=
  let c := Char.ofNat octet.toNat
  if octet < 127 then Text.quotedChar quote c else '\\' :: 'x' :: Text.hex 2 octet.toNat

/-- Octets between quotes, after a mark. -/
def writtenOctets (bytes : List UInt8) : String :=
  let quote := Text.quoteFor (bytes.map fun octet => Char.ofNat octet.toNat)
  String.ofList ('b' :: quote :: bytes.flatMap (writtenOctet quote) ++ [quote])

mutual

/-- The form of a value that shows its kind. -/
def written : Value → String
  | null => "None"
  | bool b => if b then "True" else "False"
  | int n => Decimal.intText n
  | float x => valueLayout.text x
  | text s => Text.quoted s
  | list items => "[" ++ listed (writtenItems items) ++ "]"
  | tuple [item] => "(" ++ written item ++ ",)"
  | tuple items => "(" ++ listed (writtenItems items) ++ ")"
  | mapping entries => "\x7b" ++ listed (writtenEntries entries) ++ "\x7d"
  | object attributes => "namespace(" ++ listed (writtenAttributes attributes) ++ ")"
  | set [] => "set()"
  | set items => "\x7b" ++ listed (writtenItems items) ++ "\x7d"
  | path s => "PosixPath(" ++ Text.quoted s ++ ")"
  | octets bytes => writtenOctets bytes
  | failure description => "ValueError(" ++ Text.quoted description ++ ")"

/-- The written forms of the items of a list. -/
def writtenItems : List Value → List String
  | [] => []
  | item :: rest => written item :: writtenItems rest

/-- The entries of a mapping, a colon after each name. -/
def writtenEntries : List (String × Value) → List String
  | [] => []
  | (name, value) :: rest => (Text.quoted name ++ ": " ++ written value) :: writtenEntries rest

/-- The attributes of an object, an equals sign after each name. -/
def writtenAttributes : List (String × Value) → List String
  | [] => []
  | (name, value) :: rest => (name ++ "=" ++ written value) :: writtenAttributes rest

end

/-- The form of a value that shows only what it holds.  Integers of any length are written; the limit
`Decimal.longestInteger` on those that are read has a counterpart for writing that is left aside. -/
def plain : Value → String
  | text s => s
  | path s => s
  | failure description => description
  | v => written v

/-- The text that is searched.  Integers of any length have one, as in `plain`: a limit on the length
of those that are written is left aside. -/
def searchText : Value → String
  | text s => s
  | bool b => if b then "true" else "false"
  | v => plain v

/-- The name of the kind of a value. -/
def kindName : Value → String
  | null => "NoneType"
  | bool _ => "bool"
  | int _ => "int"
  | float _ => "float"
  | text _ => "str"
  | list _ => "list"
  | tuple _ => "tuple"
  | mapping _ => "dict"
  | object _ => "SimpleNamespace"
  | set _ => "set"
  | path _ => "PosixPath"
  | octets _ => "bytes"
  | failure _ => "ValueError"

end Value

end FuzzySearch
