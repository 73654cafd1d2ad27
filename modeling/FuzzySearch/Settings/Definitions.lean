import FuzzySearch.Text.Blank
import FuzzySearch.Value.Basic

/-!
# Files of definitions

A file of definitions gives values to names, one definition `NAME=value` after the other.  A value
can stand between quotes and then go over several lines; what follows `#` is a comment.  Lines that
are no definitions are passed over.  In a value `${NAME}` stands for the value of a name, and
`${NAME:-default}` has a default for names without value.
-/

namespace FuzzySearch.Definitions

/-- Whether a character ends a line. -/
def isLineEnd (c : Char) : Bool := c = '\r' || c = '\n'

/-- Whether a character is blank and does not end a line. -/
def isGap (c : Char) : Bool := Text.isBlankChar c && !isLineEnd c

/-- What follows the blank characters of a line. -/
def skipGap (cs : List Char) : List Char := cs.dropWhile isGap

/-- What follows the rest of a line, its end included. -/
def skipLine (cs : List Char) : List Char :=
  match cs.dropWhile fun c => !isLineEnd c with
  | [] => []
  | _ :: rest => rest

/-- What follows a comment and the end of a line, unless something else comes first. -/
def endLine? (cs : List Char) : Option (List Char) :=
  let afterComment := match skipGap cs with
    | '#' :: rest => rest.dropWhile fun c => !isLineEnd c
    | _ => cs
  match skipGap afterComment with
  | [] => some []
  | '\r' :: '\n' :: rest => some rest
  | c :: rest => if isLineEnd c then some rest else none

/-! ### Names and values -/

/-- What follows the word `export` and a gap, or all of the text. -/
def skipExport (cs : List Char) : List Char :=
  let word := "export".toList
  if word.isPrefixOf cs && ((cs.drop word.length).head?.any isGap) then
    skipGap (cs.drop word.length)
  else cs

/-- The characters up to a quote and what follows the quote, unless there is none.  A quote after a
backslash counts only if no other quote follows. -/
def untilQuote? (quote : Char) : List Char → Option (List Char × List Char)
  | [] => none
  | '\\' :: c :: rest =>
    if c = quote then
      match untilQuote? quote rest with
      | some (inside, after) => some ('\\' :: c :: inside, after)
      | none => some (['\\'], rest)
    else (untilQuote? quote (c :: rest)).map fun (inside, after) => ('\\' :: inside, after)
  | c :: rest =>
    if c = quote then some ([], rest)
    else (untilQuote? quote rest).map fun (inside, after) => (c :: inside, after)

/-- The characters that a backslash and a letter stand for between double quotes. -/
def doubleEscapes : List (Char × Char) :=
  [('\\', '\\'), ('\x27', '\x27'), ('"', '"'), ('a', '\x07'), ('b', '\x08'), ('f', '\x0c'),
    ('n', '\n'), ('r', '\r'), ('t', '\t'), ('v', '\x0b')]

/-- The characters that a backslash and a letter stand for between single quotes. -/
def singleEscapes : List (Char × Char) := [('\\', '\\'), ('\x27', '\x27')]

/-- A text with its escapes replaced. -/
def unescape (escapes : List (Char × Char)) : List Char → List Char
  | '\\' :: c :: rest =>
    match escapes.find? (·.1 == c) with
    | some (_, meant) => meant :: unescape escapes rest
    | none => '\\' :: unescape escapes (c :: rest)
  | c :: rest => c :: unescape escapes rest
  | [] => []

/-- What stands before a comment; a comment begins with a blank character and `#`. -/
def beforeComment : List Char → List Char
  | [] => []
  | c :: rest =>
    if Text.isBlankChar c && (rest.dropWhile Text.isBlankChar).head? == some '#' then []
    else c :: beforeComment rest

/-- The name at the front, if there is one, and the rest; none if something else comes first. -/
def name? (cs : List Char) : Option (Option String × List Char) :=
  match cs with
  | '#' :: _ => some (none, cs)
  | '\x27' :: rest =>
    match rest.takeWhile (· ≠ '\x27'), rest.dropWhile (· ≠ '\x27') with
    | [], _ => none
    | inside, _ :: after => some (some (String.ofList inside), after)
    | _, [] => none
  | cs =>
    let inName (c : Char) : Bool := c != '=' && c != '#' && !Text.isBlankChar c
    match cs.takeWhile inName with
    | [] => none
    | name => some (some (String.ofList name), cs.dropWhile inName)

/-- The value at the front and the rest. -/
def value? (cs : List Char) : Option (List Char × List Char) :=
  match cs with
  | '\x27' :: rest =>
    (untilQuote? '\x27' rest).map fun (inside, after) => (unescape singleEscapes inside, after)
  | '"' :: rest =>
    (untilQuote? '"' rest).map fun (inside, after) => (unescape doubleEscapes inside, after)
  | cs =>
    let line := cs.takeWhile fun c => !isLineEnd c
    some (Text.stripEnd (beforeComment line), cs.dropWhile fun c => !isLineEnd c)

/-! ### Definitions -/

/-- A name and its value, if it has one. -/
structure Definition where
  /-- The name. -/
  name : String
  /-- The value; a name without an equals sign has none. -/
  value : Option (List Char)

/-- What was read at the front of a text: a definition, if there is one, and the rest. -/
structure Found where
  /-- The definition. -/
  definition : Option Definition
  /-- The rest of the text. -/
  rest : List Char

/-- What is found after a name. -/
def afterName (name : Option String) (cs : List Char) : Found :=
  match skipGap cs with
  | '=' :: rest =>
    match value? (skipGap rest) with
    | none => ⟨none, skipLine (skipGap rest)⟩
    | some (value, rest) =>
      match endLine? rest with
      | some rest => ⟨name.map (⟨·, some value⟩), rest⟩
      | none => ⟨none, skipLine rest⟩
  | rest =>
    match endLine? rest with
    | some rest => ⟨name.map (⟨·, none⟩), rest⟩
    | none => ⟨none, skipLine rest⟩

/-- What is found at the front of a text. -/
def first (cs : List Char) : Found :=
  match skipExport (cs.dropWhile Text.isBlankChar) with
  | [] => ⟨none, []⟩
  | cs =>
    match name? cs with
    | some (name, rest) => afterName name rest
    | none => ⟨none, skipLine cs⟩

/-- The definitions of a text, at most `fuel` of them. -/
def readUpTo : (fuel : Nat) → List Char → List Definition
  | 0, _ => []
  | _, [] => []
  | fuel + 1, cs =>
    let found := first cs
    found.definition.toList ++ readUpTo fuel found.rest

/-- The definitions of a text.  Each of them takes at least one character. -/
def read (cs : List Char) : List Definition := readUpTo cs.length cs

/-! ### References -/

/-- A reference at the front of a text: the name, the default and the number of characters. -/
def reference? (cs : List Char) : Option (String × List Char × Nat) :=
  match cs with
  | '$' :: '\x7b' :: rest =>
    let name := rest.takeWhile fun c => c != '\x7d' && c != ':'
    match rest.drop name.length with
    | '\x7d' :: _ => some (String.ofList name, [], name.length + 3)
    | ':' :: '-' :: rest =>
      let default := rest.takeWhile (· != '\x7d')
      if default.length < rest.length then
        some (String.ofList name, default, name.length + default.length + 5)
      else none
    | _ => none
  | _ => none

/-- A text with its references replaced by values, the first `skip` characters left out. -/
def expand (known : String → Option (List Char)) : (skip : Nat) → List Char → List Char
  | _, [] => []
  | skip + 1, _ :: rest => expand known skip rest
  | 0, c :: rest =>
    match reference? (c :: rest) with
    | some (name, default, size) => (known name).getD default ++ expand known (size - 1) rest
    | none => c :: expand known 0 rest

/-- The values of all names, each with the values before it and those of the environment. -/
def resolve (environment : List (String × String)) (definitions : List Definition) :
    List (String × Option (List Char)) :=
  definitions.foldl (fun done d =>
    let known (name : String) : Option (List Char) :=
      match lookup? name done with
      | some value => some (value.getD [])
      | none => (lookup? name environment).map String.toList
    insertEntry d.name (d.value.map (expand known 0)) done) []

/-- The names and values that a text defines. -/
def ofText (environment : List (String × String)) (s : String) : List (String × String) :=
  (resolve environment (read s.toList)).filterMap fun (name, value) =>
    value.map fun value => (name, String.ofList value)

example : ofText [] "A=1 # one\nexport B = 'x\\'y'\nC=${A}-${D:-z}\n?\nE" =
    [("A", "1"), ("B", "x'y"), ("C", "1-z")] := by decide +kernel

end FuzzySearch.Definitions
