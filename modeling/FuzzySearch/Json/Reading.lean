import FuzzySearch.Json.Token

/-!
# Reading JSON

`read?` gives the value that a JSON text describes.  The tokens are taken one by one; `Frame`s hold
the lists and mappings that are still open.  A name that occurs twice in a mapping keeps its first
place and its last value.
-/

namespace FuzzySearch.Json

/-- A list or mapping that is still open. -/
inductive Frame where
  /-- A list with its items so far, the last one first. -/
  | list (backwards : List Value)
  /-- A mapping with its entries so far. -/
  | mapping (entries : List (String × Value))
  /-- A mapping after a name. -/
  | entry (entries : List (String × Value)) (name : String)

/-- What may come next. -/
inductive Expected where
  /-- A value. -/
  | value
  /-- A value or the end of the list. -/
  | valueOrEnd
  /-- A name. -/
  | name
  /-- A name or the end of the mapping. -/
  | nameOrEnd
  /-- A colon. -/
  | colon
  /-- A comma or the end of the list or mapping. -/
  | commaOrEnd
  /-- Nothing: this is the value. -/
  | nothing (v : Value)

/-- The state of reading. -/
structure Reader where
  /-- What is open, the innermost first. -/
  frames : List Frame
  /-- What may come next. -/
  expected : Expected

/-- How deep lists and mappings may be nested. -/
def deepest : Nat := 1024

namespace Reader

/-- The state after a complete value. -/
def deliver (v : Value) : List Frame → Reader
  | .list backwards :: frames => ⟨.list (v :: backwards) :: frames, .commaOrEnd⟩
  | .entry entries name :: frames => ⟨.mapping (insertEntry name v entries) :: frames, .commaOrEnd⟩
  | frames => ⟨frames, .nothing v⟩

/-- The state after a list or mapping was opened, unless it is nested too deep. -/
def enter (reader : Reader) (frame : Frame) (expected : Expected) : Option Reader :=
  if reader.frames.length < deepest then some ⟨frame :: reader.frames, expected⟩ else none

/-- The state after the beginning of a value. -/
def beginValue (reader : Reader) : Token → Option Reader
  | .openList => reader.enter (.list []) .valueOrEnd
  | .openMapping => reader.enter (.mapping []) .nameOrEnd
  | .text s => some (deliver (.text s) reader.frames)
  | .scalar v => some (deliver v reader.frames)
  | _ => none

/-- The state after the end of the innermost list or mapping. -/
def close (reader : Reader) : Token → Option Reader
  | .closeList =>
    match reader.frames with
    | .list backwards :: frames => some (deliver (.list backwards.reverse) frames)
    | _ => none
  | .closeMapping =>
    match reader.frames with
    | .mapping entries :: frames => some (deliver (.mapping entries) frames)
    | _ => none
  | _ => none

/-- The state after a comma. -/
def next (reader : Reader) : Option Reader :=
  match reader.frames with
  | .list _ :: _ => some { reader with expected := .value }
  | .mapping _ :: _ => some { reader with expected := .name }
  | _ => none

/-- The state after the name of an entry. -/
def beginEntry (reader : Reader) (name : String) : Option Reader :=
  match reader.frames with
  | .mapping entries :: frames => some ⟨.entry entries name :: frames, .colon⟩
  | _ => none

/-- The state after one more token. -/
def step (reader : Reader) (token : Token) : Option Reader :=
  match reader.expected, token with
  | .value, token => reader.beginValue token
  | .valueOrEnd, .closeList => reader.close .closeList
  | .valueOrEnd, token => reader.beginValue token
  | .name, .text s => reader.beginEntry s
  | .nameOrEnd, .text s => reader.beginEntry s
  | .nameOrEnd, .closeMapping => reader.close .closeMapping
  | .colon, .colon => some { reader with expected := .value }
  | .commaOrEnd, .comma => reader.next
  | .commaOrEnd, token => reader.close token
  | _, _ => none

end Reader

/-- The value of a JSON text. -/
def read? (s : String) : Option Value := do
  let tokens ← tokens? s.toList
  let reader ← tokens.foldlM Reader.step ⟨[], .value⟩
  match reader.expected with
  | .nothing v => some v
  | _ => none

end FuzzySearch.Json
