import FuzzySearch.Arithmetic
import FuzzySearch.Value.Path

/-!
# Keys

A key is a path into a record with a weight.  A key is described by a text with dots between the
names of the path, by a list of names, or by a mapping with a `name` and an optional `weight`, which
has to be a positive number.  A key that was made before specifies itself, whatever it is called and
whatever its weight is.  A key store holds keys whose weights are divided by their sum.
-/

namespace FuzzySearch

open ScoreNumber

/-- A path into a record, with a weight. -/
structure Key (α : Type) where
  /-- The names of the path. -/
  path : List String
  /-- What the key is called. -/
  id : Value
  /-- How much a match of the field counts. -/
  weight : α
  /-- The specification that the key was made from. -/
  source : Value

/-- What a key is specified by. -/
inductive KeySpec (α : Type) where
  /-- A value that describes the key. -/
  | described (v : Value)
  /-- The parts of a key that was made before. -/
  | made (path : List String) (id : String) (weight : α) (source : Value)

namespace Key

variable {α : Type} [ScoreNumber α]

/-- The names of the segments of a path, or the failure to go through them. -/
def segmentNames (segments : Value) : Except SearchError (List String) := do
  let items ← segments.elements
  return items.map Value.plain

/-- The path that a name stands for. -/
def pathOf : Value → Except SearchError (List String)
  | .text s => .ok (pathOfText s)
  | v => segmentNames v

/-- What a key of a name is called. -/
def idOf : Value → Except SearchError String
  | .text s => .ok s
  | v => do
    let names ← segmentNames v
    return ".".intercalate names

/-- A weight in a description, unless it is no positive number. -/
def weight? : Value → Option (Except SearchError α)
  | .int n => if n ≤ 0 then none else some ((ofInt? n).elim (.error .tooLarge) .ok)
  | .float x => if x ≤ 0.0 then none else some (.ok (ofFloat x))
  | _ => none

/-- The key of a path with a weight. -/
def ofPath (source : Value) (weight : Except SearchError α) : Except SearchError (Key α) := do
  let path ← pathOf source
  let id ← idOf source
  let weight ← weight
  return ⟨path, .text id, weight, source⟩

/-- The key that a value describes. -/
def ofDescription (v : Value) : Except SearchError (Key α) :=
  match v with
  | .text _ | .list _ | .tuple _ => ofPath v (.ok one)
  | .mapping entries =>
    match lookup? "name" entries with
    | none => .error (.missingProperty "name")
    | some name =>
      match weight? ((lookup? "weight" entries).getD (.int 1)) with
      | none => .error (.invalidWeight name.plain)
      | some weight => ofPath name weight
  | _ => .error (.missingProperty "name")

/-- The key of a specification. -/
def ofSpec : KeySpec α → Except SearchError (Key α)
  | .described v => ofDescription v
  | .made path id weight source => .ok ⟨path, .text id, weight, source⟩

end Key

/-- Keys whose weights are divided by their sum. -/
structure WeightedKeys (α : Type) where
  /-- The keys, in order. -/
  keys : List (Key α)

namespace WeightedKeys

variable {α : Type} [ScoreNumber α]

/-- The store of some keys. -/
def ofKeys (keys : List (Key α)) : WeightedKeys α :=
  let total := sum (keys.map (·.weight))
  ⟨keys.map fun key => { key with weight := key.weight / total }⟩

/-- The store of some key specifications, unless there are weights that sum up to zero. -/
def ofSpecs (specs : List (KeySpec α)) : Except SearchError (WeightedKeys α) := do
  let keys ← specs.mapM Key.ofSpec
  if !keys.isEmpty && isZero (sum (keys.map (·.weight))) then .error .divisionByZero
  else return ofKeys keys

/-- The key that is called so; the last one if there are several. -/
def get? (store : WeightedKeys α) (id : Value) : Option (Key α) :=
  store.keys.reverse.find? fun key => key.id.same id

end WeightedKeys

end FuzzySearch
