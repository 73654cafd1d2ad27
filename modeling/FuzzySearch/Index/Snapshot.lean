import FuzzySearch.Index.Basic

/-!
# Snapshots of an index

`Index.toValue` writes the keys and records of an index as one value, and `Index.ofValue` reads
such a value.  Numbers in a snapshot may be of any kind that stands for a number, and texts of
fields may be any value, whose text is taken.  The collection itself is not part of a snapshot.

An index is also read from a `Payload`, in which keys and records that were made before may stand
in the place of values that describe them; they are taken as they are.
-/

namespace FuzzySearch

/-! ### Writing -/

/-- A key as a value. -/
def Key.toValue (key : Key Float) : Value :=
  let source := match key.source with
    | .tuple items => .list items
    | v => v
  .mapping
    [("path", .list (key.path.map .text)), ("id", key.id), ("weight", .float key.weight),
      ("src", source)]

/-- An indexed text as a value. -/
def IndexedText.toValue (entry : IndexedText Float) : Value :=
  let nested := entry.nested.toList.map fun k => ("i", .int k)
  .mapping ([("v", .text entry.text), ("n", .float entry.norm)] ++ nested)

/-- An entry as a value. -/
def IndexedField.toValue : IndexedField Float → Value
  | .single entry => entry.toValue
  | .many entries => .list (entries.map IndexedText.toValue)

/-- A record as a value. -/
def Record.toValue (record : Record Float) : Value :=
  match record.body with
  | .text v norm => .mapping [("v", v), ("i", .int record.position), ("n", .float norm)]
  | .fields fields =>
    let entries := fields.map fun (number, entry) => (Decimal.intText number, entry.toValue)
    .mapping [("i", .int record.position), ("$", .mapping entries)]

/-- An index as a value. -/
def Index.toValue (index : Index Float) : Value :=
  .mapping
    [("keys", .list (index.keys.map Key.toValue)),
      ("records", .list (index.records.map Record.toValue))]

/-! ### Reading -/

/-- The key that a value describes. -/
def Key.ofValue (v : Value) : Except SearchError (Key Float) := do
  let segments ← v.required "path"
  let path ← Key.segmentNames segments
  let entries ← v.entries
  let given := (lookup? "id" entries).getD .null
  let id := if given.truth then given else .text (".".intercalate path)
  let weight ← ((lookup? "weight" entries).getD (.float 1.0)).toFloat
  return ⟨path, id, weight, (lookup? "src" entries).getD given⟩

/-- The key of an item in a snapshot: a value that a key is written as, or a key specification. -/
def Key.ofItem : KeySpec Float → Except SearchError (Key Float)
  | .described (.mapping entries) =>
    if (lookup? "path" entries).isSome then ofValue (.mapping entries)
    else ofDescription (.mapping entries)
  | spec => ofSpec spec

/-- The indexed text that a value describes. -/
def IndexedText.ofValue (v : Value) : Except SearchError (IndexedText Float) := do
  let entries ← v.entries
  let text ← v.required "v"
  let norm ← v.required "n"
  let norm ← norm.toFloat
  match (lookup? "i" entries).getD .null with
  | .null => return ⟨text.plain, norm, none⟩
  | nested =>
    let nested ← nested.toInt
    return ⟨text.plain, norm, some nested⟩

/-- The entry that a value describes. -/
def IndexedField.ofValue (v : Value) : Except SearchError (IndexedField Float) :=
  match v with
  | .list items => do
    let entries ← items.mapM IndexedText.ofValue
    return .many entries
  | v => do
    let entry ← IndexedText.ofValue v
    return .single entry

/-- Puts an entry under a key number: in the place it already has, or at the end. -/
def insertField (number : Int) (entry : IndexedField Float) :
    List (Int × IndexedField Float) → List (Int × IndexedField Float)
  | [] => [(number, entry)]
  | (n, e) :: rest =>
    if n = number then (n, entry) :: rest else (n, e) :: insertField number entry rest

/-- The fields that the entries of a mapping describe, added to some fields. -/
def fieldsOfEntries (fields : List (Int × IndexedField Float)) :
    List (String × Value) → Except SearchError (List (Int × IndexedField Float))
  | [] => .ok fields
  | (name, v) :: rest => do
    let entry ← IndexedField.ofValue v
    let number ← (Value.text name).toInt
    fieldsOfEntries (insertField number entry fields) rest

/-- The record that a value describes. -/
def Record.ofValue (v : Value) : Except SearchError (Record Float) := do
  let position ← v.required "i"
  let position ← position.toInt
  let entries ← v.entries
  match lookup? "$" entries with
  | none =>
    let norm ← ((lookup? "n" entries).getD (.float 1.0)).toFloat
    return ⟨position, .text ((lookup? "v" entries).getD .null) norm⟩
  | some fields =>
    let named ← fields.entries
    let fields ← fieldsOfEntries [] named
    return ⟨position, .fields fields⟩

/-- A body whose entries have distinct numbers that can be read back. -/
def RecordBody.Canonical : RecordBody Float → Prop
  | .text _ _ => True
  | .fields entries =>
    (entries.map (·.1)).Nodup ∧
      ∀ entry ∈ entries, (Value.text (Decimal.intText entry.1)).toInt = .ok entry.1

/-- What a record is specified by in a snapshot. -/
inductive RecordSpec where
  /-- A value that describes the record. -/
  | described (v : Value)
  /-- A record that was made before; no two of them are the same object. -/
  | made (record : Record Float) (canonical : record.body.Canonical)

/-- The record of a specification. -/
def Record.ofSpec : RecordSpec → Except SearchError (Record Float)
  | .described v => ofValue v
  | .made record _ => .ok record

/-- What an index is read from. -/
structure Payload where
  /-- What the keys are specified by. -/
  keys : Listing (KeySpec Float)
  /-- What the records are specified by. -/
  records : Listing RecordSpec

/-- The payload that a value is, if it has keys and records. -/
def Payload.ofValue? : Value → Option Payload
  | .mapping entries =>
    match lookup? "keys" entries, lookup? "records" entries with
    | some keys, some records => some ⟨.value keys, .value records⟩
    | _, _ => none
  | _ => none

namespace Index

/-- The index of a payload.  Records that are added later are made with the given functions. -/
def ofPayload (payload : Payload) (extract : Extractor) (normalize : Option (String → String)) :
    Except SearchError (Index Float) := do
  let keys ← payload.keys.elements .described
  let keys ← keys.mapM Key.ofItem
  let records ← payload.records.elements .described
  let records ← records.mapM Record.ofSpec
  if keys.all (·.id.isHashable) then
    let blank : Index Float := empty extract normalize
    return { blank with keys := keys, records := records, created := true }
  else .error .wrongKind

/-- The index that a value describes. -/
def ofValue (v : Value) (extract : Extractor) (normalize : Option (String → String)) :
    Except SearchError (Index Float) :=
  match Payload.ofValue? v with
  | some payload => ofPayload payload extract normalize
  | none => .error .notAnIndex

end Index

end FuzzySearch
