import FuzzySearch.Index.Norm
import FuzzySearch.Key
import FuzzySearch.Text.Case

/-!
# The index of a collection

An index holds, for each record of a collection, the texts that are searched with their norms.  A
collection of texts has one text per record; any other collection has one entry per key, which is a
single text or the texts found in a list.  The first record decides which of the two it is.

Records that are blank texts are left out, so a record of the index carries the position of its
document.  The index is kept up to date by `Index.add` and `Index.removeAt`.
-/

namespace FuzzySearch

/-- A text that is searched. -/
structure IndexedText (α : Type) where
  /-- The text. -/
  text : String
  /-- Its norm. -/
  norm : α
  /-- Its position in the list it comes from, if it comes from a list. -/
  nested : Option Int

/-- What an index holds for one key of a record. -/
inductive IndexedField (α : Type) where
  | single (entry : IndexedText α)
  | many (entries : List (IndexedText α))

namespace IndexedField

/-- The texts of an entry. -/
def texts {α : Type} : IndexedField α → List (IndexedText α)
  | single entry => [entry]
  | many entries => entries

end IndexedField

/-- What an index holds for one document. -/
inductive RecordBody (α : Type) where
  /-- A document that is a text; another value only if the record was read from a snapshot. -/
  | text (value : Value) (norm : α)
  /-- The entries of a document, by the number of their key. -/
  | fields (entries : List (Int × IndexedField α))

/-- A record of an index. -/
structure Record (α : Type) where
  /-- The position of the document. -/
  position : Int
  /-- What is searched. -/
  body : RecordBody α

/-- The record with its position moved down if it lies behind a position. -/
def Record.shift {α : Type} (position : Int) (record : Record α) : Record α :=
  if position < record.position then { record with position := record.position - 1 } else record

/-- The index of a collection. -/
structure Index (α : Type) where
  /-- The keys, in order. -/
  keys : List (Key α)
  /-- The records, in the order in which they were added. -/
  records : List (Record α)
  /-- The collection that records are made from. -/
  sources : Value
  /-- Whether the records were made. -/
  created : Bool
  /-- How field values are found. -/
  extract : Extractor
  /-- A change that texts undergo before they are indexed. -/
  normalize : Option (String → String)

/-- What a caller gives as an index. -/
inductive GivenIndex (α : Type) where
  /-- Nothing. -/
  | absent
  | index (index : Index α)
  /-- Something that is no index. -/
  | other

namespace Index

variable {α : Type}

/-- An index without keys and records. -/
def empty (extract : Extractor) (normalize : Option (String → String)) : Index α :=
  { keys := [], records := [], sources := .list [], created := false,
    extract := extract, normalize := normalize }

/-- The number of records. -/
def size (index : Index α) : Nat := index.records.length

/-- The number of the key that is called so; the last one if there are several. -/
def keyNumber? (index : Index α) (id : Value) : Option Nat :=
  let fromEnd := index.keys.reverse.findIdx? fun key => key.id.same id
  fromEnd.map fun k => index.keys.length - 1 - k

/-- The entry under a key number. -/
def entry? (fields : List (Int × IndexedField α)) (number : Int) : Option (IndexedField α) :=
  (fields.find? (·.1 == number)).map (·.2)

/-- The entry of a record under a key that is called so. -/
def entryOf? (index : Index α) (fields : List (Int × IndexedField α)) (id : Value) :
    Option (IndexedField α) := do
  let number ← index.keyNumber? id
  entry? fields number

/-! ### Records of documents -/

/-- The text under which a value is indexed, unless it has none or a blank one. -/
def indexable? (index : Index α) (v : Value) : Option String :=
  if v.isScalar then
    let text := (index.normalize.getD id) v.searchText
    if Text.isBlank text.toList then none else some text
  else none

mutual

/-- The values inside a list that are no lists, each with its position in its own list. -/
def leavesOf (position : Int) : Value → List (Int × Value)
  | .list items | .tuple items => leavesFrom 0 items
  | .null => []
  | v => [(position, v)]

/-- The leaves of the items of a list from a position on. -/
def leavesFrom (position : Int) : List Value → List (Int × Value)
  | [] => []
  | item :: rest => leavesOf position item ++ leavesFrom (position + 1) rest

end

variable [Weighting α]

/-- A text as it is indexed. -/
def indexed (text : String) (nested : Option Int) : IndexedText α :=
  ⟨text, textNorm text, nested⟩

/-- The entry of a field value, if there is anything to index. -/
def fieldEntry? (index : Index α) (v : Value) : Option (IndexedField α) :=
  match v with
  | .null => none
  | .list items | .tuple items =>
    some (.many ((leavesFrom 0 items).filterMap fun (position, leaf) =>
      (index.indexable? leaf).map fun text => indexed text (some position)))
  | v => (index.indexable? v).map fun text => .single (indexed text none)

/-- The entries of a document for keys numbered from `number` on. -/
def fieldsFrom (index : Index α) (doc : Value) :
    (number : Int) → List (Key α) → Except SearchError (List (Int × IndexedField α))
  | _, [] => .ok []
  | number, key :: rest => do
    let v ← index.extract doc key.path
    let others ← fieldsFrom index doc (number + 1) rest
    match index.fieldEntry? v with
    | some entry => return (number, entry) :: others
    | none => return others

/-- The record of a document that is indexed as a text, unless it is blank. -/
def textRecord? (index : Index α) (doc : Value) (position : Int) : Option (Record α) :=
  (index.indexable? doc).map fun text => ⟨position, .text (.text text) (textNorm text)⟩

/-- The record of a document that is indexed by its fields. -/
def fieldsRecord (index : Index α) (doc : Value) (position : Int) :
    Except SearchError (Record α) := do
  let fields ← index.fieldsFrom doc 0 index.keys
  return ⟨position, .fields fields⟩

/-! ### Building and maintenance -/

/-- The documents of a collection, and whether they are indexed as texts. -/
def documents (sources : Value) : Except SearchError (Bool × List Value) :=
  match sources with
  | .mapping _ => .error .missingEntry
  | .list docs | .tuple docs =>
    match docs with
    | .text _ :: _ => .ok (true, docs)
    | _ => .ok (false, docs)
  | .text _ => (sources.elements).map fun docs => (true, docs)
  | .octets _ => (sources.elements).map fun docs => (false, docs)
  | _ => .error .wrongKind

/-- The index with the records of documents from a position on added as fields, up to the first
document that fails. -/
def addFieldsFrom (index : Index α) (position : Int) (made : List (Record α)) :
    List Value → List (Record α) × Option SearchError
  | [] => (made.reverse, none)
  | doc :: rest =>
    match index.fieldsRecord doc position with
    | .ok record => addFieldsFrom index (position + 1) (record :: made) rest
    | .error e => (made.reverse, some e)

/-- Makes the records of the collection, once.  A failure leaves the records made before it. -/
def fill (index : Index α) : Index α × Option SearchError :=
  if index.created || !index.sources.truth then (index, none)
  else
    let index := { index with created := true }
    match documents index.sources with
    | .error e => (index, some e)
    | .ok (true, docs) =>
      let made := docs.zipIdx.filterMap fun (doc, k) => index.textRecord? doc k
      ({ index with records := index.records ++ made }, none)
    | .ok (false, docs) =>
      let (made, failure) := index.addFieldsFrom 0 [] docs
      ({ index with records := index.records ++ made }, failure)

/-- Adds the record of a document at a position. -/
def add (index : Index α) (doc : Value) (position : Int) : Except SearchError (Index α) :=
  match doc with
  | .text _ =>
    .ok { index with records := index.records ++ (index.textRecord? doc position).toList }
  | _ => do
    let record ← index.fieldsRecord doc position
    return { index with records := index.records ++ [record] }

/-- Removes the record at a position; later records move down. -/
def removeAt (index : Index α) (position : Int) : Except SearchError (Index α) :=
  if position < 0 then .error (.negativePosition position)
  else
    let kept := index.records.filter (·.position ≠ position)
    .ok { index with records := kept.map (Record.shift position) }

/-- The index of a collection for some keys. -/
def build (keys : List (Key α)) (sources : Value) (extract : Extractor)
    (normalize : Option (String → String)) : Except SearchError (Index α) :=
  let blank : Index α := empty extract normalize
  match fill { blank with keys := keys, sources := sources } with
  | (index, none) => .ok index
  | (_, some e) => .error e

/-- The index of a collection for some key specifications. -/
def ofSpecs (specs : List (KeySpec α)) (sources : Value) (extract : Extractor)
    (normalize : Option (String → String)) : Except SearchError (Index α) := do
  let keys ← specs.mapM Key.ofSpec
  build keys sources extract normalize

end Index

end FuzzySearch
