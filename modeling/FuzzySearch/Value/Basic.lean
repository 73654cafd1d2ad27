/-!
# Values of a record

A collection holds values of any shape.  A `Value` is a null, a truth value, an integer, a
floating-point number, a text, a list or tuple of values, a mapping from names to values in a fixed
order, or an object with attributes.  The last four shapes occur only in what is logged.
-/

namespace FuzzySearch

/-- A value of a record. -/
inductive Value where
  | null
  | bool (b : Bool)
  | int (n : Int)
  | float (x : Float)
  | text (s : String)
  | list (items : List Value)
  | tuple (items : List Value)
  /-- A mapping; names are distinct and their order is kept. -/
  | mapping (entries : List (String × Value))
  /-- An object, which is no mapping: its attributes can only be looked up. -/
  | object (attributes : List (String × Value))
  /-- A set, in some order. -/
  | set (items : List Value)
  /-- The path of a file. -/
  | path (s : String)
  /-- Raw octets. -/
  | octets (bytes : List UInt8)
  /-- A failure with its description. -/
  | failure (description : String)
  deriving Inhabited

/-- The value under a name in a list of named values. -/
def lookup? {β : Type} (name : String) (entries : List (String × β)) : Option β :=
  (entries.find? (·.1 == name)).map (·.2)

/-- Puts a value under a name: in the place it already has, or at the end. -/
def insertEntry {β : Type} (name : String) (value : β) :
    List (String × β) → List (String × β)
  | [] => [(name, value)]
  | (n, v) :: rest => if n == name then (n, value) :: rest else (n, v) :: insertEntry name value rest

@[simp] theorem lookup?_nil {β : Type} (name : String) :
    lookup? name ([] : List (String × β)) = none := rfl

/-- What was put under a name is found there. -/
theorem lookup?_insertEntry {β : Type} (name : String) (value : β) (entries : List (String × β)) :
    lookup? name (insertEntry name value entries) = some value := by
  induction entries with
  | nil => simp [insertEntry, lookup?]
  | cons entry rest ih =>
    obtain ⟨n, v⟩ := entry
    by_cases h : n = name
    · simp [insertEntry, lookup?, h]
    · simp only [insertEntry, beq_iff_eq, h, if_false]
      simpa [lookup?, h] using ih

/-- What was put under a name changes nothing under another one. -/
theorem lookup?_insertEntry_of_ne {β : Type} {name other : String} (h : other ≠ name) (value : β)
    (entries : List (String × β)) :
    lookup? other (insertEntry name value entries) = lookup? other entries := by
  induction entries with
  | nil => simp [insertEntry, lookup?, Ne.symm h]
  | cons entry rest ih =>
    obtain ⟨n, v⟩ := entry
    unfold lookup? at ih ⊢
    rw [insertEntry]
    by_cases hn : n = name
    · rw [if_pos (beq_iff_eq.mpr hn), List.find?_cons_of_neg, List.find?_cons_of_neg]
      all_goals
        rw [beq_iff_eq, hn]
        exact Ne.symm h
    · rw [if_neg (by simpa using hn), List.find?_cons, List.find?_cons]
      cases n == other with
      | true => rfl
      | false => exact ih

namespace Value

/-- Whether a value is a single text, number or truth value. -/
def isScalar : Value → Bool
  | text _ | int _ | float _ | bool _ => true
  | _ => false

/-- The items of a list or tuple. -/
def items? : Value → Option (List Value)
  | list items | tuple items => some items
  | _ => none

/-- Whether a value counts as true: numbers other than zero, and what is not null or empty. -/
def truth : Value → Bool
  | null => false
  | bool b => b
  | int n => n != 0
  | float x => x != 0.0
  | text s => !s.isEmpty
  | list items | tuple items | set items => !items.isEmpty
  | mapping entries => !entries.isEmpty
  | octets bytes => !bytes.isEmpty
  | object _ | path _ | failure _ => true

/-- The attributes or entries are looked up by name; nothing else has a member. -/
def member? (name : String) : Value → Option Value
  | mapping entries | object entries => lookup? name entries
  | _ => none

end Value

end FuzzySearch
