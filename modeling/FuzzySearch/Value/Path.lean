import FuzzySearch.Error
import FuzzySearch.Text.Split
import FuzzySearch.Value.Number
import FuzzySearch.Value.Size
import FuzzySearch.Value.Written

/-!
# Field values

`valueAt v path` follows a path of names into a record.  Mappings and objects are entered by name;
every list or tuple on the way forks the walk into its items.  What stands at the end of the path
gives texts: a list of texts when a list was crossed on the way, a single text otherwise.

The walk keeps a stack of the values that are still to be visited, so its depth does not matter.
-/

namespace FuzzySearch

/-- What is found at the end of a path. -/
inductive PathValue where
  | nothing
  | single (text : String)
  | many (texts : List String)
  deriving DecidableEq, Repr

namespace PathValue

/-- What was found, as a value. -/
def toValue : PathValue → Value
  | nothing => .null
  | single text => .text text
  | many texts => .list (texts.map .text)

end PathValue

/-- A function that finds the value at the end of a path. -/
abbrev Extractor := Value → List String → Except SearchError Value

/-- The names of a path whose parts have dots between them. -/
def pathOfText (s : String) : List String := Text.split '.' s

/-- What a visit of one value leads to. -/
inductive Visit where
  /-- Nothing is found. -/
  | nothing
  /-- A text is found. -/
  | found (text : String)
  /-- The items of a list are to be visited; `crossed` tells whether the path goes on or ended just
  before the list. -/
  | fork (items : List Value) (path : List String) (crossed : Bool)
  /-- Another value is to be visited. -/
  | enter (v : Value) (path : List String)

/-- Visits a value with a path still to follow. -/
def visit (v : Value) : List String → Visit
  | [] =>
    if v.isScalar then .found v.searchText
    else
      match v.items? with
      | some items => .fork items [] false
      | none => .nothing
  | name :: path =>
    match v.member? name with
    | none | some .null => .nothing
    | some child =>
      if path.isEmpty && child.isScalar then .found child.searchText
      else
        match child.items? with
        | some items => .fork items path true
        | none => .enter child path

/-- The number of values inside the values of a stack. -/
def stackSize : List (Value × List String) → Nat
  | [] => 0
  | (v, _) :: rest => v.size + stackSize rest

theorem stackSize_append (a b : List (Value × List String)) :
    stackSize (a ++ b) = stackSize a + stackSize b := by
  induction a with
  | nil => simp [stackSize]
  | cons entry rest ih => simp only [List.cons_append, stackSize, ih]; omega

theorem stackSize_map (items : List Value) (path : List String) :
    stackSize (items.map fun item => (item, path)) = Value.sizes items := by
  induction items with
  | nil => rfl
  | cons item rest ih => simp only [List.map_cons, stackSize, Value.sizes, ih]

/-- What is still to be visited is smaller than what was visited. -/
theorem sizes_lt_of_visit_fork {v : Value} {path rest : List String} {items : List Value}
    {crossed : Bool} (h : visit v path = .fork items rest crossed) :
    Value.sizes items < v.size := by
  unfold visit at h
  split at h
  · split at h
    · cases h
    · split at h
      · next hitems =>
        cases h
        exact Value.size_lt_of_items? hitems
      · cases h
  · split at h
    · cases h
    · cases h
    · next child _ hchild =>
      split at h
      · cases h
      · split at h
        · next hitems =>
          cases h
          exact Nat.lt_trans (Value.size_lt_of_items? hitems) (Value.size_lt_of_member? hchild)
        · cases h

theorem size_lt_of_visit_enter {v w : Value} {path rest : List String}
    (h : visit v path = .enter w rest) : w.size < v.size := by
  unfold visit at h
  split at h
  · split at h
    · cases h
    · split at h <;> cases h
  · split at h
    · cases h
    · cases h
    · next child _ hchild =>
      split at h
      · cases h
      · split at h
        · cases h
        · cases h
          exact Value.size_lt_of_member? hchild

/-- Visits the values of a stack, the first one first.  `found` are the texts found so far, the last
one first, and `crossed` tells whether a list was crossed. -/
def walkStack (stack : List (Value × List String)) (found : List String) (crossed : Bool) :
    List String × Bool :=
  match stack with
  | [] => (found.reverse, crossed)
  | (v, path) :: rest =>
    match _h : visit v path with
    | .nothing => walkStack rest found crossed
    | .found text => walkStack rest (text :: found) crossed
    | .fork items path' now =>
      walkStack (items.map (fun item => (item, path')) ++ rest) found (crossed || now)
    | .enter child path' => walkStack ((child, path') :: rest) found crossed
termination_by stackSize stack
decreasing_by
  · have := v.size_pos
    simp only [stackSize]
    omega
  · have := v.size_pos
    simp only [stackSize]
    omega
  · have := sizes_lt_of_visit_fork _h
    simp only [stackSize, stackSize_append, stackSize_map]
    omega
  · have := size_lt_of_visit_enter _h
    simp only [stackSize]
    omega

/-- The field value made of the texts that were found. -/
def pathValue (texts : List String) (crossed : Bool) : PathValue :=
  if crossed then .many texts
  else
    match texts with
    | [] => .nothing
    | text :: _ => .single text

/-- What is found at the end of a path. -/
def valueAt (v : Value) (path : List String) : PathValue :=
  let (texts, crossed) := walkStack [(v, path)] [] false
  pathValue texts crossed

/-- The extractor in use when no other is given. -/
def standardExtractor : Extractor := fun v path => .ok (valueAt v path).toValue

/-! ### Paths with segments that are no names -/

/-- The values that are reached by following names from some values, lists being forked, and whether
a list was crossed. -/
def reached : List String → List Value → List Value × Bool
  | [], vs => (vs, false)
  | name :: path, vs =>
    let children := vs.filterMap (·.member? name)
    let (ends, crossed) :=
      reached path (children.flatMap fun child => (child.items?).getD [child])
    (ends, crossed || children.any (·.items?.isSome))

/-- Whether looking up a segment that is no name fails. -/
def refusesSegment (segment : Value) : Value → Bool
  | .mapping _ => !segment.isHashable
  | .object _ => true
  | _ => false

/-- The names in front of the first segment that is no name, and that segment. -/
def splitSegments : List Value → List String × Option Value
  | [] => ([], none)
  | .text name :: rest =>
    let (names, odd) := splitSegments rest
    (name :: names, odd)
  | segment :: _ => ([], some segment)

/-- What is found at the end of a path whose segments may be any values.  No mapping has an entry
under a segment that is no name, and some values refuse to be asked for it. -/
def valueAtSegments (v : Value) (segments : List Value) : Except SearchError PathValue :=
  match splitSegments segments with
  | (names, none) => .ok (valueAt v names)
  | (names, some segment) =>
    let (ends, crossed) := reached names [v]
    if ends.any (refusesSegment segment) then .error .wrongKind
    else .ok (pathValue [] crossed)

end FuzzySearch
