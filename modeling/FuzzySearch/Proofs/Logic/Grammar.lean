import FuzzySearch.Logic.Query
import FuzzySearch.Proofs.Calls

/-!
# The grammar of logical queries

A `LogicalQuery` is a query as it is meant: patterns for one or more fields, a pattern for a path,
or a list of queries of which all or any have to hold.  `toValue` is the mapping that it is written
as, and every such mapping compiles (`compile_toValue`): a query inside another to `inner`, where a
single field is a leaf of its own, and a whole query to `outer`, where even a single field or path
stands under a node that demands all its children.
-/

namespace FuzzySearch

variable {α : Type}

/-! ### Queries -/

/-- The name of a field: any text but the three that mean something else in a query. -/
structure FieldName where
  text : String
  ne_and : text ≠ "$and"
  ne_or : text ≠ "$or"
  ne_path : text ≠ "$path"

/-- A path to a field that is not empty: its names with dots between them, or one by one. -/
inductive FieldPath where
  | dotted (path : String) (nonempty : path ≠ "")
  | list (names : List String) (nonempty : names ≠ [])
  | tuple (names : List String) (nonempty : names ≠ [])

namespace FieldPath

def toValue : FieldPath → Value
  | dotted path _ => .text path
  | list names _ => .list (names.map .text)
  | tuple names _ => .tuple (names.map .text)

/-- What the key of the field is called. -/
def keyName : FieldPath → String
  | dotted path _ => path
  | list names _ | tuple names _ => ".".intercalate names

theorem truth_toValue (path : FieldPath) : path.toValue.truth = true := by
  cases path with
  | dotted path h => simpa [toValue, Value.truth] using h
  | list names h => simpa [toValue, Value.truth] using h
  | tuple names h => simpa [toValue, Value.truth] using h

theorem idOf_toValue (path : FieldPath) : Key.idOf path.toValue = .ok path.keyName := by
  have hplain : ∀ names : List String, (names.map Value.text).map Value.plain = names := by
    intro names
    rw [List.map_map]
    exact List.map_id names
  cases path with
  | dotted path h => rfl
  | list names h => exact congrArg (fun ns => Except.ok (".".intercalate ns)) (hplain names)
  | tuple names h => exact congrArg (fun ns => Except.ok (".".intercalate ns)) (hplain names)

end FieldPath

/-- A logical query. -/
inductive LogicalQuery where
  /-- Patterns for one or more fields. -/
  | fields (first : FieldName × String) (rest : List (FieldName × String))
  /-- A pattern for a path, which can be written before or after the path. -/
  | path (path : FieldPath) (pattern : String) (patternFirst : Bool)
  | all (queries : List LogicalQuery)
  | any (queries : List LogicalQuery)

namespace LogicalQuery

/-- The entry of a mapping that gives the pattern of a field. -/
def fieldEntry (field : FieldName × String) : String × Value := (field.1.text, .text field.2)

/-- The entries of a mapping that gives the pattern of a path. -/
def pathEntries (path : FieldPath) (pattern : String) (patternFirst : Bool) :
    List (String × Value) :=
  if patternFirst then [("$val", .text pattern), ("$path", path.toValue)]
  else [("$path", path.toValue), ("$val", .text pattern)]

mutual

/-- The mapping that a query is written as. -/
def toValue : LogicalQuery → Value
  | fields first rest => .mapping ((first :: rest).map fieldEntry)
  | path p pattern patternFirst => .mapping (pathEntries p pattern patternFirst)
  | all queries => .mapping [("$and", .list (toValues queries))]
  | any queries => .mapping [("$or", .list (toValues queries))]

def toValues : List LogicalQuery → List Value
  | [] => []
  | query :: rest => toValue query :: toValues rest

end

/-! ### Expressions of queries -/

section

variable (matcher : String → Option (Matcher α))

def fieldLeaf (field : FieldName × String) : Leaf α := ⟨field.1.text, field.2, matcher field.2⟩

def pathLeaf (path : FieldPath) (pattern : String) : Leaf α :=
  ⟨path.keyName, pattern, matcher pattern⟩

mutual

/-- The expression of a query inside another. -/
def inner : LogicalQuery → Expression α
  | fields first [] => .leaf (fieldLeaf matcher first)
  | fields first (second :: rest) =>
    .node .all ((first :: second :: rest).map fun field => .leaf (fieldLeaf matcher field))
  | path p pattern _ => .leaf (pathLeaf matcher p pattern)
  | all queries => .node .all (inners queries)
  | any queries => .node .any (inners queries)

def inners : List LogicalQuery → List (Expression α)
  | [] => []
  | query :: rest => inner query :: inners rest

end

/-- The expression of a whole query. -/
def outer : LogicalQuery → Expression α
  | fields first rest =>
    .node .all ((first :: rest).map fun field => .leaf (fieldLeaf matcher field))
  | path p pattern _ => .node .all [.leaf (pathLeaf matcher p pattern)]
  | query => inner matcher query

end

/-! ### Compiling -/

theorem lookup?_fields {name : String} {fields : List (FieldName × String)}
    (h : ∀ field : FieldName, field.text ≠ name) :
    lookup? name (fields.map fieldEntry) = none := by
  have hfind : (fields.map fieldEntry).find? (·.1 == name) = none := by
    rw [List.find?_eq_none, List.forall_mem_map]
    intro field _
    simpa [fieldEntry] using h field.1
  rw [lookup?, hfind]
  rfl

theorem combines_fields (fields : List (FieldName × String)) :
    combines (fields.map fieldEntry) = false := by
  rw [combines, lookup?_fields FieldName.ne_and, lookup?_fields FieldName.ne_or]
  rfl

theorem hasPath_fields (fields : List (FieldName × String)) :
    hasPath (fields.map fieldEntry) = false := by
  rw [hasPath, lookup?_fields FieldName.ne_path]
  rfl

theorem combines_path (p : FieldPath) (pattern : String) (patternFirst : Bool) :
    combines (pathEntries p pattern patternFirst) = false := by
  cases patternFirst <;> rfl

theorem hasPath_path (p : FieldPath) (pattern : String) (patternFirst : Bool) :
    hasPath (pathEntries p pattern patternFirst) = true := by
  cases patternFirst <;> exact p.truth_toValue

variable {matcher : String → Option (Matcher α)}

theorem conjunction_fields (fields : List (FieldName × String)) :
    conjunction matcher (fields.map fieldEntry)
      = .ok (.node .all (fields.map fun field => .leaf (fieldLeaf matcher field))) := by
  have hleaves : (fields.map fieldEntry).mapM
      (fun entry => leaf matcher (.text entry.1) entry.2)
        = .ok (fields.map fun field => .leaf (fieldLeaf matcher field)) := by
    rw [List.mapM_map]
    exact mapM_eq_ok_map fun field _ => rfl
  show ((fields.map fieldEntry).mapM fun entry => leaf matcher (.text entry.1) entry.2) >>= _ = _
  rw [hleaves]
  rfl

theorem leafOf_field (field : FieldName × String) :
    leafOf matcher ([field].map fieldEntry) = .ok (.leaf (fieldLeaf matcher field)) := by
  unfold leafOf
  rw [hasPath_fields]
  rfl

theorem leafOf_path (p : FieldPath) (pattern : String) (patternFirst : Bool) :
    leafOf matcher (pathEntries p pattern patternFirst)
      = .ok (.leaf (pathLeaf matcher p pattern)) := by
  have hleaf : leaf matcher p.toValue (.text pattern)
      = .ok (.leaf (pathLeaf matcher p pattern)) := by
    rw [leaf, p.idOf_toValue]
    rfl
  unfold leafOf
  rw [if_pos (hasPath_path p pattern patternFirst)]
  cases patternFirst <;> exact hleaf

mutual

/-- **A query inside another compiles.** -/
theorem compileNode_toValue :
    ∀ query : LogicalQuery, compileNode matcher query.toValue = .ok (query.inner matcher)
  | fields first [] => by
    rw [toValue, compileNode, hasPath_fields, combines_fields, leafOf_field]
    rfl
  | fields first (second :: rest) => by
    rw [toValue, compileNode, hasPath_fields, combines_fields, conjunction_fields]
    simp [inner]
  | path p pattern patternFirst => by
    have hne : (pathEntries p pattern patternFirst).isEmpty = false := by cases patternFirst <;> rfl
    rw [toValue, compileNode, hasPath_path, combines_path, hne, leafOf_path]
    rfl
  | all queries => by
    rw [toValue, compileNode]
    simp [combines, lookup?, compileEntries, compileItems_toValues queries, inner, connectiveOf,
      Connective.ofName]
    rfl
  | any queries => by
    rw [toValue, compileNode]
    simp [combines, lookup?, compileEntries, compileItems_toValues queries, inner, connectiveOf,
      Connective.ofName]
    rfl

theorem compileItems_toValues : ∀ queries : List LogicalQuery,
    compileItems matcher (toValues queries) = .ok (inners matcher queries)
  | [] => rfl
  | query :: rest => by
    rw [toValues, compileItems, compileNode_toValue query, compileItems_toValues rest]
    rfl

end

/-- **Every query compiles.** -/
theorem compile_toValue (query : LogicalQuery) :
    compile matcher query.toValue = .ok (query.outer matcher) := by
  cases query with
  | fields first rest =>
    rw [toValue, compile, hasPath_fields, combines_fields, conjunction_fields]
    rfl
  | path p pattern patternFirst =>
    have hnode := @compileNode_toValue α matcher (path p pattern patternFirst)
    rw [toValue] at hnode ⊢
    rw [compile, hasPath_path, hnode]
    rfl
  | all queries =>
    have hnode := @compileNode_toValue α matcher (all queries)
    rw [toValue] at hnode ⊢
    exact hnode
  | any queries =>
    have hnode := @compileNode_toValue α matcher (any queries)
    rw [toValue] at hnode ⊢
    exact hnode

end LogicalQuery

end FuzzySearch
