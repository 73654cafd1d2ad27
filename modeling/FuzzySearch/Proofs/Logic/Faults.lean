import FuzzySearch.Logic.Query
import FuzzySearch.Proofs.Calls
import Mathlib.Tactic.SplitIfs

/-!
# The faults of logical queries

Compiling a query makes demands on its parts, one after the other: the whole query has to be a
mapping, a query inside another a mapping with entries, and a constraint has to have a path and a
text as its pattern.  `LogicalQuery.demandsOf` lists the demands in the order in which they are made.

Compiling is nothing but making them (`LogicalQuery.map_leaves_compile`): when all are met, the
leaves of the tree are what they give, and otherwise the failure is that of the first one that is not
met.  So a query fails in two ways only: as an invalid query, or because its first unmet demand is
made on something that is no path, such as a number
(`LogicalQuery.compile_ends_at_first_unmet_demand`).
-/

namespace FuzzySearch

/-- Whether a failure says that a query is invalid. -/
def SearchError.isInvalidQuery : SearchError → Bool
  | .invalidPattern _ | .invalidNode _ | .notAQuery _ => true
  | _ => false

/-- Whether a value is a path: a text, or a value with elements that are its names. -/
def Value.isPath : Value → Bool
  | .text _ | .list _ | .tuple _ | .set _ | .mapping _ | .octets _ => true
  | _ => false

variable {α : Type}

namespace Expression

mutual

/-- The leaves of an expression, from left to right. -/
def leaves : Expression α → List (Leaf α)
  | leaf l => [l]
  | node _ children => leavesOfAll children

def leavesOfAll : List (Expression α) → List (Leaf α)
  | [] => []
  | child :: rest => leaves child ++ leavesOfAll rest

end

theorem leavesOfAll_append (trees others : List (Expression α)) :
    leavesOfAll (trees ++ others) = leavesOfAll trees ++ leavesOfAll others := by
  induction trees with
  | nil => rfl
  | cons tree rest ih =>
    rw [List.cons_append, leavesOfAll, leavesOfAll, ih, List.append_assoc]

end Expression

namespace LogicalQuery

open Expression

/-! ### Demands -/

/-- What is asked of a part of a query. -/
inductive Demand where
  /-- A whole query has to be a mapping. -/
  | whole (v : Value)
  /-- A query inside another has to be a mapping with entries. -/
  | inner (v : Value)
  /-- A key has to be a path, and its pattern a text. -/
  | constraint (key pattern : Value)

namespace Demand

def isMet : Demand → Bool
  | whole (.mapping _) => true
  | inner (.mapping (_ :: _)) => true
  | constraint key (.text _) => key.isPath
  | _ => false

/-- The leaves that come of a demand: one for a constraint. -/
def read (matcher : String → Option (Matcher α)) : Demand → Except SearchError (List (Leaf α))
  | whole (.mapping _) => .ok []
  | whole v => .error (.notAQuery v.kindName)
  | inner (.mapping (_ :: _)) => .ok []
  | inner v => .error (.invalidNode v.written)
  | constraint key (.text s) => do
    let keyName ← Key.idOf key
    return [⟨keyName, s, matcher s⟩]
  | constraint key _ => .error (.invalidPattern key.plain)

/-- The leaves that come of some demands, or the failure of the first one that is not met. -/
def readAll (matcher : String → Option (Matcher α)) :
    List Demand → Except SearchError (List (Leaf α))
  | [] => .ok []
  | demand :: rest => do
    let found ← demand.read matcher
    let others ← readAll matcher rest
    return found ++ others

end Demand

/-- The keys and patterns that are read of a mapping without `$and` and `$or`: those of its path, if
it has one, and otherwise its entries. -/
def readConstraints (entries : List (String × Value)) : List (Value × Value) :=
  if hasPath entries then
    [((lookup? "$path" entries).getD .null, (lookup? "$val" entries).getD .null)]
  else entries.map fun entry => (.text entry.1, entry.2)

mutual

/-- The demands on a query inside another. -/
def demands : Value → List Demand
  | .mapping entries =>
    .inner (.mapping entries) ::
      if combines entries then entryDemands entries
      else (readConstraints entries).map fun constraint => .constraint constraint.1 constraint.2
  | v => [.inner v]

/-- The demands on the queries in the lists among some entries. -/
def entryDemands : List (String × Value) → List Demand
  | [] => []
  | (_, .list items) :: rest => itemDemands items ++ entryDemands rest
  | _ :: rest => entryDemands rest

def itemDemands : List Value → List Demand
  | [] => []
  | item :: rest => demands item ++ itemDemands rest

end

/-- The demands on a whole query, which may be a mapping without entries. -/
def demandsOf (query : Value) : List Demand :=
  .whole query ::
    match query with
    | .mapping [] => []
    | v => demands v

namespace Demand

variable {matcher : String → Option (Matcher α)}

/-! ### A single demand -/

theorem idOf_of_isPath {key : Value} (h : key.isPath = true) :
    ∃ name, Key.idOf key = .ok name := by
  cases key with
  | text _ | list _ | tuple _ | set _ | mapping _ | octets _ => exact ⟨_, rfl⟩
  | _ => cases h

theorem idOf_of_not_isPath {key : Value} (h : key.isPath = false) :
    Key.idOf key = .error .wrongKind := by
  cases key with
  | text _ | list _ | tuple _ | set _ | mapping _ | octets _ => cases h
  | _ => rfl

/-- A demand that is met gives leaves; any other fails. -/
theorem exists_read_iff (demand : Demand) :
    (∃ found, demand.read matcher = .ok found) ↔ demand.isMet = true := by
  cases demand with
  | whole v => cases v <;> simp [read, isMet]
  | inner v =>
    cases v with
    | mapping entries => cases entries <;> simp [read, isMet]
    | _ => simp [read, isMet]
  | constraint key pattern =>
    cases pattern with
    | text s =>
      rw [read, isMet]
      cases hkey : key.isPath with
      | true =>
        obtain ⟨name, hname⟩ := idOf_of_isPath hkey
        rw [hname]
        exact iff_of_true ⟨_, rfl⟩ rfl
      | false =>
        rw [idOf_of_not_isPath hkey]
        exact iff_of_false (fun ⟨_, h⟩ => by cases h) Bool.false_ne_true
    | _ => simp [read, isMet]

/-- A demand that is not met fails as an invalid query, or because a key with a text as its pattern
is no path. -/
theorem of_read_eq_error {demand : Demand} {e : SearchError}
    (h : demand.read matcher = .error e) :
    e.isInvalidQuery = true ∨
      e = .wrongKind ∧ ∃ key s, demand = .constraint key (.text s) ∧ key.isPath = false := by
  cases demand with
  | whole v =>
    cases v with
    | mapping entries => cases h
    | _ => exact Or.inl (Except.error.inj h ▸ rfl)
  | inner v =>
    cases v with
    | mapping entries =>
      cases entries with
      | nil => exact Or.inl (Except.error.inj h ▸ rfl)
      | cons entry rest => cases h
    | _ => exact Or.inl (Except.error.inj h ▸ rfl)
  | constraint key pattern =>
    cases pattern with
    | text s =>
      cases hkey : key.isPath with
      | true =>
        obtain ⟨name, hname⟩ := idOf_of_isPath hkey
        rw [read, hname] at h
        cases h
      | false =>
        rw [read, idOf_of_not_isPath hkey] at h
        exact Or.inr ⟨(Except.error.inj h).symm, key, s, rfl, hkey⟩
    | _ => exact Or.inl (Except.error.inj h ▸ rfl)

/-! ### Demands one after the other -/

theorem readAll_append (first second : List Demand) :
    readAll matcher (first ++ second) = readAll matcher first >>= fun found =>
      readAll matcher second >>= fun others => pure (found ++ others) := by
  induction first with
  | nil =>
    rw [List.nil_append, readAll]
    show _ = readAll matcher second >>= pure
    exact (bind_pure _).symm
  | cons demand rest ih =>
    rw [List.cons_append, readAll, readAll, ih]
    simp only [bind_assoc, pure_bind, List.append_assoc]

theorem readAll_singleton (demand : Demand) : readAll matcher [demand] = demand.read matcher := by
  cases h : demand.read matcher with
  | error e => rw [readAll, h]; rfl
  | ok found =>
    rw [readAll, h]
    exact congrArg Except.ok (List.append_nil found)

/-- **The first demand that is not met decides how reading fails.** -/
theorem readAll_eq_error_iff {all : List Demand} {e : SearchError} :
    readAll matcher all = .error e ↔
      ∃ before demand after, all = before ++ demand :: after ∧
        demand.read matcher = .error e ∧ ∀ d ∈ before, d.isMet = true := by
  induction all with
  | nil => exact iff_of_false (fun h => by cases h) (by simp)
  | cons first rest ih =>
    rw [readAll, bind_eq_error_iff]
    constructor
    · rintro (hfirst | ⟨found, hfirst, h⟩)
      · exact ⟨[], first, rest, rfl, hfirst, List.forall_mem_nil _⟩
      · rcases bind_eq_error_iff.mp h with hrest | ⟨others, -, h⟩
        · obtain ⟨before, demand, after, rfl, hdemand, hbefore⟩ := ih.mp hrest
          refine ⟨first :: before, demand, after, rfl, hdemand, ?_⟩
          exact List.forall_mem_cons.mpr ⟨(exists_read_iff first).mp ⟨found, hfirst⟩, hbefore⟩
        · cases h
    · rintro ⟨before, demand, after, heq, hdemand, hbefore⟩
      cases before with
      | nil =>
        obtain ⟨rfl, -⟩ := List.cons.inj heq
        exact Or.inl hdemand
      | cons d before =>
        obtain ⟨rfl, hrest⟩ := List.cons.inj heq
        rw [List.forall_mem_cons] at hbefore
        obtain ⟨found, hfirst⟩ := (@exists_read_iff α matcher first).mpr hbefore.1
        refine Or.inr ⟨found, hfirst, bind_eq_error_iff.mpr (Or.inl ?_)⟩
        exact ih.mpr ⟨before, demand, after, hrest, hdemand, hbefore.2⟩

end Demand

/-! ### Compiling makes the demands -/

open Demand

variable {matcher : String → Option (Matcher α)}

theorem map_leaves_leaf (key pattern : Value) :
    (leaf matcher key pattern).map Expression.leaves
      = (Demand.constraint key pattern).read matcher := by
  cases pattern with
  | text s =>
    rw [leaf, Demand.read]
    cases Key.idOf key <;> rfl
  | _ => rfl

theorem map_leaves_mapM (constraints : List (Value × Value)) :
    (constraints.mapM fun c => leaf matcher c.1 c.2).map leavesOfAll
      = readAll matcher (constraints.map fun c => .constraint c.1 c.2) := by
  induction constraints with
  | nil => rfl
  | cons c rest ih =>
    rw [List.mapM_cons, List.map_cons, readAll, ← ih, ← map_leaves_leaf]
    cases leaf matcher c.1 c.2 with
    | error e => rfl
    | ok tree => cases rest.mapM fun c => leaf matcher c.1 c.2 <;> rfl

theorem map_leaves_conjunction {entries : List (String × Value)} (hpath : hasPath entries = false) :
    (conjunction matcher entries).map Expression.leaves
      = readAll matcher ((readConstraints entries).map fun c => .constraint c.1 c.2) := by
  rw [readConstraints, hpath, if_neg Bool.false_ne_true, ← map_leaves_mapM, List.mapM_map]
  show Except.map _ ((entries.mapM fun entry => leaf matcher (.text entry.1) entry.2) >>= _)
    = Except.map _ (entries.mapM fun entry => leaf matcher (.text entry.1) entry.2)
  cases entries.mapM fun entry => leaf matcher (.text entry.1) entry.2 <;> rfl

/-- A mapping without `$and` and `$or` is read for its constraints. -/
theorem map_leaves_compileNode_fields {entries : List (String × Value)} (hne : entries ≠ [])
    (hcombines : combines entries = false) :
    (compileNode matcher (.mapping entries)).map Expression.leaves
      = readAll matcher ((readConstraints entries).map fun c => .constraint c.1 c.2) := by
  have hempty : entries.isEmpty = false := List.isEmpty_eq_false_iff.mpr hne
  cases hpath : hasPath entries with
  | true =>
    rw [compileNode, hempty, hcombines, hpath, readConstraints, if_pos hpath]
    unfold leafOf
    rw [if_pos hpath]
    exact (map_leaves_leaf _ _).trans (readAll_singleton _).symm
  | false =>
    match entries, hne, hpath with
    | [(name, pattern)], _, hpath =>
      rw [compileNode, hcombines, hpath, readConstraints, hpath]
      unfold leafOf
      rw [hpath]
      exact (map_leaves_leaf _ _).trans (readAll_singleton _).symm
    | first :: second :: rest, _, hpath =>
      rw [← map_leaves_conjunction hpath, compileNode, hcombines, hpath]
      simp

mutual

/-- **Compiling a query makes its demands**, those of the queries inside it in their order. -/
theorem map_leaves_compileNode : ∀ v : Value,
    (compileNode matcher v).map Expression.leaves = readAll matcher (demands v)
  | .mapping [] => rfl
  | .mapping (entry :: rest) => by
    rw [demands, readAll]
    show _ = readAll matcher _ >>= pure
    rw [bind_pure]
    cases hcombines : combines (entry :: rest) with
    | true =>
      rw [if_pos rfl, ← map_leaves_compileEntries (entry :: rest), compileNode, hcombines]
      simp only [List.isEmpty_cons, Bool.not_true, Bool.and_false]
      cases compileEntries matcher (entry :: rest) <;> rfl
    | false =>
      rw [if_neg Bool.false_ne_true]
      exact map_leaves_compileNode_fields (List.cons_ne_nil _ _) hcombines
  | .null | .bool _ | .int _ | .float _ | .text _ | .list _ | .tuple _ | .object _ | .set _
  | .path _ | .octets _ | .failure _ => rfl

theorem map_leaves_compileEntries : ∀ entries : List (String × Value),
    (compileEntries matcher entries).map leavesOfAll = readAll matcher (entryDemands entries)
  | [] => rfl
  | (_, .list items) :: rest => by
    rw [entryDemands, readAll_append, ← map_leaves_compileItems items,
      ← map_leaves_compileEntries rest, compileEntries]
    cases compileItems matcher items with
    | error e => rfl
    | ok trees =>
      cases compileEntries matcher rest with
      | error e => rfl
      | ok others => exact congrArg Except.ok (leavesOfAll_append trees others)
  | (_, .null) :: rest | (_, .bool _) :: rest | (_, .int _) :: rest | (_, .float _) :: rest
  | (_, .text _) :: rest | (_, .tuple _) :: rest | (_, .mapping _) :: rest
  | (_, .object _) :: rest | (_, .set _) :: rest | (_, .path _) :: rest | (_, .octets _) :: rest
  | (_, .failure _) :: rest => map_leaves_compileEntries rest

theorem map_leaves_compileItems : ∀ items : List Value,
    (compileItems matcher items).map leavesOfAll = readAll matcher (itemDemands items)
  | [] => rfl
  | item :: rest => by
    rw [itemDemands, readAll_append, ← map_leaves_compileNode item,
      ← map_leaves_compileItems rest, compileItems]
    cases compileNode matcher item with
    | error e => rfl
    | ok tree => cases compileItems matcher rest <;> rfl

end

/-- **Compiling a whole query makes its demands.** -/
theorem map_leaves_compile (query : Value) :
    (compile matcher query).map Expression.leaves = readAll matcher (demandsOf query) := by
  cases query with
  | mapping entries =>
    cases entries with
    | nil => rfl
    | cons entry rest =>
      show _ = readAll matcher (demands (.mapping (entry :: rest))) >>= pure
      rw [bind_pure, ← map_leaves_compileNode, compile]
      split_ifs with hpath hcombines
      -- a single path stands under a node of its own, which adds no leaf
      · cases compileNode matcher (.mapping (entry :: rest)) with
        | error e => rfl
        | ok tree => exact congrArg Except.ok (List.append_nil _)
      · rw [Bool.not_eq_true'] at hcombines
        rw [map_leaves_compileNode_fields (List.cons_ne_nil _ _) hcombines,
          map_leaves_conjunction (Bool.eq_false_iff.mpr hpath)]
      · rfl
  | _ => rfl

/-! ### How a query fails -/

theorem compile_eq_error_iff {query : Value} {e : SearchError} :
    compile matcher query = .error e ↔ readAll matcher (demandsOf query) = .error e := by
  rw [← map_leaves_compile]
  cases compile matcher query with
  | error e' => exact ⟨fun h => Except.error.inj h ▸ rfl, fun h => Except.error.inj h ▸ rfl⟩
  | ok tree => exact iff_of_false (fun h => by cases h) fun h => by cases h

/-- **A query compiles to a tree with the leaves that were demanded, or fails as an invalid query, or
because its first unmet demand is for a text under something that is no path.** -/
theorem compile_ends_at_first_unmet_demand (matcher : String → Option (Matcher α)) (query : Value) :
    ((∃ tree, compile matcher query = .ok tree ∧
          readAll matcher (demandsOf query) = .ok tree.leaves) ∨
        ∃ e, compile matcher query = .error e ∧ (e.isInvalidQuery = true ∨ e = .wrongKind)) ∧
      (compile matcher query = .error .wrongKind ↔
        ∃ before key s after,
          demandsOf query = before ++ Demand.constraint key (.text s) :: after ∧
            key.isPath = false ∧ ∀ demand ∈ before, demand.isMet = true) := by
  constructor
  · cases h : compile matcher query with
    | ok tree => exact Or.inl ⟨tree, rfl, by rw [← map_leaves_compile, h]; rfl⟩
    | error e =>
      obtain ⟨before, demand, after, -, hdemand, -⟩ :=
        readAll_eq_error_iff.mp (compile_eq_error_iff.mp h)
      exact Or.inr ⟨e, rfl, (of_read_eq_error hdemand).imp_right And.left⟩
  · rw [compile_eq_error_iff, readAll_eq_error_iff]
    constructor
    · rintro ⟨before, demand, after, heq, hdemand, hbefore⟩
      rcases of_read_eq_error hdemand with hinvalid | ⟨-, key, s, rfl, hkey⟩
      · cases hinvalid
      · exact ⟨before, key, s, after, heq, hkey, hbefore⟩
    · rintro ⟨before, key, s, after, heq, hkey, hbefore⟩
      refine ⟨before, .constraint key (.text s), after, heq, ?_, hbefore⟩
      rw [Demand.read, idOf_of_not_isPath hkey]
      rfl

/-- A number or a truth value in place of a path is not turned away as an invalid query, although a
number in place of a pattern is. -/
theorem number_in_place_of_path :
    let matcher : String → Option (Matcher Float) := fun _ => none
    let pathQuery : Value → Value := fun key => .mapping [("$path", key), ("$val", .text "x")]
    compile matcher (pathQuery (.int 5)) = .error .wrongKind ∧
      compile matcher (.mapping [("$or", .list [pathQuery (.bool true)])]) = .error .wrongKind ∧
      SearchError.wrongKind.isInvalidQuery = false ∧
      compile matcher (.mapping [("title", .int 5)]) = .error (.invalidPattern "title") :=
  ⟨rfl, rfl, rfl, rfl⟩

end LogicalQuery

end FuzzySearch
