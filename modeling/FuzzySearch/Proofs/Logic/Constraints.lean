import FuzzySearch.Logic.Query
import FuzzySearch.Proofs.Calls

/-!
# The constraints of logical queries

Every entry of a query is a constraint: a pattern for a field or a path, or queries of which all or
any have to hold.  `LogicalQuery.Keeps` says of a query and a tree that each constraint has a place
of its own in the tree, the queries of a list under their own connective.  Mappings that combine
queries in one way only, and paths that stand alone, are `unmixed`.

The compiled tree of a query is no larger than any tree that keeps its constraints, and it is of the
same size only if the query is unmixed (`LogicalQuery.size_le_of_keeps`).  So the compiled tree keeps
the constraints of a query exactly if the query is unmixed (`LogicalQuery.compile_keeps_iff`).
-/

namespace FuzzySearch

variable {α : Type}

namespace Expression

mutual

/-- The number of nodes and leaves of an expression. -/
def size : Expression α → Nat
  | leaf _ => 1
  | node _ children => sizes children + 1

def sizes : List (Expression α) → Nat
  | [] => 0
  | child :: rest => size child + sizes rest

end

mutual

/-- Every node of an expression demands all its children or any of them. -/
def Connected : Expression α → Prop
  | leaf _ => True
  | node connective children =>
    (connective = .all ∨ connective = .any) ∧ AllConnected children

def AllConnected : List (Expression α) → Prop
  | [] => True
  | child :: rest => Connected child ∧ AllConnected rest

end

theorem sizes_append (trees others : List (Expression α)) :
    sizes (trees ++ others) = sizes trees + sizes others := by
  induction trees with
  | nil => rw [List.nil_append, sizes, Nat.zero_add]
  | cons tree rest ih => rw [List.cons_append, sizes, sizes, ih, Nat.add_assoc]

theorem allConnected_iff {trees : List (Expression α)} :
    AllConnected trees ↔ ∀ tree ∈ trees, Connected tree := by
  induction trees with
  | nil => exact iff_of_true trivial (List.forall_mem_nil _)
  | cons tree rest ih => rw [AllConnected, ih, List.forall_mem_cons]

end Expression

namespace LogicalQuery

open Expression

/-! ### Queries of one kind -/

/-- The entries of a mapping that do not belong to its path. -/
def besidePath (entries : List (String × Value)) : List (String × Value) :=
  entries.filter fun entry => entry.1 ≠ "$path" && entry.1 ≠ "$val"

/-- The keys and patterns that a mapping without `$and` and `$or` gives: those of its path, if it has
one, and those of its other entries. -/
def fieldConstraints (entries : List (String × Value)) : List (Value × Value) :=
  if hasPath entries then
    ((lookup? "$path" entries).getD .null, (lookup? "$val" entries).getD .null)
      :: (besidePath entries).map fun entry => (.text entry.1, entry.2)
  else entries.map fun entry => (.text entry.1, entry.2)

mutual

/-- Whether each mapping of a query combines queries in one way, or gives a path alone, or patterns
of fields. -/
def unmixed : Value → Bool
  | .mapping entries =>
    if combines entries then unmixedEntries (connectiveOf entries) entries
    else !hasPath entries || (besidePath entries).isEmpty
  | _ => true

/-- Whether all entries of a mapping are lists of queries under the same connective. -/
def unmixedEntries (connective : Connective) : List (String × Value) → Bool
  | [] => true
  | (name, .list items) :: rest =>
    Connective.ofName name = connective && unmixedItems items && unmixedEntries connective rest
  | _ :: _ => false

def unmixedItems : List Value → Bool
  | [] => true
  | item :: rest => unmixed item && unmixedItems rest

end

/-! ### Trees that keep constraints -/

mutual

/-- A query and a tree in which each constraint of the query has a place of its own. -/
inductive Keeps (matcher : String → Option (Matcher α)) : Value → Expression α → Prop
  /-- A single pattern is a leaf. -/
  | single {entries : List (String × Value)} {key pattern : Value} {tree : Expression α}
      (hfields : combines entries = false) (hone : fieldConstraints entries = [(key, pattern)])
      (hleaf : leaf matcher key pattern = .ok tree) : Keeps matcher (.mapping entries) tree
  /-- Patterns are leaves that all have to match. -/
  | fields {entries : List (String × Value)} {leaves : List (Expression α)}
      (hfields : combines entries = false)
      (hleaves : (fieldConstraints entries).mapM (fun constraint =>
        leaf matcher constraint.1 constraint.2) = .ok leaves) :
      Keeps matcher (.mapping entries) (.node .all leaves)
  /-- Lists of queries are kept by a node. -/
  | combined {entries : List (String × Value)} {connective : Connective}
      {children : List (Expression α)} (hcombines : combines entries = true)
      (hconnective : connective = .all ∨ connective = .any)
      (hentries : KeepsEntries matcher connective entries children) :
      Keeps matcher (.mapping entries) (.node connective children)

/-- The entries of a mapping that combines queries, and the children of a node for them. -/
inductive KeepsEntries (matcher : String → Option (Matcher α)) :
    Connective → List (String × Value) → List (Expression α) → Prop
  | nil {connective : Connective} : KeepsEntries matcher connective [] []
  /-- The queries of a list can be children of the node, if it has their connective. -/
  | own {connective : Connective} {name : String} {items : List Value}
      {trees others : List (Expression α)} {rest : List (String × Value)}
      (hname : Connective.ofName name = connective) (hitems : KeepsItems matcher items trees)
      (hrest : KeepsEntries matcher connective rest others) :
      KeepsEntries matcher connective ((name, .list items) :: rest) (trees ++ others)
  /-- The queries of a list can be children of a node of their own. -/
  | apart {connective : Connective} {name : String} {items : List Value}
      {trees others : List (Expression α)} {rest : List (String × Value)}
      (hname : Connective.ofName name = .all ∨ Connective.ofName name = .any)
      (hitems : KeepsItems matcher items trees)
      (hrest : KeepsEntries matcher connective rest others) :
      KeepsEntries matcher connective ((name, .list items) :: rest)
        (.node (.ofName name) trees :: others)
  /-- Any other entry is a leaf, whichever it may be. -/
  | stray {connective : Connective} {name : String} {v : Value} {l : Leaf α}
      {others : List (Expression α)} {rest : List (String × Value)}
      (hv : ∀ items, v ≠ .list items) (hrest : KeepsEntries matcher connective rest others) :
      KeepsEntries matcher connective ((name, v) :: rest) (.leaf l :: others)

inductive KeepsItems (matcher : String → Option (Matcher α)) :
    List Value → List (Expression α) → Prop
  | nil : KeepsItems matcher [] []
  | cons {item : Value} {tree : Expression α} {items : List Value} {trees : List (Expression α)}
      (hitem : Keeps matcher item tree) (hitems : KeepsItems matcher items trees) :
      KeepsItems matcher (item :: items) (tree :: trees)

end

variable {matcher : String → Option (Matcher α)}

theorem exists_leaf {key pattern : Value} {tree : Expression α}
    (h : leaf matcher key pattern = .ok tree) : ∃ l, tree = .leaf l := by
  cases pattern with
  | text s =>
    obtain ⟨keyName, -, htree⟩ := bind_eq_ok_iff.mp h
    exact ⟨_, (pure_eq_ok_iff.mp htree).symm⟩
  | _ => cases h

/-- The leaves of some constraints, one for each. -/
theorem leaves_of_mapM {constraints : List (Value × Value)} {leaves : List (Expression α)}
    (h : constraints.mapM (fun constraint => leaf matcher constraint.1 constraint.2) = .ok leaves) :
    sizes leaves = constraints.length ∧ ∀ tree ∈ leaves, ∃ l, tree = .leaf l := by
  have hall := mapM_eq_ok_iff.mp h
  clear h
  induction hall with
  | nil => exact ⟨rfl, List.forall_mem_nil _⟩
  | cons hleaf _ ih =>
    obtain ⟨l, rfl⟩ := exists_leaf hleaf
    refine ⟨?_, List.forall_mem_cons.mpr ⟨⟨l, rfl⟩, ih.2⟩⟩
    rw [sizes, size, ih.1, List.length_cons, Nat.add_comm]

/-! ### Trees are connected -/

mutual

theorem Keeps.connected : ∀ {v : Value} {tree : Expression α}, Keeps matcher v tree →
    tree.Connected
  | _, _, .single _ _ hleaf => by
    obtain ⟨l, rfl⟩ := exists_leaf hleaf
    trivial
  | _, _, .fields _ hleaves => by
    refine ⟨Or.inl rfl, allConnected_iff.mpr fun tree htree => ?_⟩
    obtain ⟨l, rfl⟩ := (leaves_of_mapM hleaves).2 tree htree
    trivial
  | _, _, .combined _ hconnective hentries => ⟨hconnective, hentries.connected⟩

theorem KeepsEntries.connected : ∀ {connective : Connective} {entries : List (String × Value)}
    {children : List (Expression α)}, KeepsEntries matcher connective entries children →
      AllConnected children
  | _, _, _, .nil => trivial
  | _, _, _, .own _ hitems hrest => by
    rw [allConnected_iff, List.forall_mem_append]
    exact ⟨allConnected_iff.mp hitems.connected, allConnected_iff.mp hrest.connected⟩
  | _, _, _, .apart hname hitems hrest => ⟨⟨hname, hitems.connected⟩, hrest.connected⟩
  | _, _, _, .stray _ hrest => ⟨trivial, hrest.connected⟩

theorem KeepsItems.connected : ∀ {items : List Value} {trees : List (Expression α)},
    KeepsItems matcher items trees → AllConnected trees
  | _, _, .nil => trivial
  | _, _, .cons hitem hitems => ⟨hitem.connected, hitems.connected⟩

end

/-! ### Compiled mappings -/

section mapping

variable {entries : List (String × Value)} {tree : Expression α}

theorem compileNode_of_combines (hcombines : combines entries = true) :
    compileNode matcher (.mapping entries) = compileEntries matcher entries >>= fun children =>
      pure (.node (connectiveOf entries) children) := by
  have hne : entries.isEmpty = false := by
    cases entries with
    | nil => cases hcombines
    | cons entry rest => rfl
  rw [compileNode, hne, hcombines, Bool.not_true, Bool.and_false]
  rfl

theorem compileNode_of_hasPath (hcombines : combines entries = false)
    (hpath : hasPath entries = true) :
    compileNode matcher (.mapping entries) = leaf matcher ((lookup? "$path" entries).getD .null)
      ((lookup? "$val" entries).getD .null) := by
  have hne : entries.isEmpty = false := by
    cases entries with
    | nil => cases hpath
    | cons entry rest => rfl
  rw [compileNode, hne, hcombines, hpath]
  show leafOf matcher entries = _
  unfold leafOf
  rw [if_pos hpath]

theorem conjunction_eq_ok_iff (hpath : hasPath entries = false) :
    conjunction matcher entries = .ok tree ↔
      ∃ leaves, (fieldConstraints entries).mapM (fun constraint =>
        leaf matcher constraint.1 constraint.2) = .ok leaves ∧ tree = .node .all leaves := by
  unfold conjunction
  rw [fieldConstraints, hpath, if_neg Bool.false_ne_true, List.mapM_map, bind_eq_ok_iff]
  simp only [pure_eq_ok_iff, @eq_comm _ _ tree]
  rfl

/-- A mapping that does not combine queries is compiled to the leaf of its first constraint, or to
the leaves of all of them. -/
theorem of_compileNode_fields (hcombines : combines entries = false)
    (h : compileNode matcher (.mapping entries) = .ok tree) :
    (∃ constraint others, fieldConstraints entries = constraint :: others ∧
        leaf matcher constraint.1 constraint.2 = .ok tree ∧
        (unmixed (.mapping entries) = true ↔ others = [])) ∨
      ∃ leaves, (fieldConstraints entries).mapM (fun constraint =>
          leaf matcher constraint.1 constraint.2) = .ok leaves ∧
        tree = .node .all leaves ∧ 1 < (fieldConstraints entries).length ∧
        unmixed (.mapping entries) = true := by
  rw [unmixed, hcombines, if_neg Bool.false_ne_true]
  cases hpath : hasPath entries with
  | true =>
    rw [compileNode_of_hasPath hcombines hpath] at h
    refine Or.inl ⟨_, _, by rw [fieldConstraints, hpath, if_pos rfl], h, ?_⟩
    rw [Bool.not_true, Bool.false_or, List.isEmpty_iff, List.map_eq_nil_iff]
  | false =>
    have hconstraints : fieldConstraints entries
        = entries.map fun entry => (.text entry.1, entry.2) := by
      rw [fieldConstraints, hpath, if_neg Bool.false_ne_true]
    rw [hconstraints, List.length_map, ← hconstraints]
    match entries, hcombines, hpath, h, hconstraints with
    | [], _, _, h, _ => cases h
    | [(name, pattern)], hcombines, hpath, h, hconstraints =>
      rw [compileNode, hcombines, hpath] at h
      have hleaf : leafOf matcher [(name, pattern)] = .ok tree := h
      unfold leafOf at hleaf
      rw [hpath] at hleaf
      exact Or.inl ⟨_, _, hconstraints, hleaf, iff_of_true rfl rfl⟩
    | first :: second :: rest, hcombines, hpath, h, _ =>
      rw [compileNode, hcombines, hpath] at h
      have hall : conjunction matcher (first :: second :: rest) = .ok tree := by
        simpa using h
      obtain ⟨leaves, hleaves, htree⟩ := (conjunction_eq_ok_iff hpath).mp hall
      exact Or.inr ⟨leaves, hleaves, htree, by simp, rfl⟩

theorem unmixedEntries_connectiveOf {connective : Connective} (h : combines entries = true)
    (hentries : unmixedEntries connective entries = true) :
    unmixedEntries (connectiveOf entries) entries = true := by
  cases entries with
  | nil => cases h
  | cons entry rest =>
    obtain ⟨name, v⟩ := entry
    cases v with
    | list items =>
      have hname := hentries
      rw [unmixedEntries, Bool.and_eq_true, Bool.and_eq_true, decide_eq_true_iff] at hname
      rw [connectiveOf, hname.1.1]
      exact hentries
    | _ => cases hentries

end mapping

/-! ### Compiled trees are smallest -/

mutual

/-- **No tree that keeps the constraints of a query is smaller than the compiled one**, and there is
one of the same size only for an unmixed query. -/
theorem size_le_of_keeps : ∀ {v : Value} {tree other : Expression α},
    compileNode matcher v = .ok tree → Keeps matcher v other →
      tree.size ≤ other.size ∧ (other.size ≤ tree.size → unmixed v = true)
  | .mapping entries, tree, other, h, hkeeps => by
    cases hkeeps with
    | single hfields hone hleaf =>
      obtain ⟨l, rfl⟩ := exists_leaf hleaf
      rcases of_compileNode_fields hfields h with
        ⟨constraint, others, hconstraints, hfirst, hunmixed⟩ | ⟨leaves, -, -, hlength, -⟩
      · obtain ⟨l', rfl⟩ := exists_leaf hfirst
        have hothers : others = [] := (List.cons.inj (hconstraints.symm.trans hone)).2
        exact ⟨Nat.le_refl _, fun _ => hunmixed.mpr hothers⟩
      · rw [hone] at hlength
        exact absurd hlength (by simp)
    | fields hfields hleaves =>
      have hsize := (leaves_of_mapM hleaves).1
      rw [size]
      rcases of_compileNode_fields hfields h with
        ⟨constraint, others, hconstraints, hfirst, -⟩ | ⟨leaves, hcompiled, rfl, -, hunmixed⟩
      · obtain ⟨l, rfl⟩ := exists_leaf hfirst
        rw [hconstraints, List.length_cons] at hsize
        rw [size]
        exact ⟨by omega, fun hle => by omega⟩
      · obtain rfl := Except.ok.inj (hcompiled.symm.trans hleaves)
        rw [size]
        exact ⟨Nat.le_refl _, fun _ => hunmixed⟩
    | combined hcombines _ hentries =>
      rw [compileNode_of_combines hcombines] at h
      obtain ⟨children, hchildren, htree⟩ := bind_eq_ok_iff.mp h
      obtain rfl := pure_eq_ok_iff.mp htree
      obtain ⟨hle, hunmixed⟩ := sizes_le_of_keepsEntries hchildren hentries
      rw [size, size, unmixed, if_pos hcombines]
      exact ⟨by omega, fun hsize => unmixedEntries_connectiveOf hcombines (hunmixed (by omega))⟩
  | .null, _, _, h, _ | .bool _, _, _, h, _ | .int _, _, _, h, _ | .float _, _, _, h, _
  | .text _, _, _, h, _ | .list _, _, _, h, _ | .tuple _, _, _, h, _ | .object _, _, _, h, _
  | .set _, _, _, h, _ | .path _, _, _, h, _ | .octets _, _, _, h, _ | .failure _, _, _, h, _ => by
    cases h

theorem sizes_le_of_keepsEntries : ∀ {entries : List (String × Value)} {connective : Connective}
    {trees others : List (Expression α)},
    compileEntries matcher entries = .ok trees → KeepsEntries matcher connective entries others →
      sizes trees ≤ sizes others ∧
        (sizes others ≤ sizes trees → unmixedEntries connective entries = true)
  | [], _, _, _, h, hkeeps => by
    obtain rfl := Except.ok.inj h
    cases hkeeps
    exact ⟨Nat.le_refl _, fun _ => rfl⟩
  | (name, v) :: rest, connective, trees, others, h, hkeeps => by
    cases hkeeps with
    | own hname hitems hrest =>
      obtain ⟨children, hchildren, h⟩ := bind_eq_ok_iff.mp h
      obtain ⟨later, hlater, h⟩ := bind_eq_ok_iff.mp h
      obtain rfl := pure_eq_ok_iff.mp h
      obtain ⟨hle, hunmixed⟩ := sizes_le_of_keepsItems hchildren hitems
      obtain ⟨hle', hunmixed'⟩ := sizes_le_of_keepsEntries hlater hrest
      rw [sizes_append, sizes_append]
      refine ⟨by omega, fun hsize => ?_⟩
      rw [unmixedEntries, hunmixed (by omega), hunmixed' (by omega), decide_eq_true hname]
      rfl
    | apart hname hitems hrest =>
      obtain ⟨children, hchildren, h⟩ := bind_eq_ok_iff.mp h
      obtain ⟨later, hlater, h⟩ := bind_eq_ok_iff.mp h
      obtain rfl := pure_eq_ok_iff.mp h
      obtain ⟨hle, -⟩ := sizes_le_of_keepsItems hchildren hitems
      obtain ⟨hle', -⟩ := sizes_le_of_keepsEntries hlater hrest
      rw [sizes_append, sizes, size]
      exact ⟨by omega, fun hsize => by omega⟩
    | stray hv hrest =>
      -- an entry that is no list adds nothing to the compiled tree
      have hpassed : compileEntries matcher rest = .ok trees := by
        cases v with
        | list items => exact absurd rfl (hv items)
        | _ => exact h
      obtain ⟨hle, -⟩ := sizes_le_of_keepsEntries hpassed hrest
      rw [sizes, size]
      exact ⟨by omega, fun hsize => by omega⟩

theorem sizes_le_of_keepsItems : ∀ {items : List Value} {trees others : List (Expression α)},
    compileItems matcher items = .ok trees → KeepsItems matcher items others →
      sizes trees ≤ sizes others ∧ (sizes others ≤ sizes trees → unmixedItems items = true)
  | [], _, _, h, hkeeps => by
    obtain rfl := Except.ok.inj h
    cases hkeeps
    exact ⟨Nat.le_refl _, fun _ => rfl⟩
  | item :: rest, trees, others, h, hkeeps => by
    obtain ⟨child, hchild, h⟩ := bind_eq_ok_iff.mp h
    obtain ⟨later, hlater, h⟩ := bind_eq_ok_iff.mp h
    obtain rfl := pure_eq_ok_iff.mp h
    obtain _ | ⟨hitem, hitems⟩ := hkeeps
    obtain ⟨hle, hunmixed⟩ := size_le_of_keeps hchild hitem
    obtain ⟨hle', hunmixed'⟩ := sizes_le_of_keepsItems hlater hitems
    rw [sizes, sizes]
    refine ⟨by omega, fun hsize => ?_⟩
    rw [unmixedItems, hunmixed (by omega), hunmixed' (by omega)]
    rfl

end

/-! ### Unmixed queries are kept -/

theorem connective_of_unmixedEntries {connective : Connective} {entries : List (String × Value)}
    (h : unmixedEntries connective entries = true) :
    ∀ entry ∈ entries, Connective.ofName entry.1 = connective := by
  induction entries with
  | nil => exact List.forall_mem_nil _
  | cons entry rest ih =>
    obtain ⟨name, v⟩ := entry
    cases v with
    | list items =>
      rw [unmixedEntries, Bool.and_eq_true, Bool.and_eq_true, decide_eq_true_iff] at h
      exact List.forall_mem_cons.mpr ⟨h.1.1, ih h.2⟩
    | _ => cases h

theorem exists_of_lookup?_isSome {name : String} {entries : List (String × Value)}
    (h : (lookup? name entries).isSome = true) : ∃ v, (name, v) ∈ entries := by
  rw [lookup?, Option.isSome_map] at h
  obtain ⟨entry, hentry⟩ := Option.isSome_iff_exists.mp h
  obtain rfl : entry.1 = name := by simpa using List.find?_some hentry
  exact ⟨entry.2, List.mem_of_find?_eq_some hentry⟩

/-- Entries that are all under one connective are under `$and` or `$or`. -/
theorem all_or_any_of_unmixedEntries {connective : Connective} {entries : List (String × Value)}
    (hcombines : combines entries = true) (h : unmixedEntries connective entries = true) :
    connective = .all ∨ connective = .any := by
  have hnames := connective_of_unmixedEntries h
  rw [combines, Bool.or_eq_true] at hcombines
  rcases hcombines with hand | hor
  · obtain ⟨v, hmem⟩ := exists_of_lookup?_isSome hand
    exact Or.inl (hnames _ hmem).symm
  · obtain ⟨v, hmem⟩ := exists_of_lookup?_isSome hor
    exact Or.inr (hnames _ hmem).symm

mutual

/-- **The compiled tree of an unmixed query keeps its constraints.** -/
theorem keeps_of_unmixed : ∀ {v : Value} {tree : Expression α},
    compileNode matcher v = .ok tree → unmixed v = true → Keeps matcher v tree
  | .mapping entries, tree, h, hunmixed => by
    cases hcombines : combines entries with
    | true =>
      rw [unmixed, if_pos hcombines] at hunmixed
      rw [compileNode_of_combines hcombines] at h
      obtain ⟨children, hchildren, htree⟩ := bind_eq_ok_iff.mp h
      obtain rfl := pure_eq_ok_iff.mp htree
      exact .combined hcombines (all_or_any_of_unmixedEntries hcombines hunmixed)
        (keepsEntries_of_unmixed hchildren hunmixed)
    | false =>
      rcases of_compileNode_fields hcombines h with
        ⟨constraint, others, hconstraints, hfirst, hothers⟩ | ⟨leaves, hleaves, rfl, -, -⟩
      · rw [hothers.mp hunmixed] at hconstraints
        exact .single hcombines hconstraints hfirst
      · exact .fields hcombines hleaves
  | .null, _, h, _ | .bool _, _, h, _ | .int _, _, h, _ | .float _, _, h, _ | .text _, _, h, _
  | .list _, _, h, _ | .tuple _, _, h, _ | .object _, _, h, _ | .set _, _, h, _
  | .path _, _, h, _ | .octets _, _, h, _ | .failure _, _, h, _ => by cases h

theorem keepsEntries_of_unmixed : ∀ {entries : List (String × Value)} {connective : Connective}
    {trees : List (Expression α)}, compileEntries matcher entries = .ok trees →
      unmixedEntries connective entries = true → KeepsEntries matcher connective entries trees
  | [], _, _, h, _ => by
    obtain rfl := Except.ok.inj h
    exact .nil
  | (name, .list items) :: rest, connective, trees, h, hunmixed => by
    obtain ⟨children, hchildren, h⟩ := bind_eq_ok_iff.mp h
    obtain ⟨later, hlater, h⟩ := bind_eq_ok_iff.mp h
    obtain rfl := pure_eq_ok_iff.mp h
    rw [unmixedEntries, Bool.and_eq_true, Bool.and_eq_true, decide_eq_true_iff] at hunmixed
    obtain ⟨⟨hname, hitems⟩, hrest⟩ := hunmixed
    exact .own hname (keepsItems_of_unmixed hchildren hitems) (keepsEntries_of_unmixed hlater hrest)

theorem keepsItems_of_unmixed : ∀ {items : List Value} {trees : List (Expression α)},
    compileItems matcher items = .ok trees → unmixedItems items = true →
      KeepsItems matcher items trees
  | [], _, h, _ => by
    obtain rfl := Except.ok.inj h
    exact .nil
  | item :: rest, trees, h, hunmixed => by
    obtain ⟨child, hchild, h⟩ := bind_eq_ok_iff.mp h
    obtain ⟨later, hlater, h⟩ := bind_eq_ok_iff.mp h
    obtain rfl := pure_eq_ok_iff.mp h
    rw [unmixedItems, Bool.and_eq_true] at hunmixed
    exact .cons (keeps_of_unmixed hchild hunmixed.1) (keepsItems_of_unmixed hlater hunmixed.2)

end

theorem compileNode_keeps_iff {v : Value} {tree : Expression α}
    (h : compileNode matcher v = .ok tree) : Keeps matcher v tree ↔ unmixed v = true :=
  ⟨fun hkeeps => (size_le_of_keeps h hkeeps).2 (Nat.le_refl _), keeps_of_unmixed h⟩

/-! ### Whole queries -/

/-- What stands beside a connective and is no list has a leaf under the node. -/
theorem KeepsEntries.exists_leaf {connective : Connective} {entries : List (String × Value)}
    {children : List (Expression α)} (h : KeepsEntries matcher connective entries children)
    (hconnective : connective = .all ∨ connective = .any) {name : String} {v : Value}
    (hmem : (name, v) ∈ entries) (hall : name ≠ "$and") (hany : name ≠ "$or") :
    ∃ l, .leaf l ∈ children := by
  have hother : Connective.ofName name = .other name := by
    rw [Connective.ofName, if_neg hall, if_neg hany]
  induction entries generalizing children with
  | nil => exact absurd hmem List.not_mem_nil
  | cons entry rest ih =>
    cases h with
    | own hname hitems hrest =>
      rcases List.mem_cons.mp hmem with heq | hmem
      · obtain ⟨rfl, -⟩ := Prod.mk.inj heq
        rw [← hname, hother] at hconnective
        simp at hconnective
      · obtain ⟨l, hl⟩ := ih hrest hmem
        exact ⟨l, List.mem_append_right _ hl⟩
    | apart hname hitems hrest =>
      rcases List.mem_cons.mp hmem with heq | hmem
      · obtain ⟨rfl, -⟩ := Prod.mk.inj heq
        rw [hother] at hname
        simp at hname
      · obtain ⟨l, hl⟩ := ih hrest hmem
        exact ⟨l, List.mem_cons_of_mem _ hl⟩
    | stray hv hrest => exact ⟨_, List.mem_cons_self⟩

theorem exists_path {entries : List (String × Value)} (hpath : hasPath entries = true) :
    ∃ v, ("$path", v) ∈ entries := by
  apply exists_of_lookup?_isSome
  cases hlookup : lookup? "$path" entries with
  | none =>
    rw [hasPath, hlookup] at hpath
    cases hpath
  | some v => rfl

/-- A path beside a connective makes a query mixed. -/
theorem unmixed_of_path_beside_connective {entries : List (String × Value)}
    (hcombines : combines entries = true) (hpath : hasPath entries = true) :
    unmixed (.mapping entries) = false := by
  rw [unmixed, if_pos hcombines, Bool.eq_false_iff]
  intro hentries
  obtain ⟨v, hmem⟩ := exists_path hpath
  have hname : Connective.ofName "$path" = connectiveOf entries :=
    connective_of_unmixedEntries hentries _ hmem
  have hconnective := all_or_any_of_unmixedEntries hcombines hentries
  rw [← hname] at hconnective
  exact absurd hconnective (by decide)

/-- A path beside a connective is not kept by a node with a single node under it. -/
theorem not_keeps_node_node {entries : List (String × Value)} {outer inner : Connective}
    {children : List (Expression α)} (hcombines : combines entries = true)
    (hpath : hasPath entries = true) :
    ¬Keeps matcher (.mapping entries) (.node outer [.node inner children]) := by
  intro hkeeps
  obtain ⟨v, hmem⟩ := exists_path hpath
  cases hkeeps with
  | single hfields =>
    rw [hcombines] at hfields
    cases hfields
  | fields hfields =>
    rw [hcombines] at hfields
    cases hfields
  | combined _ hconnective hentries =>
    obtain ⟨l, hl⟩ := hentries.exists_leaf hconnective hmem (by decide) (by decide)
    cases List.mem_singleton.mp hl

/-- A path is kept by a node with its leaf exactly if it stands alone. -/
theorem keeps_path_iff {entries : List (String × Value)} {tree : Expression α}
    (hcombines : combines entries = false) (hpath : hasPath entries = true)
    (h : leaf matcher ((lookup? "$path" entries).getD .null)
      ((lookup? "$val" entries).getD .null) = .ok tree) :
    Keeps matcher (.mapping entries) (.node .all [tree]) ↔ unmixed (.mapping entries) = true := by
  obtain ⟨l, rfl⟩ := exists_leaf h
  rw [unmixed, hcombines, if_neg Bool.false_ne_true, hpath, Bool.not_true, Bool.false_or,
    List.isEmpty_iff]
  constructor
  · intro hkeeps
    cases hkeeps with
    | single _ _ hleaf =>
      obtain ⟨l', hl'⟩ := LogicalQuery.exists_leaf hleaf
      cases hl'
    | fields _ hleaves =>
      have hsize := (leaves_of_mapM hleaves).1
      rw [fieldConstraints, if_pos hpath, List.length_cons, List.length_map] at hsize
      exact List.eq_nil_of_length_eq_zero (by simpa [sizes, size] using hsize)
    | combined hcombines' =>
      rw [hcombines] at hcombines'
      cases hcombines'
  · intro halone
    refine .fields hcombines ?_
    rw [fieldConstraints, if_pos hpath, halone, List.map_nil, List.mapM_cons, h]
    rfl

/-- The compiled tree of a query keeps its constraints exactly if the query is unmixed. -/
theorem compile_keeps_iff {query : Value} {tree : Expression α}
    (h : compile matcher query = .ok tree) : Keeps matcher query tree ↔ unmixed query = true := by
  cases query with
  | mapping entries =>
    rw [compile] at h
    split_ifs at h with hpath hcombines
    · obtain ⟨child, hchild, htree⟩ := bind_eq_ok_iff.mp h
      obtain rfl := pure_eq_ok_iff.mp htree
      cases hcombines : combines entries with
      | true =>
        rw [compileNode_of_combines hcombines] at hchild
        obtain ⟨children, -, hnode⟩ := bind_eq_ok_iff.mp hchild
        obtain rfl := pure_eq_ok_iff.mp hnode
        rw [unmixed_of_path_beside_connective hcombines hpath]
        exact iff_of_false (not_keeps_node_node hcombines hpath) Bool.false_ne_true
      | false =>
        rw [compileNode_of_hasPath hcombines hpath] at hchild
        exact keeps_path_iff hcombines hpath hchild
    · rw [Bool.not_eq_true] at hpath
      rw [Bool.not_eq_true'] at hcombines
      obtain ⟨leaves, hleaves, rfl⟩ := (conjunction_eq_ok_iff hpath).mp h
      refine iff_of_true (.fields hcombines hleaves) ?_
      rw [unmixed, hcombines, if_neg Bool.false_ne_true, hpath]
      rfl
    · exact compileNode_keeps_iff h
  | _ => cases h

/-- **The constraints of a query all reach its tree exactly if the query is unmixed**, and then each
node of the tree demands all its children or any of them. -/
theorem constraints_reach_tree_iff {query : Value} {tree : Expression α}
    (h : compile matcher query = .ok tree) :
    (Keeps matcher query tree ↔ unmixed query = true) ∧
      (unmixed query = true → tree.Connected) := by
  have hiff := compile_keeps_iff h
  exact ⟨hiff, fun hunmixed => (hiff.mpr hunmixed).connected⟩

/-- A query with a list of any inside a list of all: its tree has a place for each constraint. -/
theorem constraints_reach_tree_nested :
    let matcher : String → Option (Matcher Float) := fun _ => none
    let tags : Value := .mapping [("$path", .list [.text "tags"]), ("$val", .text "z")]
    let query : Value := .mapping [("$and", .list [.mapping [("title", .text "x")],
      .mapping [("$or", .list [.mapping [("author", .text "y")], tags])]])]
    let tree : Expression Float := .node .all [.leaf ⟨"title", "x", none⟩,
      .node .any [.leaf ⟨"author", "y", none⟩, .leaf ⟨"tags", "z", none⟩]]
    compile matcher query = .ok tree ∧ Keeps matcher query tree ∧ tree.Connected := by
  intro matcher tags query tree
  have hcompile : compile matcher query = .ok tree := rfl
  obtain ⟨hkeeps, hconnected⟩ := constraints_reach_tree_iff hcompile
  exact ⟨hcompile, hkeeps.mpr (by decide), hconnected (by decide)⟩

/-- A list of any beside a list of all is moved under the latter, and a pattern before a list takes
the place of the connective, although there are trees that keep both. -/
theorem mixed_queries_lose_constraints :
    let matcher : String → Option (Matcher Float) := fun _ => none
    let author : Value := .mapping [("author", .text "y")]
    let lists : Value :=
      .mapping [("$and", .list [.mapping [("title", .text "x")]]), ("$or", .list [author])]
    let beside : Value := .mapping [("title", .text "x"), ("$and", .list [author])]
    let titleLeaf : Expression Float := .leaf ⟨"title", "x", none⟩
    let authorLeaf : Expression Float := .leaf ⟨"author", "y", none⟩
    (compile matcher lists = .ok (.node .all [titleLeaf, authorLeaf]) ∧
        ¬Keeps matcher lists (.node .all [titleLeaf, authorLeaf]) ∧
        Keeps matcher lists (.node .all [titleLeaf, .node .any [authorLeaf]])) ∧
      compile matcher beside = .ok (.node (.other "title") [authorLeaf]) ∧
        ¬(Expression.node (.other "title") [authorLeaf]).Connected ∧
        ¬Keeps matcher beside (.node (.other "title") [authorLeaf]) ∧
        Keeps matcher beside (.node .all [titleLeaf, authorLeaf]) := by
  intro matcher author lists beside titleLeaf authorLeaf
  have hlists : compile matcher lists = .ok (.node .all [titleLeaf, authorLeaf]) := rfl
  have hbeside : compile matcher beside = .ok (.node (.other "title") [authorLeaf]) := rfl
  have hauthor : KeepsItems matcher [author] [authorLeaf] := .cons (.single rfl rfl rfl) .nil
  have htitle : KeepsItems matcher [.mapping [("title", .text "x")]] [titleLeaf] :=
    .cons (.single rfl rfl rfl) .nil
  have hany : KeepsEntries matcher .all [("$or", .list [author])] [.node .any [authorLeaf]] :=
    .apart (Or.inr rfl) hauthor .nil
  have hboth : KeepsEntries matcher .all
      [("$and", .list [.mapping [("title", .text "x")]]), ("$or", .list [author])]
      ([titleLeaf] ++ [.node .any [authorLeaf]]) := .own rfl htitle hany
  have hall : KeepsEntries matcher .all [("$and", .list [author])] ([authorLeaf] ++ []) :=
    .own rfl hauthor .nil
  refine ⟨⟨hlists, ?_, .combined rfl (Or.inl rfl) hboth⟩, hbeside, ?_, ?_,
    .combined rfl (Or.inl rfl) (.stray (by simp) hall)⟩
  · rw [compile_keeps_iff hlists]
    decide
  · simp [Connected]
  · rw [compile_keeps_iff hbeside]
    decide

end LogicalQuery

end FuzzySearch
