import FuzzySearch.Value.Path
import Mathlib.Data.Bool.Basic
import Mathlib.Data.List.Basic

/-!
# Walks along a path

`Value.walk` says by recursion which texts a path leads to, and `Value.crosses` whether a list
stands under one of its names.  A visit leads to just what the walk of its value does
(`texts_visit`, `crosses_visit`), so a stack of values gives their walks one after the other
(`walkStack_eq`).  Hence the field value at the end of a path is its walk, and no text is lost when
no list was crossed (`valueAt_eq_walk`).
-/

namespace FuzzySearch

/-! ### The recursive walk -/

namespace Value

/-- What stands under a name, unless it is null. -/
def child? (v : Value) (name : String) : Option Value :=
  match v.member? name with
  | none | some .null => none
  | some child => some child

theorem member?_of_child? {v child : Value} {name : String} (h : v.child? name = some child) :
    v.member? name = some child := by
  unfold child? at h
  split at h
  · cases h
  · cases h
  · next found _ hfound => rw [hfound, Option.some.inj h]

/-- The texts that a path leads to.  At its end a scalar gives its text and a list what its items
give; before that the next name is looked up, and a list under it gives what its items give along
the rest of the path. -/
def walk (v : Value) (path : List String) : List String :=
  match path with
  | [] =>
    if v.isScalar then [v.searchText]
    else
      match _h : v.items? with
      | some items => items.attach.flatMap fun ⟨item, _⟩ => walk item []
      | none => []
  | name :: rest =>
    match _h : v.child? name with
    | none => []
    | some child =>
      match _hi : child.items? with
      | some items => items.attach.flatMap fun ⟨item, _⟩ => walk item rest
      | none => walk child rest
termination_by v.size
decreasing_by
  · exact Nat.lt_of_le_of_lt (size_le_sizes ‹_›) (size_lt_of_items? _h)
  · exact Nat.lt_trans (Nat.lt_of_le_of_lt (size_le_sizes ‹_›) (size_lt_of_items? _hi))
      (size_lt_of_member? (member?_of_child? _h))
  · exact size_lt_of_member? (member?_of_child? _h)

/-- Whether a list stands under a name that is looked up along a path. -/
def crosses (v : Value) : List String → Bool
  | [] => false
  | name :: rest =>
    match v.child? name with
    | none => false
    | some child => child.items?.isSome || child.crosses rest

theorem flatMap_attach (items : List Value) (path : List String) :
    (items.attach.flatMap fun ⟨item, _⟩ => walk item path) = items.flatMap (walk · path) := by
  simp [List.flatMap_subtype]

theorem walk_nil (v : Value) :
    v.walk [] =
      if v.isScalar then [v.searchText]
      else
        match v.items? with
        | some items => items.flatMap (walk · [])
        | none => [] := by
  rw [walk]
  simp only [flatMap_attach]
  split
  · rfl
  · split <;> simp [*]

theorem walk_cons (v : Value) (name : String) (rest : List String) :
    v.walk (name :: rest) =
      match v.child? name with
      | none => []
      | some child =>
        match child.items? with
        | some items => items.flatMap (walk · rest)
        | none => child.walk rest := by
  rw [walk]
  simp only [flatMap_attach]
  split
  · simp only [*]
  · split <;> simp only [*]

/-- A scalar is no list. -/
theorem items?_of_isScalar {v : Value} (h : v.isScalar = true) : v.items? = none := by
  cases v <;> first | rfl | exact Bool.noConfusion h

/-- Without a list on the way a path leads to one text at most. -/
theorem length_walk_le_one {v : Value} {name : String} {rest : List String}
    (h : v.crosses (name :: rest) = false) : (v.walk (name :: rest)).length ≤ 1 := by
  induction rest generalizing v name with
  | nil =>
    rw [walk_cons]
    rw [crosses] at h
    cases hchild : v.child? name with
    | none => simp
    | some child =>
      rw [hchild] at h
      have hitems : child.items? = none := by simpa [crosses] using h
      simp only [hitems, walk_nil]
      split <;> simp
  | cons next rest ih =>
    rw [walk_cons]
    rw [crosses] at h
    cases hchild : v.child? name with
    | none => simp
    | some child =>
      rw [hchild] at h
      have hrest : child.items? = none ∧ child.crosses (next :: rest) = false := by simpa using h
      simp only [hrest.1]
      exact ih hrest.2

end Value

/-! ### What a visit leads to -/

namespace Visit

/-- The texts that a visit leads to. -/
def texts : Visit → List String
  | nothing => []
  | found text => [text]
  | fork items path _ => items.flatMap (·.walk path)
  | enter v path => v.walk path

/-- Whether a visit leads over a list. -/
def crosses : Visit → Bool
  | nothing | found _ => false
  | fork items path now => now || items.any (·.crosses path)
  | enter v path => v.crosses path

end Visit

theorem visit_cons (v : Value) (name : String) (rest : List String) :
    visit v (name :: rest) =
      match v.child? name with
      | none => .nothing
      | some child =>
        if rest.isEmpty && child.isScalar then .found child.searchText
        else
          match child.items? with
          | some items => .fork items rest true
          | none => .enter child rest := by
  rw [visit, Value.child?]
  cases v.member? name with
  | none => rfl
  | some child => cases child <;> rfl

/-- **A visit leads to the texts of the walk.** -/
theorem texts_visit (v : Value) (path : List String) : (visit v path).texts = v.walk path := by
  cases path with
  | nil =>
    rw [visit, Value.walk_nil]
    split
    · rfl
    · cases v.items? <;> rfl
  | cons name rest =>
    rw [visit_cons, Value.walk_cons]
    cases v.child? name with
    | none => rfl
    | some child =>
      simp only
      split
      · -- a scalar under the last name is the end of the path already
        next hlast =>
        obtain ⟨hrest, hscalar⟩ : rest = [] ∧ child.isScalar = true := by simpa using hlast
        have hitems := Value.items?_of_isScalar hscalar
        simp only [hrest, hitems, Visit.texts, Value.walk_nil, hscalar, if_true]
      · cases child.items? <;> rfl

/-- **A visit leads over a list exactly if the walk does.** -/
theorem crosses_visit (v : Value) (path : List String) :
    (visit v path).crosses = v.crosses path := by
  cases path with
  | nil =>
    rw [visit, Value.crosses]
    split
    · rfl
    · cases v.items? <;> simp [Visit.crosses, Value.crosses]
  | cons name rest =>
    rw [visit_cons, Value.crosses]
    cases v.child? name with
    | none => rfl
    | some child =>
      simp only
      split
      · next hlast =>
        obtain ⟨hrest, hscalar⟩ : rest = [] ∧ child.isScalar = true := by simpa using hlast
        have hitems := Value.items?_of_isScalar hscalar
        simp [hrest, hitems, Visit.crosses, Value.crosses]
      · cases child.items? <;> simp [Visit.crosses]

theorem walk_of_visit {v : Value} {path : List String} {outcome : Visit}
    (h : visit v path = outcome) :
    v.walk path = outcome.texts ∧ v.crosses path = outcome.crosses := by
  rw [← h]
  exact ⟨(texts_visit v path).symm, (crosses_visit v path).symm⟩

/-! ### The stack -/

/-- **A stack gives the walks of its values one after the other**, behind the texts found before. -/
theorem walkStack_eq (stack : List (Value × List String)) (found : List String) (crossed : Bool) :
    walkStack stack found crossed
      = (found.reverse ++ stack.flatMap fun entry => entry.1.walk entry.2,
          crossed || stack.any fun entry => entry.1.crosses entry.2) := by
  -- what is on top of the stack is replaced by what its visit leads to
  fun_induction walkStack stack found crossed with
  | case1 found crossed => simp
  | case2 found crossed v path rest hvisit ih =>
    obtain ⟨htexts, hcrosses⟩ := walk_of_visit hvisit
    simp [ih, htexts, hcrosses, Visit.texts, Visit.crosses]
  | case3 found crossed v path rest text hvisit ih =>
    obtain ⟨htexts, hcrosses⟩ := walk_of_visit hvisit
    simp [ih, htexts, hcrosses, Visit.texts, Visit.crosses]
  | case4 found crossed v path rest items path' now hvisit ih =>
    obtain ⟨htexts, hcrosses⟩ := walk_of_visit hvisit
    simp [ih, htexts, hcrosses, Visit.texts, Visit.crosses, List.flatMap_map, Bool.or_assoc,
      Function.comp_def]
  | case5 found crossed v path rest child path' hvisit ih =>
    obtain ⟨htexts, hcrosses⟩ := walk_of_visit hvisit
    simp [ih, htexts, hcrosses, Visit.texts, Visit.crosses]

theorem valueAt_eq_pathValue (v : Value) (path : List String) :
    valueAt v path = pathValue (v.walk path) (v.crosses path) := by
  simp [valueAt, walkStack_eq]

/-- **What is found at the end of a path is its walk**: a list of texts if a list stands under one
of the names, otherwise the single text of the walk, or nothing if the walk has none. -/
theorem valueAt_eq_walk (v : Value) (name : String) (rest : List String) :
    let path := name :: rest
    (v.crosses path = true ∧ valueAt v path = .many (v.walk path)) ∨
      (v.crosses path = false ∧ v.walk path = [] ∧ valueAt v path = .nothing) ∨
      (v.crosses path = false ∧ ∃ text, v.walk path = [text] ∧ valueAt v path = .single text) := by
  intro path
  have hvalue : valueAt v path = pathValue (v.walk path) (v.crosses path) :=
    valueAt_eq_pathValue v path
  cases hcrosses : v.crosses path with
  | true => simp [hvalue, hcrosses, pathValue]
  | false =>
    have hlength : (v.walk path).length ≤ 1 := Value.length_walk_le_one hcrosses
    cases hwalk : v.walk path with
    | nil => simp [hvalue, hwalk, hcrosses, pathValue]
    | cons text others =>
      have hothers : others = [] := by simpa [hwalk] using hlength
      simp [hvalue, hwalk, hothers, hcrosses, pathValue]

/-- An empty path crosses no list, so of the texts of a list only the first is kept. -/
example : valueAt (.list [.int 1, .int 2]) [] = .single "1" := by cbv

end FuzzySearch
