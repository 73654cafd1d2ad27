import FuzzySearch.Value.Basic

/-!
# The size of a value

`Value.size` counts the values inside a value, itself included.  What is found inside a value is
smaller than the value, which is why a walk through a value ends.
-/

namespace FuzzySearch.Value

mutual

/-- The number of values inside a value, itself included. -/
def size : Value → Nat
  | list items | tuple items | set items => 1 + sizes items
  | mapping entries | object entries => 1 + entrySizes entries
  | _ => 1

/-- The number of values inside a list of values. -/
def sizes : List Value → Nat
  | [] => 0
  | v :: rest => size v + sizes rest

/-- The number of values inside named values. -/
def entrySizes : List (String × Value) → Nat
  | [] => 0
  | (_, v) :: rest => size v + entrySizes rest

end

theorem size_pos (v : Value) : 0 < v.size := by
  cases v <;> unfold size <;> omega

theorem size_le_sizes {v : Value} {items : List Value} (h : v ∈ items) : v.size ≤ sizes items := by
  induction items with
  | nil => exact absurd h List.not_mem_nil
  | cons item rest ih =>
    rw [sizes]
    rcases List.mem_cons.mp h with rfl | h
    · exact Nat.le_add_right _ _
    · exact Nat.le_trans (ih h) (Nat.le_add_left _ _)

theorem size_lt_of_items? {v : Value} {items : List Value} (h : v.items? = some items) :
    sizes items < v.size := by
  cases v <;> simp_all [items?, size]

theorem size_le_entrySizes {entry : String × Value} {entries : List (String × Value)}
    (h : entry ∈ entries) : entry.2.size ≤ entrySizes entries := by
  induction entries with
  | nil => exact absurd h List.not_mem_nil
  | cons first rest ih =>
    rw [entrySizes]
    rcases List.mem_cons.mp h with rfl | h
    · exact Nat.le_add_right _ _
    · exact Nat.le_trans (ih h) (Nat.le_add_left _ _)

theorem size_le_of_lookup? {name : String} {entries : List (String × Value)} {v : Value}
    (h : lookup? name entries = some v) : v.size ≤ entrySizes entries := by
  obtain ⟨entry, hentry, rfl⟩ := Option.map_eq_some_iff.mp h
  exact size_le_entrySizes (List.mem_of_find?_eq_some hentry)

theorem size_lt_of_member? {name : String} {v w : Value} (h : v.member? name = some w) :
    w.size < v.size := by
  cases v <;> simp only [member?, reduceCtorEq] at h
  all_goals
    have hle := size_le_of_lookup? h
    simp only [size]
    omega

end FuzzySearch.Value
