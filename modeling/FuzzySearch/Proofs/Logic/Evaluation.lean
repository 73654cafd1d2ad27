import FuzzySearch.Logic.Expression
import Mathlib.Tactic.SplitIfs

/-!
# Which logical expressions match

An expression is evaluated lazily, but what it decides is plain: a node that demands all its
children matches when it has children and all of them match (`Expression.evaluate_all_ne_nil_iff`),
one that demands any of them when one of them does (`Expression.evaluate_any_ne_nil_iff`), and every
match of a node is one of its children's (`Expression.exists_of_mem_evaluate_node`).
-/

namespace FuzzySearch.Expression

variable {α β : Type} (ask : Leaf α → Id (List β))

theorem evaluateAll_cons (child : Expression α) (rest : List (Expression α)) :
    (evaluateAll ask (child :: rest)).run
      = if (evaluate ask child).run.isEmpty then none
        else (evaluateAll ask rest).run.map ((evaluate ask child).run ++ ·) := by
  rw [evaluateAll]
  rfl

theorem evaluateAny_cons (child : Expression α) (rest : List (Expression α)) :
    (evaluateAny ask (child :: rest)).run
      = if (evaluate ask child).run.isEmpty then (evaluateAny ask rest).run
        else (evaluate ask child).run := by
  rw [evaluateAny]
  rfl

/-- The children of a node match together when each of them matches. -/
theorem isSome_evaluateAll_iff (children : List (Expression α)) :
    (evaluateAll ask children).run.isSome = true ↔
      ∀ child ∈ children, (evaluate ask child).run ≠ [] := by
  induction children with
  | nil => exact iff_of_true rfl fun child h => absurd h List.not_mem_nil
  | cons child rest ih =>
    rw [evaluateAll_cons, List.forall_mem_cons, ← ih, ne_eq, ← List.isEmpty_iff]
    split_ifs with hempty
    · exact iff_of_false Bool.false_ne_true fun h => h.1 hempty
    · rw [Option.isSome_map]
      exact (and_iff_right hempty).symm

/-- A node that demands all its children matches when it has children and all of them match. -/
theorem evaluate_all_ne_nil_iff (children : List (Expression α)) :
    (evaluate ask (node .all children)).run ≠ [] ↔
      children ≠ [] ∧ ∀ child ∈ children, (evaluate ask child).run ≠ [] := by
  rw [← isSome_evaluateAll_iff, evaluate]
  show (evaluateAll ask children).run.getD [] ≠ [] ↔ _
  cases children with
  | nil => exact iff_of_false (fun h => h rfl) fun h => h.1 rfl
  | cons child rest =>
    rw [evaluateAll_cons]
    split_ifs with hempty
    · exact iff_of_false (fun h => h rfl) fun h => Bool.false_ne_true h.2
    · rw [List.isEmpty_iff] at hempty
      -- the first child has matches, so the node matches exactly when the others do
      cases (evaluateAll ask rest).run with
      | none => exact iff_of_false (fun h => h rfl) fun h => Bool.false_ne_true h.2
      | some others => simp [hempty]

/-- A node that demands any of its children matches when one of them does. -/
theorem evaluate_any_ne_nil_iff (children : List (Expression α)) :
    (evaluate ask (node .any children)).run ≠ [] ↔
      ∃ child ∈ children, (evaluate ask child).run ≠ [] := by
  rw [evaluate]
  induction children with
  | nil => exact iff_of_false (fun h => h rfl) fun ⟨child, h, _⟩ => List.not_mem_nil h
  | cons child rest ih =>
    simp only [evaluateAny_cons, List.mem_cons, exists_eq_or_imp, ← ih]
    split_ifs with hempty <;> rw [List.isEmpty_iff] at hempty
    · exact (or_iff_right fun h => h hempty).symm
    · exact iff_of_true hempty (Or.inl hempty)

theorem exists_of_mem_evaluateAll {children : List (Expression α)} {all : List β}
    (h : (evaluateAll ask children).run = some all) {found : β} (hfound : found ∈ all) :
    ∃ child ∈ children, found ∈ (evaluate ask child).run := by
  induction children generalizing all with
  | nil =>
    obtain rfl := Option.some.inj h
    exact absurd hfound List.not_mem_nil
  | cons child rest ih =>
    rw [evaluateAll_cons] at h
    split_ifs at h
    obtain ⟨others, hothers, rfl⟩ := Option.map_eq_some_iff.mp h
    rcases List.mem_append.mp hfound with hchild | hrest
    · exact ⟨child, List.mem_cons_self, hchild⟩
    · obtain ⟨later, hlater, hmem⟩ := ih hothers hrest
      exact ⟨later, List.mem_cons_of_mem child hlater, hmem⟩

theorem exists_of_mem_evaluateAny {children : List (Expression α)} {found : β}
    (hfound : found ∈ (evaluateAny ask children).run) :
    ∃ child ∈ children, found ∈ (evaluate ask child).run := by
  induction children with
  | nil => exact absurd hfound List.not_mem_nil
  | cons child rest ih =>
    rw [evaluateAny_cons] at hfound
    split_ifs at hfound
    · obtain ⟨later, hlater, hmem⟩ := ih hfound
      exact ⟨later, List.mem_cons_of_mem child hlater, hmem⟩
    · exact ⟨child, List.mem_cons_self, hfound⟩

/-- The matches of a node are matches of its children. -/
theorem exists_of_mem_evaluate_node {connective : Connective} {children : List (Expression α)}
    {found : β} (hfound : found ∈ (evaluate ask (node connective children)).run) :
    ∃ child ∈ children, found ∈ (evaluate ask child).run := by
  cases connective with
  | all =>
    rw [evaluate] at hfound
    replace hfound : found ∈ (evaluateAll ask children).run.getD [] := hfound
    cases hall : (evaluateAll ask children).run with
    | none =>
      rw [hall] at hfound
      exact absurd hfound List.not_mem_nil
    | some all =>
      rw [hall] at hfound
      exact exists_of_mem_evaluateAll ask hall hfound
  | any =>
    rw [evaluate] at hfound
    exact exists_of_mem_evaluateAny ask hfound
  | other name => exact absurd hfound List.not_mem_nil

end FuzzySearch.Expression
