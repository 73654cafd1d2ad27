import FuzzySearch.Proofs.EditDistance

/-!
# Edit scripts

An edit script turns a text, its source, into another, its target, letter by letter: it keeps a
letter, replaces it, deletes it or inserts one.  All but the letters that are kept cost an error.
`editDistance_le_iff`: the edit distance of two texts is the least cost of a script from one to the
other.
-/

namespace FuzzySearch.Text

/-- One step of an edit script. -/
inductive Edit where
  | keep (a : Char)
  | replace (a b : Char)
  | delete (a : Char)
  | insert (b : Char)
  deriving DecidableEq, Repr

namespace Edit

/-- What a step reads. -/
def source : Edit → List Char
  | keep a | replace a _ | delete a => [a]
  | insert _ => []

/-- What a step writes. -/
def target : Edit → List Char
  | keep b | replace _ b | insert b => [b]
  | delete _ => []

/-- The errors of a step. -/
def cost : Edit → Nat
  | keep _ => 0
  | replace _ _ | delete _ | insert _ => 1

end Edit

/-- The text that a script starts from. -/
def source (script : List Edit) : List Char := script.flatMap Edit.source

/-- The text that a script makes. -/
def target (script : List Edit) : List Char := script.flatMap Edit.target

/-- The errors of a script. -/
def cost : List Edit → Nat
  | [] => 0
  | edit :: rest => edit.cost + cost rest

@[simp] theorem source_nil : source [] = [] := rfl

@[simp] theorem target_nil : target [] = [] := rfl

@[simp] theorem cost_nil : cost [] = 0 := rfl

@[simp] theorem source_cons (edit : Edit) (rest : List Edit) :
    source (edit :: rest) = edit.source ++ source rest := List.flatMap_cons

@[simp] theorem target_cons (edit : Edit) (rest : List Edit) :
    target (edit :: rest) = edit.target ++ target rest := List.flatMap_cons

@[simp] theorem cost_cons (edit : Edit) (rest : List Edit) :
    cost (edit :: rest) = edit.cost + cost rest := rfl

theorem cost_append (before rest : List Edit) :
    cost (before ++ rest) = cost before + cost rest := by
  induction before with
  | nil => exact (Nat.zero_add _).symm
  | cons edit before ih => rw [List.cons_append, cost_cons, ih, cost_cons, Nat.add_assoc]

theorem target_append (before rest : List Edit) :
    target (before ++ rest) = target before ++ target rest := List.flatMap_append

/-! ### Deleting everything -/

/-- The script that deletes a text. -/
def deletions (letters : List Char) : List Edit := letters.map Edit.delete

@[simp] theorem source_deletions (letters : List Char) : source (deletions letters) = letters := by
  induction letters with
  | nil => rfl
  | cons a letters ih => exact congrArg (a :: ·) ih

@[simp] theorem target_deletions (letters : List Char) : target (deletions letters) = [] := by
  induction letters with
  | nil => rfl
  | cons a letters ih => exact ih

@[simp] theorem cost_deletions (letters : List Char) :
    cost (deletions letters) = letters.length := by
  induction letters with
  | nil => rfl
  | cons a letters ih => rw [List.length_cons, Nat.add_comm, ← ih]; exact cost_cons ..

/-- A script that writes nothing deletes what it reads. -/
theorem length_source_le_cost_of_target_eq_nil {script : List Edit} (h : target script = []) :
    (source script).length ≤ cost script := by
  induction script with
  | nil => exact Nat.le_refl 0
  | cons edit rest ih =>
    rw [target_cons, List.append_eq_nil_iff] at h
    have hrest := ih h.2
    cases edit with
    | delete a =>
      rw [source_cons, cost_cons, List.length_append]
      exact Nat.add_le_add (Nat.le_refl 1) hrest
    | _ => cases h.1

/-! ### Scripts and edit distance -/

theorem editDistance_le_cost (script : List Edit) :
    editDistance (source script) (target script) ≤ cost script := by
  induction script with
  | nil => exact Nat.le_refl 0
  | cons edit rest ih =>
    rw [cost_cons]
    cases edit with
    | keep a =>
      calc editDistance (a :: source rest) (a :: target rest)
          ≤ editDistance (source rest) (target rest) := editDistance_cons_keep ..
        _ ≤ 0 + cost rest := by omega
    | replace a b =>
      calc editDistance (a :: source rest) (b :: target rest)
          ≤ editDistance (source rest) (target rest) + 1 := editDistance_cons_replace ..
        _ ≤ 1 + cost rest := by omega
    | delete a =>
      calc editDistance (a :: source rest) (target rest)
          ≤ editDistance (source rest) (target rest) + 1 := editDistance_cons_delete ..
        _ ≤ 1 + cost rest := by omega
    | insert b =>
      calc editDistance (source rest) (b :: target rest)
          ≤ editDistance (source rest) (target rest) + 1 := editDistance_cons_insert ..
        _ ≤ 1 + cost rest := by omega

/-- Some script costs no more than the distance. -/
theorem exists_script (p s : List Char) :
    ∃ script, source script = p ∧ target script = s ∧ cost script ≤ editDistance p s := by
  -- one step on top of a script between shorter texts
  have step : ∀ {p' s' : List Char} (edit : Edit) {bound : Nat},
      edit.cost + editDistance p' s' ≤ bound →
      (∃ script, source script = p' ∧ target script = s' ∧ cost script ≤ editDistance p' s') →
      ∃ script, source script = edit.source ++ p' ∧ target script = edit.target ++ s' ∧
        cost script ≤ bound := by
    rintro _ _ edit bound hbound ⟨script, rfl, rfl, hcost⟩
    refine ⟨edit :: script, source_cons .., target_cons .., ?_⟩
    rw [cost_cons]
    omega
  induction p generalizing s with
  | nil =>
    induction s with
    | nil => exact ⟨[], rfl, rfl, Nat.le_refl 0⟩
    | cons b s ih => exact step (.insert b) (Nat.add_comm 1 s.length).le ih
  | cons a p ihp =>
    induction s with
    | nil => exact step (.delete a) (Nat.add_comm 1 (editDistance p [])).le (ihp [])
    | cons b s ihs =>
      rw [editDistance_cons_cons]
      -- the script begins with the step that the minimum is taken at
      rcases min_choice (editDistance p (b :: s) + 1)
        (min (editDistance (a :: p) s + 1) (editDistance p s + if a = b then 0 else 1)) with h | h
      · rw [h]
        exact step (.delete a) (Nat.add_comm ..).le (ihp (b :: s))
      · rw [h]
        rcases min_choice (editDistance (a :: p) s + 1)
          (editDistance p s + if a = b then 0 else 1) with h | h
        · rw [h]
          exact step (.insert b) (Nat.add_comm ..).le ihs
        · rw [h]
          split_ifs with hab
          · rw [hab]
            exact step (.keep b) (Nat.add_comm ..).le (ihp s)
          · exact step (.replace a b) (Nat.add_comm ..).le (ihp s)

/-- **The edit distance is the least cost of a script.** -/
theorem editDistance_le_iff {p s : List Char} {e : Nat} :
    editDistance p s ≤ e ↔ ∃ script, source script = p ∧ target script = s ∧ cost script ≤ e := by
  constructor
  · intro h
    obtain ⟨script, hsource, htarget, hcost⟩ := exists_script p s
    exact ⟨script, hsource, htarget, hcost.trans h⟩
  · rintro ⟨script, rfl, rfl, hcost⟩
    exact (editDistance_le_cost script).trans hcost

end FuzzySearch.Text
