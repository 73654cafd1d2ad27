import Mathlib.Data.List.Forall2

/-!
# Calls that can fail

What the success of a chain or a list of calls says about each of them.
-/

namespace FuzzySearch

variable {ε β γ δ : Type}

/-- A chain of two calls succeeds when both do. -/
theorem bind_eq_ok_iff {x : Except ε β} {f : β → Except ε γ} {z : γ} :
    x >>= f = .ok z ↔ ∃ y, x = .ok y ∧ f y = .ok z := by
  cases x with
  | error e => exact ⟨fun h => by simp [bind, Except.bind] at h, fun ⟨_, h, _⟩ => by simp at h⟩
  | ok y => exact ⟨fun h => ⟨y, rfl, h⟩, fun ⟨_, hy, h⟩ => Except.ok.inj hy ▸ h⟩

theorem ok_bind (x : β) (f : β → Except ε γ) : (Except.ok x >>= f) = f x := rfl

theorem error_bind (e : ε) (f : β → Except ε γ) :
    ((Except.error e : Except ε β) >>= f) = .error e := rfl

theorem map_bind (x : Except ε β) (f : β → γ) (g : γ → Except ε δ) :
    x.map f >>= g = x >>= fun y => g (f y) := by
  cases x <;> rfl

theorem bind_map (x : Except ε β) (f : β → Except ε γ) (g : γ → δ) :
    (x >>= f).map g = x >>= fun y => (f y).map g := by
  cases x <;> rfl

theorem pure_eq_ok_iff {x y : β} : (pure x : Except ε β) = .ok y ↔ x = y :=
  ⟨Except.ok.inj, congrArg Except.ok⟩

theorem map_eq_ok_iff {x : Except ε β} {f : β → γ} {z : γ} :
    x.map f = .ok z ↔ ∃ y, x = .ok y ∧ f y = z := by
  cases x with
  | error e => exact ⟨fun h => by simp [Except.map] at h, fun ⟨_, h, _⟩ => by simp at h⟩
  | ok y => exact ⟨fun h => ⟨y, rfl, Except.ok.inj h⟩, fun ⟨_, hy, h⟩ => Except.ok.inj hy ▸
      congrArg Except.ok h⟩

/-- Calls whose results are changed in the same reversible way were the same. -/
theorem map_injective {f : β → γ} (hf : Function.Injective f) :
    Function.Injective (Except.map f : Except ε β → Except ε γ) := by
  intro x y h
  cases x with
  | error e => cases y with
    | error e' => exact congrArg Except.error (Except.error.inj h)
    | ok b => cases h
  | ok a => cases y with
    | error e' => cases h
    | ok b => exact congrArg Except.ok (hf (Except.ok.inj h))

/-- A list of calls succeeds when each of them does. -/
theorem mapM_eq_ok_iff {f : β → Except ε γ} {xs : List β} {ys : List γ} :
    xs.mapM f = .ok ys ↔ List.Forall₂ (fun x y => f x = .ok y) xs ys := by
  induction xs generalizing ys with
  | nil =>
    rw [List.mapM_nil, pure_eq_ok_iff, List.forall₂_nil_left_iff, eq_comm]
  | cons x xs ih =>
    simp only [List.mapM_cons, bind_eq_ok_iff, pure_eq_ok_iff, ih, List.forall₂_cons_left_iff]
    constructor
    · rintro ⟨y, hy, rest, hrest, rfl⟩
      exact ⟨y, rest, hy, hrest, rfl⟩
    · rintro ⟨y, rest, hy, hrest, rfl⟩
      exact ⟨y, hy, rest, hrest, rfl⟩

/-- A list of calls succeeds when each of them can. -/
theorem exists_mapM_eq_ok {f : β → Except ε γ} {xs : List β}
    (h : ∀ x ∈ xs, ∃ y, f x = .ok y) : ∃ ys, xs.mapM f = .ok ys := by
  induction xs with
  | nil => exact ⟨[], rfl⟩
  | cons x xs ih =>
    obtain ⟨y, hy⟩ := h x List.mem_cons_self
    obtain ⟨rest, hrest⟩ := ih fun z hz => h z (List.mem_cons_of_mem x hz)
    exact ⟨y :: rest, mapM_eq_ok_iff.mpr (List.Forall₂.cons hy (mapM_eq_ok_iff.mp hrest))⟩

/-- What each of the calls can give is given by a list of them. -/
theorem exists_forall₂_of_mapM {f : β → Except ε γ} {r : β → γ → Prop} {xs : List β}
    (h : ∀ x ∈ xs, ∃ y, f x = .ok y ∧ r x y) :
    ∃ ys, xs.mapM f = .ok ys ∧ List.Forall₂ r xs ys := by
  induction xs with
  | nil => exact ⟨[], rfl, .nil⟩
  | cons x xs ih =>
    obtain ⟨y, hy, hr⟩ := h x List.mem_cons_self
    obtain ⟨rest, hrest, hrs⟩ := ih fun z hz => h z (List.mem_cons_of_mem x hz)
    exact ⟨y :: rest, mapM_eq_ok_iff.mpr (.cons hy (mapM_eq_ok_iff.mp hrest)), .cons hr hrs⟩

/-- A list of calls gives what each of them gives. -/
theorem mapM_eq_ok_map {f : β → Except ε γ} {g : β → γ} {xs : List β}
    (h : ∀ x ∈ xs, f x = .ok (g x)) : xs.mapM f = .ok (xs.map g) := by
  rw [mapM_eq_ok_iff, List.forall₂_map_right_iff, List.forall₂_same]
  exact h

/-- What each call keeps is kept by a list of them. -/
theorem map_eq_of_mapM {f : β → Except ε γ} {g : β → δ} {h : γ → δ}
    (hf : ∀ x y, f x = .ok y → h y = g x) {xs : List β} {ys : List γ} (hs : xs.mapM f = .ok ys) :
    ys.map h = xs.map g := by
  have hall := mapM_eq_ok_iff.mp hs
  clear hs
  induction hall with
  | nil => rfl
  | cons hx _ ih => rw [List.map_cons, List.map_cons, hf _ _ hx, ih]

/-- What is done to each result of a list of calls can be done at the end. -/
theorem mapM_map {f : β → Except ε γ} (g : γ → δ) (xs : List β) :
    xs.mapM (fun x => (f x).map g) = (xs.mapM f).map (List.map g) := by
  induction xs with
  | nil => rfl
  | cons x xs ih =>
    rw [List.mapM_cons, List.mapM_cons, ih]
    cases f x with
    | error e => rfl
    | ok y => cases xs.mapM f <;> rfl

/-- What stands in one of two lists whose items belong together has its counterpart. -/
theorem exists_of_mem_forall₂ {r : β → γ → Prop} {xs : List β} {ys : List γ}
    (h : List.Forall₂ r xs ys) {y : γ} (hy : y ∈ ys) : ∃ x ∈ xs, r x y := by
  induction h with
  | nil => exact absurd hy List.not_mem_nil
  | @cons x _ xs _ hx _ ih =>
    rcases List.mem_cons.mp hy with rfl | hy
    · exact ⟨x, List.mem_cons_self, hx⟩
    · obtain ⟨z, hz, hzy⟩ := ih hy
      exact ⟨z, List.mem_cons_of_mem x hz, hzy⟩

/-- An order of one of two lists whose items belong together is one of the other. -/
theorem pairwise_of_forall₂ {r : β → γ → Prop} {p : β → β → Prop} {q : γ → γ → Prop}
    (hpq : ∀ x y x' y', r x y → r x' y' → p x x' → q y y') {xs : List β} {ys : List γ}
    (h : List.Forall₂ r xs ys) (hxs : xs.Pairwise p) : ys.Pairwise q := by
  induction h with
  | nil => exact .nil
  | @cons x y xs ys hx hrest ih =>
    obtain ⟨hfirst, hxs⟩ := List.pairwise_cons.mp hxs
    refine List.pairwise_cons.mpr ⟨fun y' hy' => ?_, ih hxs⟩
    obtain ⟨x', hx', hr⟩ := exists_of_mem_forall₂ hrest hy'
    exact hpq x y x' y' hx hr (hfirst x' hx')

/-- What a list of calls gives comes from one of them. -/
theorem exists_of_mem_mapM {f : β → Except ε γ} {xs : List β} {ys : List γ}
    (hs : xs.mapM f = .ok ys) {y : γ} (hy : y ∈ ys) : ∃ x ∈ xs, f x = .ok y :=
  exists_of_mem_forall₂ (mapM_eq_ok_iff.mp hs) hy

/-- A chain of two calls fails when one of them does. -/
theorem bind_eq_error_iff {x : Except ε β} {f : β → Except ε γ} {e : ε} :
    x >>= f = .error e ↔ x = .error e ∨ ∃ y, x = .ok y ∧ f y = .error e := by
  cases x with
  | error e' => simp [bind, Except.bind]
  | ok y => simp [bind, Except.bind]

/-- A list of calls fails as one of them does. -/
theorem exists_of_mapM_eq_error {f : β → Except ε γ} {xs : List β} {e : ε}
    (h : xs.mapM f = .error e) : ∃ x ∈ xs, f x = .error e := by
  induction xs with
  | nil => cases h
  | cons x xs ih =>
    rw [List.mapM_cons, bind_eq_error_iff] at h
    rcases h with hx | ⟨y, -, h⟩
    · exact ⟨x, List.mem_cons_self, hx⟩
    · rcases bind_eq_error_iff.mp h with hxs | ⟨ys, -, h⟩
      · obtain ⟨z, hz, he⟩ := ih hxs
        exact ⟨z, List.mem_cons_of_mem x hz, he⟩
      · cases h

/-- What each step of a run keeps holds at its end. -/
theorem invariant_of_foldlM {p : β → Prop} {f : β → γ → Option β} {xs : List γ}
    (hstep : ∀ b, ∀ x ∈ xs, ∀ b', p b → f b x = some b' → p b') {start final : β}
    (hstart : p start) (h : xs.foldlM f start = some final) : p final := by
  induction xs generalizing start with
  | nil => exact Option.some.inj h ▸ hstart
  | cons x xs ih =>
    rw [List.foldlM_cons] at h
    obtain ⟨next, hnext, hrest⟩ := Option.bind_eq_some_iff.mp h
    exact ih (fun b y hy => hstep b y (List.mem_cons_of_mem x hy))
      (hstep start x List.mem_cons_self next hstart hnext) hrest

end FuzzySearch
