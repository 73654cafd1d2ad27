import FuzzySearch.Proofs.Bitap.MaximalRuns

/-!
# When marks have a run

`runs_ne_nil_iff`: there is a run of at least `least` marks exactly when so many marked positions,
and at least one, stand side by side.  More marks therefore never take the last run away
(`runs_ne_nil_mono`), and any mark is enough when single marks count (`runs_ne_nil_of_mark`).
-/

namespace FuzzySearch.Bitap

/-- Marks that begin with `n` marked positions. -/
def Leads (n : Nat) (marks : List Bool) : Prop := ∀ k, k < n → marks[k]? = some true

/-- Marks with at least `least` marked positions side by side, and at least one. -/
def HasRun (least : Int) (marks : List Bool) : Prop :=
  ∃ a n : Nat, 0 < n ∧ least ≤ n ∧ Leads n (marks.drop a)

theorem leads_drop_iff (n a : Nat) (marks : List Bool) :
    Leads n (marks.drop a) ↔ ∀ i : Int, a ≤ i → i < a + n → IsMarked marks i := by
  unfold Leads
  constructor
  · intro h i hle hlt
    obtain ⟨k, rfl⟩ : ∃ k : Nat, i = ((a + k : Nat) : Int) := ⟨(i - a).toNat, by omega⟩
    rw [isMarked_natCast, ← List.getElem?_drop]
    exact h k (by omega)
  · intro h k hk
    rw [List.getElem?_drop, ← isMarked_natCast]
    exact h _ (by omega) (by omega)

/-- **Marks have a run exactly when enough of them stand side by side.** -/
theorem runs_ne_nil_iff (least : Int) (marks : List Bool) :
    runs least marks ≠ [] ↔ HasRun least marks := by
  constructor
  · intro h
    obtain ⟨s, hs⟩ := List.exists_mem_of_ne_nil _ h
    obtain ⟨hrun, hleast⟩ := mem_runs_iff.mp hs
    have hfirst := hrun.isMarked_first.1
    have hproper := hrun.proper
    refine ⟨s.first.toNat, (s.last - s.first + 1).toNat, by omega, by omega, ?_⟩
    rw [leads_drop_iff]
    exact fun i hle hlt => hrun.marked i ⟨by omega, by omega⟩
  · rintro ⟨a, n, hn, hleast, h⟩
    rw [leads_drop_iff] at h
    obtain ⟨s, hs, -⟩ : ∃ s ∈ runs least marks, s.covers a ∧ s.covers ((a : Int) + n - 1) :=
      exists_run_of_block (by omega) (fun k hle hlt => h k hle (by omega)) (by omega)
    exact List.ne_nil_of_mem hs

/-- More marks never take the last run away. -/
theorem runs_ne_nil_mono {least : Int} {marks marks' : List Bool}
    (hsub : ∀ k : Nat, marks[k]? = some true → marks'[k]? = some true)
    (h : runs least marks ≠ []) : runs least marks' ≠ [] := by
  rw [runs_ne_nil_iff] at h ⊢
  obtain ⟨a, n, hn, hleast, hleads⟩ := h
  refine ⟨a, n, hn, hleast, fun k hk => ?_⟩
  have hmark := hleads k hk
  rw [List.getElem?_drop] at hmark ⊢
  exact hsub _ hmark

/-- Any mark is a run when single marks count. -/
theorem runs_ne_nil_of_mark {least : Int} {marks : List Bool} (hleast : least ≤ 1) {k : Nat}
    (h : marks[k]? = some true) : runs least marks ≠ [] := by
  rw [runs_ne_nil_iff]
  refine ⟨k, 1, Nat.one_pos, hleast, fun i hi => ?_⟩
  obtain rfl : i = 0 := by omega
  rwa [List.getElem?_drop]

end FuzzySearch.Bitap
