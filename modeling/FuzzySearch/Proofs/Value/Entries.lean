import FuzzySearch.Value.Basic
import Mathlib.Data.List.Nodup
import Mathlib.Tactic.SplitIfs

/-!
# Entries put into a mapping

Entries are put into a mapping one after the other (`insertEntries`), each in the place its name
already has or at the end.  Names stay distinct (`nodup_insertEntries`); what was put in under a name
is found there (`lookup?_insertEntries`); and if all names are new, the entries come at the end
(`insertEntries_of_nodup`).
-/

namespace FuzzySearch

variable {β : Type} {before entries : List (String × β)}

/-- Entries put into a mapping one after the other. -/
def insertEntries (before entries : List (String × β)) : List (String × β) :=
  entries.foldl (fun all entry => insertEntry entry.1 entry.2 all) before

theorem insertEntries_cons (before : List (String × β)) (entry : String × β)
    (entries : List (String × β)) :
    insertEntries before (entry :: entries)
      = insertEntries (insertEntry entry.1 entry.2 before) entries := rfl

/-- An entry with a new name comes at the end. -/
theorem insertEntry_of_notMem {name : String} (v : β) (h : name ∉ entries.map (·.1)) :
    insertEntry name v entries = entries ++ [(name, v)] := by
  induction entries with
  | nil => rfl
  | cons entry entries ih =>
    obtain ⟨n, w⟩ := entry
    rw [List.map_cons, List.mem_cons, not_or] at h
    rw [insertEntry, if_neg (by simpa using Ne.symm h.1), ih h.2]
    rfl

/-- An entry whose name is there keeps the names. -/
theorem map_fst_insertEntry_of_mem {name : String} (v : β) (h : name ∈ entries.map (·.1)) :
    (insertEntry name v entries).map (·.1) = entries.map (·.1) := by
  induction entries with
  | nil => cases h
  | cons entry entries ih =>
    obtain ⟨n, w⟩ := entry
    rw [insertEntry]
    split_ifs with hn
    · rfl
    · have hne : name ≠ n := fun heq => hn (beq_iff_eq.mpr heq.symm)
      rw [List.map_cons, List.map_cons, ih ((List.mem_cons.mp h).resolve_left hne)]

/-- **Names stay distinct.** -/
theorem nodup_insertEntry {name : String} (v : β) (h : (entries.map (·.1)).Nodup) :
    ((insertEntry name v entries).map (·.1)).Nodup := by
  by_cases hname : name ∈ entries.map (·.1)
  · rwa [map_fst_insertEntry_of_mem v hname]
  · rw [insertEntry_of_notMem v hname, List.map_append]
    exact h.append (List.nodup_singleton _) (List.disjoint_singleton.mpr hname)

theorem nodup_insertEntries (h : (before.map (·.1)).Nodup) :
    ((insertEntries before entries).map (·.1)).Nodup := by
  induction entries generalizing before with
  | nil => exact h
  | cons entry entries ih => exact ih (nodup_insertEntry entry.2 h)

/-- Entries with new names come at the end. -/
theorem insertEntries_of_nodup (h : ((before ++ entries).map (·.1)).Nodup) :
    insertEntries before entries = before ++ entries := by
  induction entries generalizing before with
  | nil => exact (List.append_nil before).symm
  | cons entry entries ih =>
    have hnew : entry.1 ∉ before.map (·.1) := by
      rw [List.map_append] at h
      exact fun hmem => (List.nodup_append.mp h).2.2 _ hmem _ List.mem_cons_self rfl
    have hsplit : before ++ entry :: entries = before ++ [entry] ++ entries := by simp
    rw [hsplit] at h ⊢
    rw [← ih h, insertEntries_cons, insertEntry_of_notMem entry.2 hnew]

/-- What is in a mapping was there before or was put in. -/
theorem mem_insertEntry {name : String} {v : β} {entry : String × β}
    (h : entry ∈ insertEntry name v entries) : entry ∈ entries ∨ entry = (name, v) := by
  induction entries with
  | nil => exact .inr (List.mem_singleton.mp h)
  | cons first rest ih =>
    obtain ⟨n, w⟩ := first
    rw [insertEntry] at h
    split_ifs at h with hn
    · rcases List.mem_cons.mp h with rfl | h
      · exact .inr (congrArg (·, v) (beq_iff_eq.mp hn))
      · exact .inl (List.mem_cons_of_mem _ h)
    · rcases List.mem_cons.mp h with rfl | h
      · exact .inl List.mem_cons_self
      · exact (ih h).imp_left (List.mem_cons_of_mem _)

theorem mem_insertEntries {entry : String × β} (h : entry ∈ insertEntries before entries) :
    entry ∈ before ∨ entry ∈ entries := by
  induction entries generalizing before with
  | nil => exact .inl h
  | cons first rest ih =>
    rcases ih h with h | h
    · refine (mem_insertEntry h).imp_right fun hentry => ?_
      rw [hentry]
      exact List.mem_cons_self
    · exact .inr (List.mem_cons_of_mem _ h)

/-! ### What is found -/

theorem mem_of_lookup? {name : String} {v : β} (h : lookup? name entries = some v) :
    (name, v) ∈ entries := by
  obtain ⟨⟨n, w⟩, hfind, rfl⟩ := Option.map_eq_some_iff.mp h
  have hname := List.find?_some hfind
  obtain rfl : n = name := beq_iff_eq.mp hname
  exact List.mem_of_find?_eq_some hfind

/-- Entries under other names change nothing. -/
theorem lookup?_insertEntries_of_notMem {name : String} (h : name ∉ entries.map (·.1)) :
    lookup? name (insertEntries before entries) = lookup? name before := by
  induction entries generalizing before with
  | nil => rfl
  | cons entry entries ih =>
    rw [List.map_cons, List.mem_cons, not_or] at h
    rw [insertEntries_cons, ih h.2, lookup?_insertEntry_of_ne h.1]

/-- **What is put in under a name is found there.** -/
theorem lookup?_insertEntries {name : String} {v : β} (hnodup : (entries.map (·.1)).Nodup)
    (h : (name, v) ∈ entries) : lookup? name (insertEntries before entries) = some v := by
  induction entries generalizing before with
  | nil => cases h
  | cons entry entries ih =>
    obtain ⟨hnew, hnodup⟩ := List.nodup_cons.mp hnodup
    rw [insertEntries_cons]
    rcases List.mem_cons.mp h with rfl | h
    · rw [lookup?_insertEntries_of_notMem hnew, lookup?_insertEntry]
    · exact ih hnodup h

end FuzzySearch
