import FuzzySearch.Proofs.Engine.Calls
import FuzzySearch.Proofs.Engine.Maintenance
import FuzzySearch.Proofs.Engine.Matches
import FuzzySearch.Proofs.Engine.Results
import FuzzySearch.Proofs.Engine.Threshold
import FuzzySearch.Proofs.Key
import FuzzySearch.Proofs.Logic.Grammar

/-!
# Searching all keys and searching any of them

A text is searched in the entries of all keys, which are numbered.  The query that asks for the text
under the name of any key goes through the same entries, but finds them by the names of their keys,
and takes the first entry with matches only (`Engine.hits_disjunction`).  If no two keys have the same
name, the same records match, and with a single key they match in the same way
(`Engine.search_disjunction`).
-/

namespace FuzzySearch

open Expression

/-! ### The first list with matches -/

section

variable {α β : Type}

end

/-! ### The query for any key -/

namespace LogicalQuery

variable {α : Type}

end LogicalQuery

/-! ### Entries by number and by name -/

namespace Engine

variable {α : Type} [Weighting α] {engine : Engine α} {names : List FieldName}

/-- An engine whose keys are listed, and called by some names, no two of them alike. -/
structure Named (names : List FieldName) (engine : Engine α) : Prop where
  ids_eq : engine.index.keys.map (·.id) = (names.map (·.text)).map Value.text
  nodup : (names.map (·.text)).Nodup
  listed : ∀ key ∈ engine.index.keys, (engine.weightedKeys.get? key.id).isSome = true

end Engine

variable {α : Type} [Weighting α]

namespace Engine

variable {engine : Engine α}

variable {docs : Value} {options : EngineOptions α} {factories : List (MatcherFactory α)}
  {first : Engine α} {calls : List (Call α)}

omit [Weighting α] in
/-- The names of keys stay what they are. -/
theorem Lasting.named {names : List FieldName} {engine : Engine α} (h : Lasting first engine)
    (hfirst : first.Named names) : engine.Named names := by
  refine ⟨h.alike.keys_eq ▸ hfirst.ids_eq, hfirst.nodup, fun key hkey => ?_⟩
  rw [h.weightedKeys_eq]
  exact hfirst.listed key (h.alike.keys_eq ▸ hkey)

end Engine

end FuzzySearch
