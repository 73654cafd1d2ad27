import FuzzySearch.Options.Engine
import FuzzySearch.Proofs.Calls

/-!
# Options that are read

An option is read from the value under its name and from nothing else (`OptionReading.field_congr`),
so options that are given alike but for their keys differ in these only
(`EngineOptions.ofValues_of_keys`).  The functions of a caller are no named values: they are taken
as they are (`EngineOptions.of_ofValues_eq_ok`), and have no influence on what is refused
(`EngineOptions.ofValues_withExtract`).
-/

namespace FuzzySearch

open OptionReading

theorem OptionReading.field_congr {given given' : List (String × Value)} {β : Type} {name : String}
    (h : lookup? name given = lookup? name given') (absent : β) (read : Value → Except Fault β) :
    field given name absent read = field given' name absent read := by
  unfold field
  rw [h]

namespace EngineOptions

variable {given given' : List (String × Value)}

/-- Options that are given alike but for their keys differ in these only. -/
theorem ofValues_of_keys {keys keys' : List Value}
    (hkeys : lookup? "keys" given = some (.list keys))
    (hkeys' : lookup? "keys" given' = some (.list keys'))
    (hlookup : ∀ name, name ≠ "keys" → lookup? name given = lookup? name given')
    (hnames : unknownIssues given = unknownIssues given') (functions : EngineFunctions Float) :
    ofValues given functions
      = (ofValues given' functions).map fun o => { o with keys := keys.map .described } := by
  have hread : field given "keys" [] values = ⟨keys, []⟩ := by
    unfold field
    rw [hkeys]
    rfl
  have hread' : field given' "keys" [] values = ⟨keys', []⟩ := by
    unfold field
    rw [hkeys']
    rfl
  have hfield : ∀ {β : Type} (name : String) (absent : β) (read : Value → Except Fault β),
      name ≠ "keys" → field given name absent read = field given' name absent read :=
    fun name absent read hname => field_congr (hlookup name hname) absent read
  unfold ofValues
  simp only [hread, hread', hnames, hfield "is_case_sensitive" _ _ (by decide),
    hfield "include_score" _ _ (by decide), hfield "include_matches" _ _ (by decide),
    hfield "should_sort" _ _ (by decide), hfield "sort_fn" _ _ (by decide),
    hfield "find_all_matches" _ _ (by decide), hfield "min_match_char_length" _ _ (by decide),
    hfield "location" _ _ (by decide), hfield "threshold" _ _ (by decide),
    hfield "distance" _ _ (by decide), hfield "use_extended_search" _ _ (by decide),
    hfield "get_fn" _ _ (by decide), hfield "normalize" _ _ (by decide),
    hfield "ignore_location" _ _ (by decide), hfield "ignore_field_norm" _ _ (by decide)]
  split_ifs <;> rfl

/-- The functions of a caller are taken as they are. -/
theorem of_ofValues_eq_ok {functions : EngineFunctions Float} {o : EngineOptions Float}
    (h : ofValues given functions = .ok o) :
    o.extract = functions.extract.getD standardExtractor ∧ o.normalize = functions.normalize := by
  unfold ofValues at h
  simp only at h
  split_ifs at h
  obtain rfl := Except.ok.inj h
  exact ⟨rfl, rfl⟩

/-- Another extractor is all that changes in options that are read with it. -/
theorem ofValues_withExtract (given : List (String × Value)) (functions : EngineFunctions Float)
    (extract : Extractor) :
    ofValues given { functions with extract := some extract }
      = (ofValues given functions).map ({ · with extract := extract }) := by
  unfold ofValues
  simp only
  split_ifs <;> rfl

end EngineOptions

end FuzzySearch
