import FuzzySearch.Proofs.Engine.Failure
import FuzzySearch.Proofs.Index.Growth

/-!
# Calls

Every change of a collection leaves everything as it is, or puts documents in place, and with them
their index if it can be made (`Engine.landed`, `Engine.call_cases`).  Calls can be made one after
the other, whether they fail or not (`Engine.after`).  Those that are about single documents leave
everything but the documents and the records as it is, and keep the positions of the records in the
collection (`Engine.Lasting.after`).
-/

namespace FuzzySearch

/-- Whether a change is about a single document. -/
def Call.Single {α : Type} : Call α → Prop
  | .replace _ _ => False
  | _ => True

namespace Engine

variable {α : Type} [Weighting α] {engine first : Engine α}

/-! ### Where a change lands -/

/-- Documents are put in place, and their index if it can be made. -/
def landed (engine : Engine α) (docs : List Value) :
    Except SearchError (Index α) → Engine α × Option SearchError
  | .ok index => ({ engine with docs := docs, index := index }, none)
  | .error e => ({ engine with docs := docs }, some e)

theorem add_eq_landed (engine : Engine α) {doc : Value} (h : doc ≠ .null) :
    engine.add doc
      = engine.landed (engine.docs ++ [doc]) (engine.index.add doc engine.docs.length) := by
  unfold add
  split
  · exact absurd rfl h
  · cases engine.index.add doc engine.docs.length <;> rfl

omit [Weighting α] in
theorem removeAt_eq_landed (engine : Engine α) {position : Int}
    (h : 0 ≤ position ∧ position < engine.docs.length) :
    engine.removeAt position
      = engine.landed (engine.docs.eraseIdx position.toNat) (engine.index.removeAt position) := by
  unfold removeAt
  rw [if_pos h]
  cases engine.index.removeAt position <;> rfl

theorem replaceCollection_eq_landed (engine : Engine α) {docs : Value} {items : List Value}
    (h : docs.elements = .ok items) (given : GivenIndex α) :
    engine.replaceCollection docs given = engine.landed items (engine.indexFor items given) := by
  rw [replaceCollection_of_elements h]
  cases engine.indexFor items given <;> rfl

/-- A new index is made with the options alone. -/
theorem indexFor_congr {engine other : Engine α} (h : engine.options = other.options)
    (items : List Value) (given : GivenIndex α) :
    engine.indexFor items given = other.indexFor items given := by
  unfold indexFor
  rw [h]

/-- **What a change can do**: it leaves everything as it is, or documents are put in place with the
index that belongs to them. -/
theorem call_cases (engine : Engine α) (c : Call α) :
    (∃ failure, engine.call c = (engine, failure)) ∨
      (∃ doc, c = .add doc ∧ engine.call c
        = engine.landed (engine.docs ++ [doc]) (engine.index.add doc engine.docs.length)) ∨
      (∃ position, c = .removeAt position ∧ (0 ≤ position ∧ position < engine.docs.length) ∧
        engine.call c
          = engine.landed (engine.docs.eraseIdx position.toNat) (engine.index.removeAt position)) ∨
      ∃ docs given items, c = .replace docs given ∧ docs.elements = .ok items ∧
        engine.call c = engine.landed items (engine.indexFor items given) := by
  cases c with
  | add doc =>
    by_cases hnull : doc = .null
    · rw [hnull]
      exact Or.inl ⟨none, rfl⟩
    · exact Or.inr (Or.inl ⟨doc, rfl, add_eq_landed engine hnull⟩)
  | removeAt position =>
    by_cases hposition : 0 ≤ position ∧ position < engine.docs.length
    · exact Or.inr (Or.inr (Or.inl
        ⟨position, rfl, hposition, removeAt_eq_landed engine hposition⟩))
    · exact Or.inl ⟨some (.positionOutOfRange position engine.docs.length), if_neg hposition⟩
  | replace docs given =>
    cases helements : docs.elements with
    | error e =>
      refine Or.inl ⟨some e, ?_⟩
      show engine.replaceCollection docs given = _
      unfold replaceCollection
      rw [helements]
    | ok items =>
      exact Or.inr (Or.inr (Or.inr ⟨docs, given, items, rfl, helements,
        replaceCollection_eq_landed engine helements given⟩))

/-! ### Calls about single documents -/

/-- The engine after some calls, whether they fail or not. -/
def after (engine : Engine α) (calls : List (Call α)) : Engine α :=
  calls.foldl (fun engine c => (engine.call c).1) engine

/-- An engine with the same making as another, and with records that lie in its collection. -/
structure Lasting (first engine : Engine α) : Prop where
  options_eq : engine.options = first.options
  factories_eq : engine.factories = first.factories
  weightedKeys_eq : engine.weightedKeys = first.weightedKeys
  alike : engine.index.Alike first.index
  mem_records : ∀ record ∈ engine.index.records,
    0 ≤ record.position ∧ record.position < engine.docs.length

omit [Weighting α] in
theorem Lasting.withRecords (h : Lasting first engine) {docs : List Value}
    {records : List (Record α)}
    (hrecords : ∀ record ∈ records, 0 ≤ record.position ∧ record.position < docs.length) :
    Lasting first { engine with docs := docs, index := engine.index.withRecords records } :=
  ⟨h.options_eq, h.factories_eq, h.weightedKeys_eq,
    ⟨h.alike.keys_eq, h.alike.extract_eq, h.alike.normalize_eq⟩, hrecords⟩

theorem Lasting.landed_add (h : Lasting first engine) (doc : Value) :
    Lasting first (engine.landed (engine.docs ++ [doc])
      (engine.index.add doc engine.docs.length)).1 := by
  have hlonger : ∀ record ∈ engine.index.records,
      0 ≤ record.position ∧ record.position < (engine.docs ++ [doc]).length := by
    intro record hrecord
    have := h.mem_records record hrecord
    rw [List.length_append, List.length_singleton]
    omega
  cases hadd : engine.index.add doc engine.docs.length with
  | error e => exact ⟨h.options_eq, h.factories_eq, h.weightedKeys_eq, h.alike, hlonger⟩
  | ok index =>
    obtain ⟨added, rfl, hadded⟩ := Index.of_add_eq_ok hadd
    refine h.withRecords fun record hrecord => ?_
    rcases List.mem_append.mp hrecord with hrecord | hrecord
    · exact hlonger record hrecord
    · rw [(hadded record hrecord).1, List.length_append, List.length_singleton]
      omega

omit [Weighting α] in
theorem Lasting.landed_removeAt (h : Lasting first engine) {position : Int}
    (hposition : 0 ≤ position ∧ position < engine.docs.length) :
    Lasting first (engine.landed (engine.docs.eraseIdx position.toNat)
      (engine.index.removeAt position)).1 := by
  cases hremove : engine.index.removeAt position with
  | error e =>
    -- the index refuses only negative positions
    have hok : engine.index.removeAt position = .ok _ := if_neg (Int.not_lt.mpr hposition.1)
    rw [hok] at hremove
    cases hremove
  | ok index =>
    obtain ⟨kept, rfl, hkept⟩ := Index.of_removeAt_eq_ok hremove
    refine h.withRecords fun record hrecord => ?_
    obtain ⟨before, hbefore, rfl⟩ := List.mem_map.mp hrecord
    obtain ⟨hmem, hne⟩ := hkept before hbefore
    have hrange := h.mem_records before hmem
    have hlength : (engine.docs.eraseIdx position.toNat).length = engine.docs.length - 1 :=
      List.length_eraseIdx_of_lt (by omega)
    rw [hlength]
    unfold Record.shift
    split_ifs
    · show 0 ≤ before.position - 1 ∧ before.position - 1 < _
      omega
    · omega

theorem Lasting.call (h : Lasting first engine) {c : Call α} (hc : c.Single) :
    Lasting first (engine.call c).1 := by
  rcases engine.call_cases c with ⟨failure, hcall⟩ | ⟨doc, rfl, hcall⟩ |
    ⟨position, rfl, hposition, hcall⟩ | ⟨docs, given, items, rfl, -, -⟩
  · rw [hcall]
    exact h
  · rw [hcall]
    exact h.landed_add doc
  · rw [hcall]
    exact h.landed_removeAt hposition
  · exact absurd hc id

/-- **Calls about single documents change only the documents and the records**, whose positions stay
in the collection. -/
theorem Lasting.after (h : Lasting first engine) {calls : List (Call α)}
    (hcalls : ∀ c ∈ calls, c.Single) : Lasting first (engine.after calls) := by
  induction calls generalizing engine with
  | nil => exact h
  | cons c calls ih =>
    obtain ⟨hc, hrest⟩ := List.forall_mem_cons.mp hcalls
    exact ih (h.call hc) hrest

end Engine

end FuzzySearch
