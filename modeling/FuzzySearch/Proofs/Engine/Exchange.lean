import FuzzySearch.Engine.Search
import FuzzySearch.Proofs.Engine.Calls
import FuzzySearch.Proofs.Key

/-!
# Indexes put in place of others

A search looks at the records of an index, and at what its keys are called and how they weigh.  An
index that has these in common with another (`Index.SearchedLike`) can be put in its place: searches
give the same results (`Engine.search_withIndex`), and changes of the collection keep it so
(`Engine.Exchangeable.call`).  Additions look at more of an index, so they keep it so only if the two
indexes grow alike as well.  Hence whole sequences of requests are answered alike
(`Engine.Exchangeable.answers`).
-/

namespace FuzzySearch

/-! ### Requests -/

/-- What is asked of an engine. -/
inductive Request (α : Type) where
  | call (c : Call α)
  | search (query : Value) (limit : Int)

/-- What an engine answers. -/
inductive Answer (α : Type) where
  /-- A change was made, or failed. -/
  | change (failure : Option SearchError)
  | results (outcome : Except SearchError (List (ReportedHit α)))

/-- Whether a document is to be added. -/
def Request.Adds {α : Type} : Request α → Prop
  | call (.add _) => True
  | _ => False

namespace Engine

variable {α : Type} [Weighting α]

/-- The engine after a request, and its answer. -/
def serve (engine : Engine α) : Request α → Engine α × Answer α
  | .call c => ((engine.call c).1, .change (engine.call c).2)
  | .search query limit => (engine, .results (engine.search query limit))

/-- The answers to requests that are made one after the other. -/
def answers (engine : Engine α) : List (Request α) → List (Answer α)
  | [] => []
  | request :: rest => (engine.serve request).2 :: answers (engine.serve request).1 rest

end Engine

/-! ### Indexes that are searched alike -/

variable {α : Type}

/-- A key as it counts in a search. -/
def WeightedKeys.weighted (store : WeightedKeys α) (key : Key α) : Key α :=
  (store.get? key.id).getD key

namespace Index

/-- Two indexes that no search can tell apart. -/
structure SearchedLike (store : WeightedKeys α) (index other : Index α) : Prop where
  records_eq : index.records = other.records
  ids_eq : index.keys.map (·.id) = other.keys.map (·.id)
  weighted_eq : index.keys.map store.weighted = other.keys.map store.weighted

theorem SearchedLike.refl (store : WeightedKeys α) (index : Index α) :
    SearchedLike store index index := ⟨rfl, rfl, rfl⟩

variable {store : WeightedKeys α} {index other : Index α}

theorem SearchedLike.withRecords (h : SearchedLike store index other)
    (records : List (Record α)) :
    SearchedLike store (index.withRecords records) (other.withRecords records) :=
  ⟨rfl, h.ids_eq, h.weighted_eq⟩

theorem GrowsLike.withRecords (h : index.GrowsLike other) (records others : List (Record α)) :
    (index.withRecords records).GrowsLike (other.withRecords others) :=
  ⟨h.paths_eq, h.extract_eq, h.normalize_eq⟩

theorem SearchedLike.entryOf? (h : SearchedLike store index other)
    (fields : List (Int × IndexedField α)) (id : Value) :
    index.entryOf? fields id = other.entryOf? fields id := by
  have hnumber : index.keyNumber? id = other.keyNumber? id := by
    rw [keyNumber?_eq, keyNumber?_eq, h.ids_eq]
  unfold Index.entryOf?
  rw [hnumber]

end Index

namespace Engine

/-- The engine with another index. -/
def withIndex (engine : Engine α) (index : Index α) : Engine α := { engine with index := index }

variable [Weighting α] {engine : Engine α} {other : Index α}

/-! ### Searches -/

theorem fieldsHit?_fields (engine : Engine α) (matcher : Matcher α) (position : Int)
    (fields : List (Int × IndexedField α)) :
    engine.fieldsHit? matcher ⟨position, .fields fields⟩
      = hit? position ((engine.index.keys.map engine.weightedKeys.weighted).zipIdx.flatMap
          fun entry => entryMatches (some entry.1) (Index.entry? fields entry.2) (some matcher)) := by
  rw [List.zipIdx_map, List.flatMap_map]
  rfl

theorem hits_withIndex (h : Index.SearchedLike engine.weightedKeys engine.index other)
    (query : Value) : (engine.withIndex other).hits query = engine.hits query := by
  have hrecords : (engine.withIndex other).index.records = engine.index.records :=
    h.records_eq.symm
  -- records that are texts are compared as they stand, those with fields by the keys
  have hfields : (engine.withIndex other).fieldsHit? = engine.fieldsHit? := by
    funext matcher ⟨position, body⟩
    cases body with
    | text v norm => rfl
    | fields fields =>
      rw [fieldsHit?_fields, fieldsHit?_fields, h.weighted_eq]
      rfl
  have hlogical : (engine.withIndex other).logicalHit? = engine.logicalHit? := by
    funext expression ⟨position, body⟩
    cases body with
    | text v norm => rfl
    | fields fields =>
      have hleaf : (engine.withIndex other).leafMatches fields = engine.leafMatches fields := by
        funext leaf
        show entryMatches _ (other.entryOf? fields _) _ = entryMatches _ _ _
        rw [← h.entryOf?]
        rfl
      show hit? position (Id.run (expression.evaluate fun leaf =>
        pure ((engine.withIndex other).leafMatches fields leaf))) = _
      rw [hleaf]
      rfl
  unfold hits textHits fieldHits logicalHits
  rw [hrecords, hfields, hlogical]
  rfl

/-- **An index that is searched alike gives the same results.** -/
theorem search_withIndex (h : Index.SearchedLike engine.weightedKeys engine.index other)
    (query : Value) (limit : Int) :
    (engine.withIndex other).search query limit = engine.search query limit := by
  unfold search
  rw [hits_withIndex h]
  rfl

/-! ### Changes of the collection -/

/-- An index that can be put in the place of the one of an engine.  Documents may be added only if it
also grows like it. -/
structure Exchangeable (adding : Prop) (engine : Engine α) (other : Index α) : Prop where
  searchedLike : Index.SearchedLike engine.weightedKeys engine.index other
  growsLike : adding → engine.index.GrowsLike other

/-- Two calls end alike: with an index in the place of the other, and with the same failure. -/
def EndsAlike (adding : Prop) (outcome outcome' : Engine α × Option SearchError) : Prop :=
  ∃ next, outcome' = (outcome.1.withIndex next, outcome.2) ∧ outcome.1.Exchangeable adding next

variable {adding : Prop}

omit [Weighting α] in
theorem Exchangeable.unchanged (h : engine.Exchangeable adding other)
    (failure : Option SearchError) :
    EndsAlike adding (engine, failure) (engine.withIndex other, failure) := ⟨other, rfl, h⟩

omit [Weighting α] in
/-- Calls that give the records of an index end alike. -/
theorem Exchangeable.landed (h : engine.Exchangeable adding other) (docs : List Value)
    (records : Except SearchError (List (Record α))) :
    EndsAlike adding (engine.landed docs (records.map engine.index.withRecords))
      ((engine.withIndex other).landed docs (records.map other.withRecords)) := by
  cases records with
  | error e => exact ⟨other, rfl, h.searchedLike, h.growsLike⟩
  | ok records =>
    exact ⟨other.withRecords records, rfl, h.searchedLike.withRecords records, fun hadding =>
      (h.growsLike hadding).withRecords records records⟩

theorem Exchangeable.add (h : engine.Exchangeable adding other) (hadding : adding) (doc : Value) :
    EndsAlike adding (engine.add doc) ((engine.withIndex other).add doc) := by
  by_cases hnull : doc = .null
  · rw [hnull]
    exact h.unchanged none
  · have hrecords : ∀ index : Index α, index.add doc engine.docs.length
        = ((index.additions doc engine.docs.length).map (index.records ++ ·)).map
            index.withRecords := by
      intro index
      rw [Index.add_eq]
      cases index.additions doc engine.docs.length <;> rfl
    rw [add_eq_landed _ hnull, add_eq_landed _ hnull, hrecords engine.index]
    show EndsAlike adding _ ((engine.withIndex other).landed (engine.docs ++ [doc])
      (other.add doc engine.docs.length))
    rw [hrecords other, ← (h.growsLike hadding).additions, ← h.searchedLike.records_eq]
    exact h.landed _ _

omit [Weighting α] in
theorem Exchangeable.removeAt (h : engine.Exchangeable adding other) (position : Int) :
    EndsAlike adding (engine.removeAt position) ((engine.withIndex other).removeAt position) := by
  by_cases hposition : 0 ≤ position ∧ position < engine.docs.length
  · have hrecords : ∀ index : Index α, index.removeAt position
        = Except.map index.withRecords (.ok
            ((index.records.filter (·.position ≠ position)).map (Record.shift position))) :=
      fun index => if_neg (Int.not_lt.mpr hposition.1)
    rw [removeAt_eq_landed _ hposition,
      removeAt_eq_landed (engine.withIndex other) hposition, hrecords engine.index]
    show EndsAlike adding _ ((engine.withIndex other).landed (engine.docs.eraseIdx position.toNat)
      (other.removeAt position))
    rw [hrecords other, ← h.searchedLike.records_eq]
    exact h.landed _ _
  · rw [Engine.removeAt, Engine.removeAt, if_neg hposition]
    show EndsAlike adding _ (if 0 ≤ position ∧ position < engine.docs.length then _ else _)
    rw [if_neg hposition]
    exact h.unchanged _

theorem Exchangeable.replaceCollection (h : engine.Exchangeable adding other) (docs : Value)
    (given : GivenIndex α) :
    EndsAlike adding (engine.replaceCollection docs given)
      ((engine.withIndex other).replaceCollection docs given) := by
  cases helements : docs.elements with
  | error e =>
    unfold Engine.replaceCollection
    rw [helements]
    exact h.unchanged (some e)
  | ok items =>
    have hindex : (engine.withIndex other).indexFor items given = engine.indexFor items given :=
      indexFor_congr rfl items given
    rw [replaceCollection_eq_landed _ helements, replaceCollection_eq_landed _ helements, hindex]
    cases engine.indexFor items given with
    | error e => exact ⟨other, rfl, h.searchedLike, h.growsLike⟩
    | ok index => exact ⟨index, rfl, .refl _ index, fun _ => ⟨rfl, rfl, rfl⟩⟩

/-- **A change of the collection leaves an index exchangeable.** -/
theorem Exchangeable.call (h : engine.Exchangeable adding other) {c : Call α}
    (hc : (Request.call c).Adds → adding) :
    EndsAlike adding (engine.call c) ((engine.withIndex other).call c) := by
  cases c with
  | add doc => exact h.add (hc trivial) doc
  | removeAt position => exact h.removeAt position
  | replace docs given => exact h.replaceCollection docs given

/-! ### Sequences of requests -/

/-- **Requests are answered alike by an engine with an exchangeable index.** -/
theorem Exchangeable.answers (h : engine.Exchangeable adding other) {requests : List (Request α)}
    (hadds : ∀ request ∈ requests, request.Adds → adding) :
    (engine.withIndex other).answers requests = engine.answers requests := by
  induction requests generalizing engine other with
  | nil => rfl
  | cons request rest ih =>
    have hrest := fun request hmem => hadds request (List.mem_cons_of_mem _ hmem)
    cases request with
    | search query limit =>
      show Answer.results ((engine.withIndex other).search query limit) :: _
        = Answer.results (engine.search query limit) :: _
      rw [search_withIndex h.searchedLike]
      exact congrArg _ (ih h hrest)
    | call c =>
      obtain ⟨next, hcall, hnext⟩ := h.call (hadds _ List.mem_cons_self)
      show Answer.change ((engine.withIndex other).call c).2
          :: ((engine.withIndex other).call c).1.answers rest = _
      rw [hcall]
      exact congrArg _ (ih hnext hrest)

end Engine

end FuzzySearch
