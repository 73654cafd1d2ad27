import FuzzySearch.Engine.Basic
import Mathlib.Tactic.SplitIfs

/-!
# Changes that fail

A change of a collection can fail: a position may be outside the collection, what is given as an
index may be none, or a field of a document cannot be found.  A failure never touches the index, the
keys or the options (`Engine.call_eq_of_error`).  It does not always spare the documents, because an
addition and a replacement put the new documents in place before the index is made.  So a removal
that fails changes nothing, an addition that fails leaves the document without a record, and a
replacement that fails leaves the new documents under the old index (`Engine.failed_call`).
-/

namespace FuzzySearch

/-- A change of a collection that can fail. -/
inductive Call (α : Type) where
  | add (doc : Value)
  | removeAt (position : Int)
  | replace (docs : Value) (given : GivenIndex α)

namespace Call

variable {α : Type}

/-- The documents that a change leaves when it fails. -/
def docsLeft (docs : List Value) : Call α → List Value
  | add doc => docs ++ [doc]
  | removeAt _ => docs
  | replace new _ =>
    match new.elements with
    | .ok items => items
    | .error _ => docs

/-- Whether a change that fails leaves a collection alone. -/
def Spares (docs : List Value) : Call α → Prop
  | add _ => False
  | removeAt _ => True
  | replace new _ => ∀ items, new.elements = .ok items → items = docs

theorem docsLeft_eq_iff (docs : List Value) (call : Call α) :
    call.docsLeft docs = docs ↔ call.Spares docs := by
  cases call with
  | add doc =>
    rw [docsLeft, Spares, List.append_right_eq_self]
    exact iff_of_false (List.cons_ne_nil _ _) id
  | removeAt position => exact iff_of_true rfl trivial
  | replace new given =>
    rw [docsLeft, Spares]
    cases new.elements with
    | error e => exact iff_of_true rfl fun items h => by cases h
    | ok items => exact ⟨fun h _ heq => Except.ok.inj heq ▸ h, fun h => h items rfl⟩

end Call

namespace Engine

variable {α : Type}

/-! ### When a change fails -/

/-- A document is removed if its position is in the collection, and only then. -/
theorem removeAt_eq_error_iff {engine next : Engine α} {position : Int} {e : SearchError} :
    engine.removeAt position = (next, some e) ↔
      ¬(0 ≤ position ∧ position < engine.docs.length) ∧ next = engine ∧
        e = .positionOutOfRange position engine.docs.length := by
  unfold removeAt
  split_ifs with hposition
  · -- the index refuses only negative positions
    have hindex : engine.index.removeAt position = .ok _ := if_neg (Int.not_lt.mpr hposition.1)
    simp only [hindex]
    exact iff_of_false (fun h => by cases h) fun h => h.1 hposition
  · simp [hposition, eq_comm]

variable [Weighting α]

theorem add_eq_error_iff {engine next : Engine α} {doc : Value} {e : SearchError} :
    engine.add doc = (next, some e) ↔
      doc ≠ .null ∧ engine.index.add doc engine.docs.length = .error e ∧
        next = { engine with docs := engine.docs ++ [doc] } := by
  unfold add
  split
  · exact iff_of_false (fun h => by cases h) fun h => h.1 rfl
  · rename_i hnull
    cases engine.index.add doc engine.docs.length with
    | ok index => exact iff_of_false (fun h => by cases h) fun h => by cases h.2.1
    | error e' =>
      simp only [Prod.mk.injEq, Option.some.injEq, Except.error.injEq, @eq_comm _ next]
      exact ⟨fun ⟨hnext, he⟩ => ⟨hnull, he, hnext⟩, fun ⟨_, he, hnext⟩ => ⟨hnext, he⟩⟩

/-- The index of a new collection. -/
def indexFor (engine : Engine α) (items : List Value) : GivenIndex α → Except SearchError (Index α)
  | .absent =>
    Index.ofSpecs engine.options.keys (.list items) engine.options.extract engine.options.normalize
  | .index index => .ok index
  | .other => .error .notAnIndex

/-- A replacement puts the new documents in place and then looks for their index. -/
theorem replaceCollection_of_elements {engine : Engine α} {docs : Value} {items : List Value}
    (h : docs.elements = .ok items) (given : GivenIndex α) :
    engine.replaceCollection docs given =
      match engine.indexFor items given with
      | .ok index => ({ engine with docs := items, index := index }, none)
      | .error e => ({ engine with docs := items }, some e) := by
  unfold replaceCollection
  rw [h]
  cases given <;> rfl

theorem replaceCollection_eq_error_iff {engine next : Engine α} {docs : Value}
    {given : GivenIndex α} {e : SearchError} :
    engine.replaceCollection docs given = (next, some e) ↔
      docs.elements = .error e ∧ next = engine ∨
        ∃ items, docs.elements = .ok items ∧ engine.indexFor items given = .error e ∧
          next = { engine with docs := items } := by
  cases helements : docs.elements with
  | error e' =>
    unfold replaceCollection
    simp [helements, eq_comm, and_comm]
  | ok items =>
    rw [replaceCollection_of_elements helements]
    cases hindex : engine.indexFor items given with
    | ok index => simp [hindex]
    | error e' => simp [hindex, eq_comm, and_comm]

/-! ### What a failure leaves -/

/-- The engine after a change, and the failure if there was one. -/
def call (engine : Engine α) : Call α → Engine α × Option SearchError
  | .add doc => engine.add doc
  | .removeAt position => engine.removeAt position
  | .replace docs given => engine.replaceCollection docs given

/-- A failure touches nothing but the documents. -/
theorem call_eq_of_error {engine next : Engine α} {c : Call α} {e : SearchError}
    (h : engine.call c = (next, some e)) :
    next = { engine with docs := c.docsLeft engine.docs } := by
  cases c with
  | add doc => exact (add_eq_error_iff.mp h).2.2
  | removeAt position => exact (removeAt_eq_error_iff.mp h).2.1
  | replace docs given =>
    rcases replaceCollection_eq_error_iff.mp h with
      ⟨helements, hnext⟩ | ⟨items, helements, -, hnext⟩
    all_goals
      rw [Call.docsLeft, helements]
      exact hnext

/-- **A change that fails never touches the index, but it spares the documents only in part.**  A
failed removal leaves the engine as it was and a failed addition never does; a failed replacement
does if the new collection cannot be listed, or is the old one. -/
theorem failed_call {engine next : Engine α} {c : Call α} {e : SearchError}
    (h : engine.call c = (next, some e)) :
    next.index = engine.index ∧ next.docs = c.docsLeft engine.docs ∧
      (next = engine ↔ c.Spares engine.docs) := by
  obtain rfl := call_eq_of_error h
  refine ⟨rfl, rfl, ?_⟩
  rw [← Call.docsLeft_eq_iff]
  exact ⟨congrArg Engine.docs, fun hdocs => by rw [hdocs]⟩

/-- A document whose field cannot be found stays in the collection, without a record. -/
theorem failed_call_missing_field :
    let firstEntry : Extractor := fun doc _ =>
      match doc with
      | .mapping ((_, v) :: _) => .ok v
      | _ => .error .missingEntry
    let options : EngineOptions Float :=
      { MatchOptions.standard with
        keys := [.described (.text "name")], includeScore := false, shouldSort := true,
        order := Hit.before, extract := firstEntry, normalize := none, ignoreFieldNorm := false }
    ∃ first next : Engine Float,
      Engine.build (.list []) options .absent [] = .ok first ∧
        first.call (.add (.mapping [])) = (next, some .missingEntry) ∧
        next.docs = [.mapping []] ∧ next.index.records = [] ∧ next ≠ first := by
  intro firstEntry options
  obtain ⟨first, hbuild, hnodocs, hnorecords, next, hcall⟩ : ∃ first : Engine Float,
      Engine.build (.list []) options .absent [] = .ok first ∧ first.docs = [] ∧
        first.index.records = [] ∧
        ∃ next, first.call (.add (.mapping [])) = (next, some .missingEntry) :=
    ⟨_, rfl, rfl, rfl, _, rfl⟩
  obtain ⟨hindex, hdocs, hsame⟩ := failed_call hcall
  refine ⟨first, next, hbuild, hcall, ?_, ?_, hsame.mp⟩
  · rw [hdocs, hnodocs]
    rfl
  · rw [hindex, hnorecords]

/-- A replacement that is refused leaves the new documents under the old index. -/
theorem refused_replacement_keeps_new_docs :
    let options : EngineOptions Float :=
      { MatchOptions.standard with
        keys := [], includeScore := false, shouldSort := true, order := Hit.before,
        extract := standardExtractor, normalize := none, ignoreFieldNorm := false }
    ∃ first next : Engine Float,
      Engine.build (.list [.text "kiwi"]) options .absent [] = .ok first ∧
        first.call (.replace (.list [.text "fig", .text "plum"]) .other)
          = (next, some .notAnIndex) ∧
        first.docs = [.text "kiwi"] ∧ next.docs = [.text "fig", .text "plum"] ∧
        next.index = first.index :=
  ⟨_, _, rfl, rfl, rfl, rfl, rfl⟩

end Engine

end FuzzySearch
