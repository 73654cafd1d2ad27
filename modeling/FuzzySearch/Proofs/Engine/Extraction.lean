import FuzzySearch.Proofs.Engine.Calls
import FuzzySearch.Proofs.Engine.Spans
import FuzzySearch.Proofs.Index.ElementNumbers
import FuzzySearch.Proofs.Index.FirstDocument

/-!
# Engines with other extractors

An extractor counts only by the entries that an index makes of what it finds.  Two extractors with
which the documents have the same entries lead to the same records, and only they do
(`Index.records_eq_iff`).  A search looks at the records and not at the extractor
(`Engine.search_withExtract`), so the engines that are built with such extractors give the same
results (`Engine.build_withExtract`).
-/

namespace FuzzySearch

variable {α : Type}

/-! ### Indexes -/

namespace Index

/-- The same index with another extractor. -/
def withExtract (index : Index α) (extract : Extractor) : Index α :=
  { index with extract := extract }

variable [Weighting α]

/-- The entry of a document under a key, if there is anything to index. -/
def entryFor? (index : Index α) (doc : Value) (key : Key α) :
    Except SearchError (Option (IndexedField α)) :=
  (index.extract doc key.path).map index.fieldEntry?

theorem fieldsFrom_cons (index : Index α) (doc : Value) (number : Int) (key : Key α)
    (rest : List (Key α)) :
    index.fieldsFrom doc number (key :: rest)
      = index.entryFor? doc key >>= fun entry =>
          (index.fieldsFrom doc (number + 1) rest).map ((entry.map (number, ·)).toList ++ ·) := by
  rw [fieldsFrom, entryFor?]
  cases index.extract doc key.path with
  | error e => rfl
  | ok v =>
    show (index.fieldsFrom doc (number + 1) rest >>= fun others => _) = Except.map _ _
    cases index.fieldsFrom doc (number + 1) rest with
    | error e => rfl
    | ok others =>
      rw [ok_bind]
      cases index.fieldEntry? v <;> rfl

theorem fieldsFrom_congr {index other : Index α} {doc : Value} {keys : List (Key α)}
    (h : ∀ key ∈ keys, other.entryFor? doc key = index.entryFor? doc key) (number : Int) :
    other.fieldsFrom doc number keys = index.fieldsFrom doc number keys := by
  induction keys generalizing number with
  | nil => rfl
  | cons key rest ih =>
    rw [fieldsFrom_cons, fieldsFrom_cons, h key List.mem_cons_self,
      ih fun key' hkey => h key' (List.mem_cons_of_mem key hkey)]

theorem addFieldsFrom_congr {index other : Index α} {docs : List Value}
    (h : ∀ doc ∈ docs, other.fieldsFrom doc 0 other.keys = index.fieldsFrom doc 0 index.keys)
    (position : Int) (made : List (Record α)) :
    other.addFieldsFrom position made docs = index.addFieldsFrom position made docs := by
  induction docs generalizing position made with
  | nil => rfl
  | cons doc rest ih =>
    simp only [addFieldsFrom, fieldsRecord, h doc List.mem_cons_self,
      ih fun later hlater => h later (List.mem_cons_of_mem doc hlater)]

variable {keys : List (Key α)} {normalize : Option (String → String)} {docs : List Value}
  {extract extract' : Extractor}

variable (keys normalize docs extract extract') in
/-- Two extractors with which a collection has the same entries, unless it is one of texts, in which
nothing is extracted. -/
def SameEntries : Prop :=
  startsWithText docs = true ∨ ∀ doc ∈ docs, ∀ key ∈ keys,
    (blank keys extract' normalize).entryFor? doc key
      = (blank keys extract normalize).entryFor? doc key

/-- **Extractors that find the same entries build the same index.** -/
theorem build_withExtract (h : SameEntries keys normalize docs extract extract') :
    build keys (.list docs) extract' normalize
      = (build keys (.list docs) extract normalize).map (·.withExtract extract') := by
  cases docs with
  | nil => rfl
  | cons first rest =>
    cases hfirst : first.isText with
    | true =>
      obtain ⟨text, rfl⟩ : ∃ text, first = .text text := by
        cases first <;> first | exact ⟨_, rfl⟩ | exact Bool.noConfusion hfirst
      rfl
    | false =>
      have htext : startsWithText (first :: rest) ≠ true := by
        cases first <;> first | exact Bool.false_ne_true | exact Bool.noConfusion hfirst
      have hentries := h.resolve_left htext
      have hfields : ∀ doc ∈ first :: rest,
          (sourced keys extract' normalize (first :: rest)).fieldsFrom doc 0 keys
            = (sourced keys extract normalize (first :: rest)).fieldsFrom doc 0 keys := by
        intro doc hdoc
        rw [(alike_sourced keys extract' normalize _).growsLike.fieldsFrom doc 0 rfl,
          (alike_sourced keys extract normalize _).growsLike.fieldsFrom doc 0 rfl]
        exact fieldsFrom_congr (hentries doc hdoc) 0
      have hadd := addFieldsFrom_congr hfields 0 []
      simp only [build, fill_cons _ _ _ hfirst, hadd]
      generalize (sourced keys extract normalize (first :: rest)).addFieldsFrom 0 [] (first :: rest)
        = outcome
      obtain ⟨records, failure⟩ := outcome
      cases failure <;> rfl

/-- A record by its fields is that of the document at its position. -/
theorem fieldsFrom_of_records {index : Index α} (htext : startsWithText docs = false)
    (h : build keys (.list docs) extract normalize = .ok index) {i : Nat} {doc : Value}
    (hdoc : docs[i]? = some doc) (fields : List (Int × IndexedField α)) :
    (⟨i, .fields fields⟩ : Record α) ∈ index.records ↔
      (blank keys extract normalize).fieldsFrom doc 0 keys = .ok fields := by
  obtain ⟨bodies, hbodies, htracks⟩ := (build_eq_ok_iff_of_not_startsWithText htext).1 index h
  obtain ⟨hi, rfl⟩ := List.getElem?_eq_some_iff.mp hdoc
  have hi' : i < bodies.length := hi.trans_eq htracks.length_eq.symm
  obtain ⟨found, hfound, hbody⟩ := (List.forall₂_iff_get.mp hbodies).2 i hi hi'
  have hbody' : bodies[i]? = some (some (.fields found)) := by
    rw [← hbody]
    exact List.getElem?_eq_getElem hi'
  rw [htracks.records_eq, mem_numbered_iff]
  constructor
  · rintro ⟨k, hposition, hk⟩
    obtain rfl : i = k := by
      have hk' : (i : Int) = 0 + k := hposition
      omega
    rw [hbody', Option.some.injEq, Option.some.injEq, RecordBody.fields.injEq] at hk
    rw [← hk]
    exact hfound
  · intro hfields
    obtain rfl : found = fields := Except.ok.inj (hfound.symm.trans hfields)
    exact ⟨i, (Int.zero_add _).symm, hbody'⟩

/-- **Only extractors that find the same entries lead to the same records.** -/
theorem records_eq_iff {index other : Index α}
    (h : build keys (.list docs) extract normalize = .ok index)
    (hother : build keys (.list docs) extract' normalize = .ok other) :
    other.records = index.records ↔ SameEntries keys normalize docs extract extract' := by
  constructor
  · intro hrecords
    cases htext : startsWithText docs with
    | true => exact .inl htext
    | false =>
      refine .inr fun doc hdoc key hkey => ?_
      obtain ⟨i, hi⟩ := List.getElem?_of_mem hdoc
      obtain ⟨number, hnumber⟩ := List.getElem?_of_mem hkey
      -- the document has one record, and it has the same fields in either index
      obtain ⟨bodies, hbodies, -⟩ := (build_eq_ok_iff_of_not_startsWithText htext).1 index h
      obtain ⟨body, -, fields, hfields, -⟩ := exists_of_mem_forall₂ hbodies.flip hdoc
      have hmem := (fieldsFrom_of_records htext h hi fields).mpr hfields
      rw [← hrecords, fieldsFrom_of_records htext hother hi] at hmem
      obtain ⟨v, hv, hentry⟩ := entry?_of_fieldsFrom hfields hnumber
      obtain ⟨v', hv', hentry'⟩ := entry?_of_fieldsFrom hmem hnumber
      rw [entryFor?, entryFor?, hv, hv']
      exact congrArg Except.ok (hentry'.symm.trans hentry)
  · intro hsame
    obtain ⟨index', hindex, rfl⟩ := map_eq_ok_iff.mp ((build_withExtract hsame).symm.trans hother)
    obtain rfl := Except.ok.inj (h.symm.trans hindex)
    rfl

/-- An extractor that never fails lets every collection be indexed. -/
theorem exists_build_of_total (htotal : ∀ doc path, ∃ v, extract doc path = .ok v)
    (keys : List (Key α)) (normalize : Option (String → String)) (docs : List Value) :
    ∃ index, build keys (.list docs) extract normalize = .ok index := by
  cases docs with
  | nil => exact ⟨_, rfl⟩
  | cons first rest =>
    have hsourced : ∀ doc path, ∃ v,
        (sourced keys extract normalize (first :: rest)).extract doc path = .ok v := htotal
    obtain ⟨records, hrecords⟩ := exists_recordsOfAll hsourced first.isText (first :: rest)
    rw [← records_build] at hrecords
    obtain ⟨index, hindex, -⟩ := map_eq_ok_iff.mp hrecords
    exact ⟨index, hindex⟩

theorem ofSpecs_withExtract {specs : List (KeySpec α)}
    (h : ∀ keys : List (Key α), specs.mapM Key.ofSpec = .ok keys →
      SameEntries keys normalize docs extract extract') :
    (ofSpecs specs (.list docs) extract' normalize : Except SearchError (Index α))
      = (ofSpecs specs (.list docs) extract normalize).map (·.withExtract extract') := by
  unfold ofSpecs
  cases hkeys : specs.mapM (Key.ofSpec (α := α)) with
  | error e => rfl
  | ok keys => exact build_withExtract (h keys hkeys)

end Index

/-! ### Engines -/

namespace Engine

/-- The same engine with another extractor. -/
def withExtract (engine : Engine α) (extract : Extractor) : Engine α :=
  { engine with
    options := { engine.options with extract := extract }
    index := engine.index.withExtract extract }

variable [Weighting α]

/-- A search does not look at the extractor. -/
theorem search_withExtract (engine : Engine α) (extract : Extractor) (query : Value) (limit : Int) :
    (engine.withExtract extract).search query limit = engine.search query limit := rfl

variable {docs : Value} {options : EngineOptions α} {factories : List (MatcherFactory α)}
  {extract : Extractor}

/-- **An engine is built alike with extractors that find the same entries.** -/
theorem build_withExtract
    (h : ∀ items (keys : List (Key α)), docs.elements = .ok items →
      options.keys.mapM Key.ofSpec = .ok keys →
      Index.SameEntries keys options.normalize items options.extract extract) :
    Engine.build docs { options with extract := extract } .absent factories
      = (Engine.build docs options .absent factories).map (·.withExtract extract) := by
  rw [build_eq, build_eq]
  split_ifs
  · rfl
  · cases (WeightedKeys.ofSpecs options.keys : Except SearchError (WeightedKeys α)) with
    | error e => rfl
    | ok store =>
      show settled (replaceCollection _ docs .absent) = (settled _).map _
      cases helements : docs.elements with
      | error e =>
        unfold replaceCollection
        rw [helements]
        rfl
      | ok items =>
        have hindex : (blank { options with extract := extract } factories store).indexFor items
              .absent
            = ((blank options factories store).indexFor items .absent).map
                (·.withExtract extract) :=
          Index.ofSpecs_withExtract fun keys hkeys => h items keys helements hkeys
        rw [replaceCollection_eq_landed _ helements, replaceCollection_eq_landed _ helements,
          hindex]
        cases (blank options factories store).indexFor items .absent <;> rfl

/-- With an extractor that never fails, an engine is built unless the options, the keys or the
collection are refused. -/
theorem docs_build_of_total (htotal : ∀ doc path, ∃ v, options.extract doc path = .ok v) :
    (Engine.build docs options .absent factories).map Engine.docs
      = if options.extended && !MatcherFactory.anyReadsTerms factories then
          .error .extendedUnavailable
        else (WeightedKeys.ofSpecs options.keys : Except SearchError (WeightedKeys α)).bind fun _ =>
          docs.elements := by
  rw [build_eq]
  split_ifs
  · rfl
  · cases hstore : (WeightedKeys.ofSpecs options.keys : Except SearchError (WeightedKeys α)) with
    | error e => rfl
    | ok store =>
      show (settled (replaceCollection _ docs .absent)).map _ = docs.elements
      cases helements : docs.elements with
      | error e =>
        unfold replaceCollection
        rw [helements]
        rfl
      | ok items =>
        -- the keys can be made, since those of the store were
        obtain ⟨keys, hkeys, -⟩ := bind_eq_ok_iff.mp hstore
        obtain ⟨index, hindex⟩ := Index.exists_build_of_total htotal keys options.normalize items
        have hfor : (blank options factories store).indexFor items .absent = .ok index :=
          bind_eq_ok_iff.mpr ⟨keys, hkeys, hindex⟩
        rw [replaceCollection_eq_landed _ helements, hfor]
        rfl

end Engine

end FuzzySearch
