import FuzzySearch.Index.Snapshot
import FuzzySearch.Proofs.Engine.Results
import FuzzySearch.Proofs.Index.Upkeep

/-!
# Maintenance of a collection

A `Run` is a sequence of changes of a collection, none of which failed.  Whatever the changes are,
the index of the engine goes on tracking the collection (`maintained_of_run`): its records carry the
positions of their documents, although blank texts have no record.

As long as the collection was always one of texts, or one without texts, each record has the content
that its document has by itself.  Then the index is the one that would be built anew from the
collection (`index_of_run`).
-/

namespace FuzzySearch

/-! ### Runs -/

/-- A change of a collection. -/
inductive Change where
  | add (doc : Value)
  | removeAt (position : Int)
  | remove (predicate : Value → Nat → Bool)
  | replace (docs : Value)

namespace Engine

variable {α : Type} [Weighting α]

/-- The engine after a call that can fail. -/
def settled : Engine α × Option SearchError → Except SearchError (Engine α)
  | (engine, none) => .ok engine
  | (_, some e) => .error e

omit [Weighting α] in
theorem settled_eq_ok_iff {outcome : Engine α × Option SearchError} {engine : Engine α} :
    settled outcome = .ok engine ↔ outcome = (engine, none) := by
  obtain ⟨next, failure⟩ := outcome
  cases failure <;> simp [settled]

/-- The engine after a change. -/
def apply (engine : Engine α) : Change → Except SearchError (Engine α)
  | .add doc => settled (engine.add doc)
  | .removeAt position => settled (engine.removeAt position)
  | .remove predicate => .ok (engine.remove predicate).1
  | .replace docs => settled (engine.replaceCollection docs .absent)

/-- The engines that a run of changes passes through, the latest first. -/
inductive Run (first : Engine α) : List (Engine α) → Prop
  | first : Run first [first]
  | step {engine next : Engine α} {before : List (Engine α)} (change : Change) :
      Run first (engine :: before) → engine.apply change = .ok next →
      Run first (next :: engine :: before)

/-! ### What a change keeps -/

/-- An engine with some options whose index tracks its collection. -/
structure Maintained (options : EngineOptions α) (keys : List (Key α))
    (bodies : List (Option (RecordBody α))) (engine : Engine α) : Prop where
  options_eq : engine.options = options
  tracks : Index.Tracks keys options.extract options.normalize engine.docs bodies engine.index

/-- The records have the contents that their documents have by themselves. -/
def Described (options : EngineOptions α) (keys : List (Key α)) (docs : List Value)
    (bodies : List (Option (RecordBody α))) : Prop :=
  List.Forall₂ (Index.blank keys options.extract options.normalize).Describes docs bodies

variable {options : EngineOptions α} {keys : List (Key α)}
  {bodies : List (Option (RecordBody α))} {engine next : Engine α}

theorem Described.eraseIdx {docs : List Value} (h : Described options keys docs bodies) (i : Nat) :
    Described options keys (docs.eraseIdx i) (bodies.eraseIdx i) := by
  rw [List.eraseIdx_eq_take_drop_succ, List.eraseIdx_eq_take_drop_succ]
  exact List.rel_append (List.forall₂_take i h) (List.forall₂_drop (i + 1) h)

theorem Maintained.add (h : Maintained options keys bodies engine) {doc : Value}
    (hadd : engine.add doc = (next, none)) :
    ∃ bodies', Maintained options keys bodies' next ∧
      (Described options keys engine.docs bodies → Described options keys next.docs bodies') := by
  unfold Engine.add at hadd
  split at hadd
  · obtain rfl := congrArg Prod.fst hadd
    exact ⟨bodies, h, id⟩
  · split at hadd
    · rename_i index hindex
      obtain rfl := congrArg Prod.fst hadd
      obtain ⟨body, hbody, htracks⟩ := h.tracks.add hindex
      exact ⟨bodies ++ [body], ⟨h.options_eq, htracks⟩,
        fun hdescribed => List.rel_append hdescribed (.cons hbody .nil)⟩
    · exact absurd (congrArg Prod.snd hadd) (Option.some_ne_none _)

omit [Weighting α] in
/-- A document is removed with its body, or nothing is. -/
theorem Maintained.removeAt (h : Maintained options keys bodies engine) (position : Int) :
    ∃ i, Maintained options keys (bodies.eraseIdx i) (engine.removeAt position).1 ∧
      (engine.removeAt position).1.docs = engine.docs.eraseIdx i := by
  unfold Engine.removeAt
  split_ifs with hposition
  · obtain ⟨i, rfl⟩ := Int.eq_ofNat_of_zero_le hposition.1
    obtain ⟨shorter, hshorter, htracks⟩ := h.tracks.removeAt (Int.ofNat_lt.mp hposition.2)
    simp only [hshorter]
    exact ⟨i, ⟨h.options_eq, htracks⟩, rfl⟩
  -- nothing is removed, which is to remove what lies behind the end
  · refine ⟨engine.docs.length, ?_, ?_⟩
    · rwa [← h.tracks.length_eq, List.eraseIdx_of_length_le (Nat.le_refl _)]
    · rw [List.eraseIdx_of_length_le (Nat.le_refl _)]

/-- Documents are removed with their bodies. -/
theorem Maintained.removeFrom (h : Maintained options keys bodies engine)
    (predicate : Value → Nat → Bool) (position : Nat) (rest : List Value) :
    ∃ bodies', Maintained options keys bodies' (removeFrom predicate position rest engine).1 ∧
      (Described options keys engine.docs bodies →
        Described options keys (Engine.removeFrom predicate position rest engine).1.docs
          bodies') := by
  induction rest generalizing position engine bodies with
  | nil => exact ⟨bodies, h, id⟩
  | cons doc rest ih =>
    rw [Engine.removeFrom]
    split_ifs
    -- the next document moves to the same position
    · obtain ⟨i, hremoved, hdocs⟩ := h.removeAt position
      obtain ⟨bodies', hmaintained, hdescribed⟩ := ih hremoved position
      refine ⟨bodies', hmaintained, fun hbefore => hdescribed ?_⟩
      rw [hdocs]
      exact hbefore.eraseIdx i
    · exact ih h (position + 1)

theorem ofSpecs_eq_ok_iff (hkeys : options.keys.mapM Key.ofSpec = .ok keys) (sources : Value)
    (index : Index α) :
    Index.ofSpecs options.keys sources options.extract options.normalize = .ok index ↔
      Index.build keys sources options.extract options.normalize = .ok index := by
  simp only [Index.ofSpecs, bind_eq_ok_iff, hkeys]
  exact ⟨fun ⟨_, heq, hbuild⟩ => Except.ok.inj heq ▸ hbuild, fun hbuild => ⟨keys, rfl, hbuild⟩⟩

/-- A new collection replaces the old one when its index can be built. -/
theorem replaceCollection_eq_iff {docs : Value} :
    engine.replaceCollection docs .absent = (next, none) ↔
      ∃ items index, docs.elements = .ok items ∧
        Index.ofSpecs engine.options.keys (.list items) engine.options.extract
          engine.options.normalize = .ok index ∧
        next = { engine with docs := items, index := index } := by
  unfold replaceCollection
  cases docs.elements with
  | error e => simp
  | ok items =>
    cases hindex : (Index.ofSpecs engine.options.keys (.list items) engine.options.extract
      engine.options.normalize : Except SearchError (Index α)) with
    | error e => simp [hindex]
    | ok index => simp [hindex, eq_comm]

/-- A new collection gets an index that tracks it. -/
theorem maintained_of_replaceCollection (hkeys : options.keys.mapM Key.ofSpec = .ok keys)
    (hoptions : engine.options = options) {docs : Value}
    (hreplace : engine.replaceCollection docs .absent = (next, none)) :
    ∃ bodies, Maintained options keys bodies next ∧
      List.Forall₂ (Index.blank keys options.extract options.normalize).Makes next.docs bodies ∧
      (Uniform next.docs → Described options keys next.docs bodies) := by
  obtain ⟨items, index, -, hindex, rfl⟩ := replaceCollection_eq_iff.mp hreplace
  rw [hoptions, ofSpecs_eq_ok_iff hkeys] at hindex
  obtain ⟨bodies, htracks, hmakes, hdescribed⟩ := Index.tracks_of_build hindex
  exact ⟨bodies, ⟨hoptions, htracks⟩, hmakes, hdescribed⟩

/-- **A change that does not fail keeps the index in step with the collection.** -/
theorem Maintained.apply (hkeys : options.keys.mapM Key.ofSpec = .ok keys)
    (h : Maintained options keys bodies engine) {change : Change}
    (happly : engine.apply change = .ok next) :
    ∃ bodies', Maintained options keys bodies' next ∧
      (Uniform next.docs → Described options keys engine.docs bodies →
        Described options keys next.docs bodies') := by
  cases change with
  | add doc =>
    obtain ⟨bodies', hmaintained, hdescribed⟩ := h.add (settled_eq_ok_iff.mp happly)
    exact ⟨bodies', hmaintained, fun _ => hdescribed⟩
  | removeAt position =>
    obtain ⟨i, hmaintained, hdocs⟩ := h.removeAt position
    rw [settled_eq_ok_iff.mp happly] at hmaintained hdocs
    refine ⟨bodies.eraseIdx i, hmaintained, fun _ hdescribed => ?_⟩
    show Described options keys next.docs (bodies.eraseIdx i)
    rw [show next.docs = engine.docs.eraseIdx i from hdocs]
    exact hdescribed.eraseIdx i
  | remove predicate =>
    obtain rfl := Except.ok.inj happly
    obtain ⟨bodies', hmaintained, hdescribed⟩ := h.removeFrom predicate 0 engine.docs
    exact ⟨bodies', hmaintained, fun _ => hdescribed⟩
  | replace docs =>
    obtain ⟨bodies', hmaintained, -, hdescribed⟩ :=
      maintained_of_replaceCollection hkeys h.options_eq (settled_eq_ok_iff.mp happly)
    exact ⟨bodies', hmaintained, fun huniform _ => hdescribed huniform⟩

/-! ### What a run keeps -/

/-- What an engine is built of. -/
theorem build_eq_ok_iff {docs : Value} {factories : List (MatcherFactory α)} :
    Engine.build docs options .absent factories = .ok engine ↔
      (options.extended && !MatcherFactory.anyReadsTerms factories) = false ∧
        ∃ store items index, WeightedKeys.ofSpecs options.keys = .ok store ∧
          docs.elements = .ok items ∧
          Index.ofSpecs options.keys (.list items) options.extract options.normalize = .ok index ∧
          engine = ⟨options, factories, store, items, index⟩ := by
  unfold Engine.build
  cases options.extended && !MatcherFactory.anyReadsTerms factories with
  | true => simp
  | false =>
    rw [if_neg Bool.false_ne_true, eq_self, true_and, bind_eq_ok_iff]
    refine exists_congr fun store => ?_
    show _ ∧ settled (replaceCollection
      ⟨options, factories, store, [], Index.empty options.extract options.normalize⟩ docs .absent)
        = .ok engine ↔ _
    rw [settled_eq_ok_iff, replaceCollection_eq_iff]
    simp only [exists_and_left]

/-- An engine is built with an index that tracks its collection. -/
theorem maintained_of_build {docs : Value} {factories : List (MatcherFactory α)}
    (hbuild : Engine.build docs options .absent factories = .ok engine) :
    ∃ keys bodies, options.keys.mapM Key.ofSpec = .ok keys ∧
      Maintained options keys bodies engine ∧
      List.Forall₂ (Index.blank keys options.extract options.normalize).Makes engine.docs bodies ∧
      (Uniform engine.docs → Described options keys engine.docs bodies) := by
  obtain ⟨-, store, items, index, hstore, -, hindex, rfl⟩ := build_eq_ok_iff.mp hbuild
  obtain ⟨keys, hkeys, -⟩ := bind_eq_ok_iff.mp hstore
  rw [ofSpecs_eq_ok_iff hkeys] at hindex
  obtain ⟨bodies, htracks, hmakes, hdescribed⟩ := Index.tracks_of_build hindex
  exact ⟨keys, bodies, hkeys, ⟨rfl, htracks⟩, hmakes, hdescribed⟩

/-- **The index goes on tracking the collection through every run.** -/
theorem maintained_of_run {first : Engine α} {docs : Value}
    {factories : List (MatcherFactory α)}
    (hbuild : Engine.build docs options .absent factories = .ok first)
    {before : List (Engine α)} (hrun : Run first (engine :: before)) :
    ∃ keys bodies, options.keys.mapM Key.ofSpec = .ok keys ∧
      Maintained options keys bodies engine ∧
      ((∀ e ∈ engine :: before, Uniform e.docs) → Described options keys engine.docs bodies) := by
  obtain ⟨keys, start, hkeys, hfirst, -, hdescribed⟩ := maintained_of_build hbuild
  -- by induction on the run: the bodies change with every step, so they are found anew
  suffices h : ∀ engines, Run first engines → ∀ engine ∈ engines.head?,
      ∃ bodies, Maintained options keys bodies engine ∧
        ((∀ e ∈ engines, Uniform e.docs) → Described options keys engine.docs bodies) by
    obtain ⟨bodies, h⟩ := h _ hrun engine rfl
    exact ⟨keys, bodies, hkeys, h⟩
  intro engines hrun
  induction hrun with
  | first =>
    rintro engine ⟨⟩
    exact ⟨start, hfirst, fun huniform => hdescribed (huniform first List.mem_cons_self)⟩
  | @step engine next before change _ happly ih =>
    rintro _ ⟨⟩
    obtain ⟨bodies, hmaintained, hbefore⟩ := ih engine rfl
    obtain ⟨bodies', hnext, hdescribed⟩ := hmaintained.apply hkeys happly
    refine ⟨bodies', hnext, fun huniform => hdescribed (huniform next List.mem_cons_self) ?_⟩
    exact hbefore fun e he => huniform e (List.mem_cons_of_mem next he)

/-! ### What it means for results and for the index -/

/-- No two results of a maintained engine have the same position, and each shows the document at its
position. -/
theorem Maintained.search (h : Maintained options keys bodies engine) {query : Value} {limit : Int}
    {results : List (ReportedHit α)} (hsearch : engine.search query limit = .ok results) :
    (results.map (·.position)).Nodup ∧
      ∀ result ∈ results, 0 ≤ result.position ∧
        engine.docs[result.position.toNat]? = some result.item := by
  obtain ⟨hits, hhits, positions, hperm, hsublist⟩ := positions_search hsearch
  have hrecords := positions_hits hhits
  constructor
  · have hnodup : (hits.map (·.position)).Nodup :=
      hrecords.nodup (h.tracks.pairwise.imp fun hlt => Int.ne_of_lt hlt)
    exact hsublist.nodup (hperm.nodup_iff.mpr hnodup)
  · intro result hresult
    have hposition : result.position ∈ engine.index.records.map (·.position) :=
      hrecords.subset (hperm.subset (hsublist.subset (List.mem_map_of_mem hresult)))
    obtain ⟨record, hrecord, heq⟩ := List.mem_map.mp hposition
    have hnonneg := (h.tracks.mem_records hrecord).1
    have hitem := item_search hsearch hresult
    rw [heq] at hnonneg
    rw [document?, if_pos hnonneg] at hitem
    exact ⟨hnonneg, hitem⟩

/-- An index is written by its keys and records. -/
theorem toValue_eq_of_tracks {keys : List (Key Float)} {extract : Extractor}
    {normalize : Option (String → String)} {docs : List Value}
    {bodies : List (Option (RecordBody Float))} {index other : Index Float}
    (h : Index.Tracks keys extract normalize docs bodies index)
    (h' : Index.Tracks keys extract normalize docs bodies other) :
    index.toValue = other.toValue := by
  rw [Index.toValue, Index.toValue, h.records_eq, h'.records_eq, h.alike.keys_eq,
    h'.alike.keys_eq]

/-- **Maintaining an index is as good as building it anew.**  After every run of changes the
positions of the records grow strictly and lie in the collection, so each result shows the document
at its position and no position occurs twice.  If the collection was always one of texts or one
without texts, the index is written like one that is built from the collection. -/
theorem index_of_run {docs : Value} {options : EngineOptions Float}
    {factories : List (MatcherFactory Float)} {first engine : Engine Float}
    {before : List (Engine Float)}
    (hbuild : Engine.build docs options .absent factories = .ok first)
    (hrun : Run first (engine :: before)) :
    (engine.index.records.map (·.position)).Pairwise (· < ·) ∧
      (∀ record ∈ engine.index.records,
        0 ≤ record.position ∧ record.position < engine.docs.length) ∧
      (∀ query limit results, engine.search query limit = .ok results →
        (results.map (·.position)).Nodup ∧
          ∀ result ∈ results, 0 ≤ result.position ∧
            engine.docs[result.position.toNat]? = some result.item) ∧
      ((∀ e ∈ engine :: before, Uniform e.docs) →
        ∃ rebuilt, Index.ofSpecs options.keys (.list engine.docs) options.extract
            options.normalize = .ok rebuilt ∧
          engine.index.toValue = rebuilt.toValue) := by
  obtain ⟨keys, bodies, hkeys, hmaintained, hdescribed⟩ := maintained_of_run hbuild hrun
  refine ⟨hmaintained.tracks.pairwise, fun record hrecord => ?_,
    fun query limit results hsearch => hmaintained.search hsearch, fun huniform => ?_⟩
  · obtain ⟨hle, hlt, -⟩ := hmaintained.tracks.mem_records hrecord
    exact ⟨hle, hlt⟩
  · obtain ⟨rebuilt, hrebuilt, htracks⟩ :=
      Index.Tracks.build (huniform engine List.mem_cons_self) (hdescribed huniform)
    exact ⟨rebuilt, (ofSpecs_eq_ok_iff hkeys _ _).mpr hrebuilt,
      toValue_eq_of_tracks hmaintained.tracks htracks⟩

/-- A blank text has no record, before and after the document in front of it is removed. -/
theorem index_of_run_with_blank :
    let options : EngineOptions Float :=
      { MatchOptions.standard with
        keys := [], includeScore := false, shouldSort := true, order := Hit.before,
        extract := standardExtractor, normalize := none, ignoreFieldNorm := false }
    ∃ first second third : Engine Float,
      Engine.build (.list [.text "kiwi", .text " ", .text "plum"]) options .absent [] = .ok first ∧
        first.apply (.removeAt 0) = .ok second ∧ second.apply (.add (.text "fig")) = .ok third ∧
        third.docs = [.text " ", .text "plum", .text "fig"] ∧
        ∃ rebuilt, Index.ofSpecs [] (.list third.docs) standardExtractor none = .ok rebuilt ∧
          third.index.toValue = rebuilt.toValue := by
  intro options
  refine ⟨_, _, _, rfl, rfl, rfl, rfl, ?_⟩
  refine (@index_of_run (.list [.text "kiwi", .text " ", .text "plum"]) options [] _ _ _ rfl
    ((Run.first.step (.removeAt 0) rfl).step (.add (.text "fig")) rfl)).2.2.2 ?_
  intro e he
  left
  rcases List.mem_cons.mp he with rfl | he
  · exact List.all_eq_true.mp rfl
  rcases List.mem_cons.mp he with rfl | he
  · exact List.all_eq_true.mp rfl
  obtain rfl := List.mem_singleton.mp he
  exact List.all_eq_true.mp rfl

end Engine

end FuzzySearch
