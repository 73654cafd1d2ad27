import FuzzySearch.Proofs.Engine.Exchange
import FuzzySearch.Proofs.Engine.Results
import FuzzySearch.Proofs.Key

/-!
# Engines over restored indexes

An index whose keys are named is read back from its snapshot with the same records, and with keys
that differ from the original ones in their specifications at most.  Those are looked up among the
options, so it can be put in the place of the original (`Engine.exchangeable_restored`): an engine
over it gives the same results (`Engine.search_of_restored`).  It goes on doing so through all
changes of the collection if the functions that records are made with were given along with the
snapshot, or no document is added (`Engine.answers_of_restored`).

A key that was made with no name of its own is read back under another name, so neither the snapshot
nor the results need remain the same (`snapshot_round_trip`, `renamed_on_the_way`).
-/

namespace FuzzySearch

namespace Index

/-! ### Indexes that can be restored -/

/-- The keys of an index are among those that are specified, or their specifications are written as
they are. -/
def Listed (specs : List (KeySpec Float)) (index : Index Float) : Prop :=
  ∀ key ∈ index.keys,
    (∃ spec ∈ specs, Key.ofSpec spec = .ok key) ∨ key.source.untupled = key.source

/-- An index that can be restored for an engine with some keys.  Entries are numbered by the keys,
and there are only so many numbers that can be read. -/
structure Restorable (specs : List (KeySpec Float)) (index : Index Float) : Prop where
  obtained : index.Obtained
  listed : index.Listed specs
  length_le : index.keys.length ≤ 10 ^ Decimal.longestInteger

variable {specs : List (KeySpec Float)} {index next : Index Float} {store : WeightedKeys Float}

theorem Restorable.ofValue_toValue (h : index.Restorable specs) (extract : Extractor)
    (normalize : Option (String → String)) :
    ofValue index.toValue extract normalize = .ok (index.restored extract normalize) :=
  Index.ofValue_toValue (h.obtained.canonical h.length_le) extract normalize

theorem Restorable.add (h : index.Restorable specs) {doc : Value} {position : Int}
    (hadd : index.add doc position = .ok next) : next.Restorable specs := by
  obtain ⟨first, extract, normalize, hgrown, hfirst⟩ := h.obtained
  obtain ⟨added, hnext, -⟩ := of_add_eq_ok hadd
  have hkeys : next.keys = index.keys := by rw [hnext, withRecords]
  exact ⟨⟨first, extract, normalize, hgrown.add doc position hadd, hfirst⟩,
    fun key hkey => h.listed key (hkeys ▸ hkey), hkeys ▸ h.length_le⟩

theorem Restorable.removeAt (h : index.Restorable specs) {position : Int}
    (hremove : index.removeAt position = .ok next) : next.Restorable specs := by
  obtain ⟨first, extract, normalize, hgrown, hfirst⟩ := h.obtained
  obtain ⟨kept, hnext, -⟩ := of_removeAt_eq_ok hremove
  have hkeys : next.keys = index.keys := by rw [hnext, withRecords]
  exact ⟨⟨first, extract, normalize, hgrown.removeAt position hremove, hfirst⟩,
    fun key hkey => h.listed key (hkeys ▸ hkey), hkeys ▸ h.length_le⟩

theorem Grown.restorable {first : Index Float} (h : Grown first index)
    (hfirst : first.Restorable specs) : index.Restorable specs := by
  induction h with
  | first => exact hfirst
  | add doc position _ hadd ih => exact ih.add hadd
  | removeAt position _ hremove ih => exact ih.removeAt hremove

theorem Restorable.mono {specs' : List (KeySpec Float)} (h : index.Restorable specs)
    (hsubset : specs ⊆ specs') : index.Restorable specs' :=
  ⟨h.obtained, fun key hkey => (h.listed key hkey).imp_left fun ⟨spec, hspec, hofSpec⟩ =>
    ⟨spec, hsubset hspec, hofSpec⟩, h.length_le⟩

theorem restorable_of_ofSpecs {sources : Value} {extract : Extractor}
    {normalize : Option (String → String)} (h : ofSpecs specs sources extract normalize = .ok index)
    (hlength : specs.length ≤ 10 ^ Decimal.longestInteger) : index.Restorable specs := by
  obtain ⟨hkeys, -, -⟩ := of_ofSpecs_eq_ok h
  refine ⟨⟨index, extract, normalize, .first, Or.inl ⟨specs, sources, h⟩⟩, fun key hkey => ?_, ?_⟩
  · exact Or.inl (exists_of_mem_mapM hkeys hkey)
  · rwa [← (mapM_eq_ok_iff.mp hkeys).length_eq]

/-- The keys of an index that was built and then changed are named as they were specified. -/
theorem Grown.named_iff_of_ofSpecs {first : Index Float} (h : Grown first index) {sources : Value}
    {extract : Extractor} {normalize : Option (String → String)}
    (hfirst : ofSpecs specs sources extract normalize = .ok first) :
    (∀ key ∈ index.keys, key.Named) ↔ ∀ spec ∈ specs, spec.Named := by
  rw [h.alike.keys_eq]
  exact forall_named_iff ((mapM_eq_ok_iff.mp (of_ofSpecs_eq_ok hfirst).1).imp fun _ _ =>
    Key.named_iff_of_ofSpec)

/-! ### Searching a restored index -/

theorem Listed.searchedLike (h : index.Listed specs) (hnamed : ∀ key ∈ index.keys, key.Named)
    (hstore : WeightedKeys.ofSpecs specs = .ok store) (extract : Extractor)
    (normalize : Option (String → String)) :
    SearchedLike store index (index.restored extract normalize) where
  records_eq := rfl
  ids_eq := by
    show _ = (index.keys.map Key.restored).map _
    rw [List.map_map]
    exact List.map_congr_left fun key hkey => (key.restoredId_eq_iff.mpr (hnamed key hkey)).symm
  weighted_eq := by
    show _ = (index.keys.map Key.restored).map store.weighted
    rw [List.map_map]
    refine List.map_congr_left fun key hkey => ?_
    have hid : key.restoredId = key.id := key.restoredId_eq_iff.mpr (hnamed key hkey)
    show (store.get? key.id).getD key = (store.get? key.restoredId).getD key.restored
    rw [hid]
    rcases h key hkey with ⟨spec, hspec, hofSpec⟩ | hsource
    · have hfound := WeightedKeys.isSome_get? hstore hspec hofSpec
      obtain ⟨found, hfound⟩ := Option.isSome_iff_exists.mp hfound
      rw [hfound]
      rfl
    · rw [Key.restored, hid, hsource]

end Index

namespace Engine

variable {engine first : Engine Float} {docs : Value} {options : EngineOptions Float}
  {factories : List (MatcherFactory Float)} {given : GivenIndex Float}

/-- **A restored index can be put in the place of the original**, for additions as well if it was
restored with the same functions. -/
theorem exchangeable_restored {specs : List (KeySpec Float)}
    (hstore : WeightedKeys.ofSpecs specs = .ok engine.weightedKeys)
    (hlisted : engine.index.Listed specs) (hnamed : ∀ key ∈ engine.index.keys, key.Named)
    (extract : Extractor) (normalize : Option (String → String)) :
    engine.Exchangeable (extract = engine.index.extract ∧ normalize = engine.index.normalize)
      (engine.index.restored extract normalize) := by
  refine ⟨hlisted.searchedLike hnamed hstore extract normalize, ?_⟩
  rintro ⟨hextract, hnormalize⟩
  refine ⟨?_, hextract.symm, hnormalize.symm⟩
  show _ = (engine.index.keys.map Key.restored).map (·.path)
  rw [List.map_map]
  rfl

/-! ### Engines that are built over an index -/

/-- What an engine is built of, whatever is given as its index. -/
theorem build_given_eq_ok_iff : Engine.build docs options given factories = .ok engine ↔
      (options.extended && !MatcherFactory.anyReadsTerms factories) = false ∧
        engine.options = options ∧ engine.factories = factories ∧
        WeightedKeys.ofSpecs options.keys = .ok engine.weightedKeys ∧
        docs.elements = .ok engine.docs ∧ engine.indexFor engine.docs given = .ok engine.index := by
  unfold Engine.build
  cases options.extended && !MatcherFactory.anyReadsTerms factories with
  | true => simp
  | false =>
    rw [if_neg Bool.false_ne_true, bind_eq_ok_iff]
    cases helements : docs.elements with
    | error e =>
      have hreplace : ∀ blank : Engine Float,
          blank.replaceCollection docs given = (blank, some e) := by
        intro blank
        unfold replaceCollection
        rw [helements]
      simp [hreplace]
    | ok items =>
      constructor
      · rintro ⟨store, hstore, h⟩
        simp only [replaceCollection_eq_landed _ helements] at h
        cases hindex : indexFor ⟨options, factories, store, [],
          Index.empty options.extract options.normalize⟩ items given with
        | error e =>
          rw [hindex] at h
          cases h
        | ok index =>
          rw [hindex] at h
          obtain rfl := Except.ok.inj h
          exact ⟨rfl, rfl, rfl, hstore, rfl, (indexFor_congr rfl items given).trans hindex⟩
      · rintro ⟨-, rfl, rfl, hstore, hdocs, hindex⟩
        obtain rfl := Except.ok.inj hdocs
        refine ⟨_, hstore, ?_⟩
        have hblank : indexFor ⟨engine.options, engine.factories, engine.weightedKeys, [],
            Index.empty engine.options.extract engine.options.normalize⟩ engine.docs given
              = .ok engine.index := (indexFor_congr rfl _ _).trans hindex
        simp only [replaceCollection_eq_landed _ helements]
        rw [hblank]
        rfl

/-- An engine is built over another index as well. -/
theorem build_withIndex {index : Index Float}
    (h : Engine.build docs options (.index index) factories = .ok engine) (other : Index Float) :
    Engine.build docs options (.index other) factories = .ok (engine.withIndex other) := by
  rw [build_given_eq_ok_iff] at h ⊢
  obtain ⟨hextended, hoptions, hfactories, hstore, hdocs, -⟩ := h
  exact ⟨hextended, hoptions, hfactories, hstore, hdocs, rfl⟩

/-- **An engine over a restored index gives the same results as one over the original.** -/
theorem search_of_restored {index : Index Float} (h : index.Restorable options.keys)
    (hnamed : ∀ key ∈ index.keys, key.Named)
    (hbuild : Engine.build docs options (.index index) factories = .ok engine)
    (extract : Extractor) (normalize : Option (String → String)) :
    ∃ copy, Engine.build docs options (.index (index.restored extract normalize)) factories
        = .ok copy ∧
      ∀ query limit, copy.search query limit = engine.search query limit := by
  obtain ⟨-, -, -, hstore, -, hindex⟩ := build_given_eq_ok_iff.mp hbuild
  obtain rfl : index = engine.index := Except.ok.inj hindex
  exact ⟨_, build_withIndex hbuild _,
    search_withIndex (h.listed.searchedLike hnamed hstore extract normalize)⟩

end Engine

/-- **When snapshots round-trip**, whatever functions are given along with them.  An index that was
built from specifications and then changed is read back from its snapshot; its snapshot is the same
again exactly if the specifications name their keys, and then it gives the same results to an engine
that lists the specifications.  What is read from a value always has the same snapshot when it is
read again, and what is read from a payload has so exactly if the payload names its keys. -/
theorem snapshot_round_trip (extract : Extractor) (normalize : Option (String → String)) :
    (∀ (specs : List (KeySpec Float)) (sources : Value) (extract' : Extractor)
        (normalize' : Option (String → String)) (first index : Index Float),
      Index.ofSpecs specs sources extract' normalize' = .ok first → Index.Grown first index →
      specs.length ≤ 10 ^ Decimal.longestInteger →
        ∃ restored, Index.ofValue index.toValue extract normalize = .ok restored ∧
          (restored.toValue = index.toValue ↔ ∀ spec ∈ specs, spec.Named) ∧
          ((∀ spec ∈ specs, spec.Named) →
            ∀ (docs : Value) (options : EngineOptions Float)
                (factories : List (MatcherFactory Float)) (engine : Engine Float),
              specs ⊆ options.keys →
              Engine.build docs options (.index index) factories = .ok engine →
              ∃ copy, Engine.build docs options (.index restored) factories = .ok copy ∧
                ∀ query limit, copy.search query limit = engine.search query limit)) ∧
      (∀ (v : Value) (extract' : Extractor) (normalize' : Option (String → String))
          (index : Index Float),
        Index.ofValue v extract' normalize' = .ok index →
        ∃ restored, Index.ofValue index.toValue extract normalize = .ok restored ∧
          restored.toValue = index.toValue) ∧
      ∀ (payload : Payload) (extract' : Extractor) (normalize' : Option (String → String))
          (index : Index Float),
        Index.ofPayload payload extract' normalize' = .ok index →
        ∃ restored, Index.ofValue index.toValue extract normalize = .ok restored ∧
          (restored.toValue = index.toValue ↔ payload.Named) := by
  refine ⟨?_, ?_, ?_⟩
  · intro specs sources extract' normalize' first index hfirst hgrown hlength
    have hrestorable := hgrown.restorable (Index.restorable_of_ofSpecs hfirst hlength)
    have hnamed := hgrown.named_iff_of_ofSpecs hfirst
    refine ⟨_, hrestorable.ofValue_toValue extract normalize,
      (index.toValue_restored_iff _ _).trans hnamed, ?_⟩
    intro hspecs docs options factories engine hsubset hbuild
    exact Engine.search_of_restored (hrestorable.mono hsubset) (hnamed.mpr hspecs) hbuild extract
      normalize
  · intro v extract' normalize' index hread
    obtain ⟨payload, hpayload, hread⟩ := Index.exists_ofPayload_of_ofValue hread
    refine ⟨_, Index.ofValue_toValue (Index.canonical_of_ofPayload hread) extract normalize, ?_⟩
    rw [Index.toValue_restored_iff, Index.named_iff_of_ofPayload hread]
    exact Payload.named_of_ofValue? hpayload
  · intro payload extract' normalize' index hread
    refine ⟨_, Index.ofValue_toValue (Index.canonical_of_ofPayload hread) extract normalize, ?_⟩
    rw [Index.toValue_restored_iff, Index.named_iff_of_ofPayload hread]

/-- A document with two keys is added in front of one that is removed; and a value is read whose key
is only specified, with a number in the place of a text and a text in the place of a number. -/
theorem snapshot_round_trip_after_changes :
    let firstEntry : Extractor := fun doc _ =>
      match doc with
      | .mapping ((_, v) :: _) => .ok v
      | _ => .ok .null
    let specs : List (KeySpec Float) := [.described (.text "name"),
      .described (.tuple [.text "author", .text "name"])]
    let options : EngineOptions Float :=
      { MatchOptions.standard with
        keys := specs, includeScore := false, shouldSort := true, order := Hit.before,
        extract := firstEntry, normalize := none, ignoreFieldNorm := false }
    let docs := Value.list [.mapping [("name", .list [.text "Emma", .text "Dune"])]]
    let odd := Value.mapping [("keys", .list [.text "name"]),
      ("records", .list [.mapping [("i", .text " 7 "),
        ("$", .mapping [(" 0", .mapping [("v", .int 5), ("n", .bool true)])])]])]
    (∃ first second third restored engine copy,
      Index.ofSpecs specs (.list [.mapping [("name", .text "Persuasion")]]) firstEntry none
          = .ok first ∧
        first.add (.mapping [("name", .list [.text "Emma", .text "Dune"])]) 1 = .ok second ∧
        second.removeAt 0 = .ok third ∧ third.size = 1 ∧
        Index.ofValue third.toValue standardExtractor none = .ok restored ∧
        restored.toValue = third.toValue ∧
        Engine.build docs options (.index third) MatcherFactory.standard = .ok engine ∧
        Engine.build docs options (.index restored) MatcherFactory.standard = .ok copy ∧
        copy.search (.text "dune") (-1) = engine.search (.text "dune") (-1)) ∧
      ∃ index restored, Index.ofValue odd standardExtractor none = .ok index ∧
        Index.ofValue index.toValue standardExtractor none = .ok restored ∧
        restored.toValue = index.toValue := by
  intro firstEntry specs options docs odd
  constructor
  · have hsize : (do
        let first ← Index.ofSpecs specs (.list [.mapping [("name", .text "Persuasion")]]) firstEntry
          none
        let second ← first.add (.mapping [("name", .list [.text "Emma", .text "Dune"])]) 1
        let third ← second.removeAt 0
        let _ ← Engine.build docs options (.index third) MatcherFactory.standard
        return third.size : Except SearchError Nat) = .ok 1 := by decide +kernel
    obtain ⟨first, hfirst, hsize⟩ := bind_eq_ok_iff.mp hsize
    obtain ⟨second, hsecond, hsize⟩ := bind_eq_ok_iff.mp hsize
    obtain ⟨third, hthird, hsize⟩ := bind_eq_ok_iff.mp hsize
    obtain ⟨engine, hengine, hsize⟩ := bind_eq_ok_iff.mp hsize
    rw [pure_eq_ok_iff] at hsize
    obtain ⟨restored, hrestored, hvalue, hcopies⟩ := (snapshot_round_trip standardExtractor none).1
      specs _ firstEntry none first third hfirst
      ((Index.Grown.first.add _ 1 hsecond).removeAt 0 hthird)
      (Nat.le_trans (by decide : specs.length ≤ 10 ^ 1)
        (Nat.pow_le_pow_right (by decide) (by decide)))
    have hnamed : ∀ spec ∈ specs, spec.Named :=
      List.forall_mem_cons.mpr ⟨trivial, List.forall_mem_singleton.mpr trivial⟩
    obtain ⟨copy, hcopy, hsearch⟩ := hcopies hnamed docs options MatcherFactory.standard engine
      (List.Subset.refl _) hengine
    exact ⟨first, second, third, restored, engine, copy, hfirst, hsecond, hthird, hsize,
      hrestored, hvalue.mpr hnamed, hengine, hcopy, hsearch _ _⟩
  · obtain ⟨index, hindex⟩ : ∃ index, Index.ofValue odd standardExtractor none = .ok index :=
      ⟨_, rfl⟩
    obtain ⟨restored, hrestored, hvalue⟩ := (snapshot_round_trip standardExtractor none).2.1
      odd _ _ index hindex
    exact ⟨index, restored, hindex, hrestored, hvalue⟩

/-- **A key that is called by the empty text is read back under another name**, so that a query by
its name finds nothing any more. -/
theorem renamed_on_the_way :
    let specs : List (KeySpec Float) := [.made ["a"] "" 1.0 .null]
    let options : EngineOptions Float :=
      { MatchOptions.standard with
        keys := specs, includeScore := false, shouldSort := false, order := Hit.before,
        extract := standardExtractor, normalize := none, ignoreFieldNorm := false }
    let docs := Value.list [.mapping [("a", .text "kiwi")]]
    let query := Value.mapping [("", .text "kiwi")]
    ∃ index restored engine copy,
      Index.ofSpecs specs docs standardExtractor none = .ok index ∧
        Index.ofValue index.toValue standardExtractor none = .ok restored ∧
        restored.toValue ≠ index.toValue ∧
        Engine.build docs options (.index index) MatcherFactory.standard = .ok engine ∧
        Engine.build docs options (.index restored) MatcherFactory.standard = .ok copy ∧
        copy.search query (-1) ≠ engine.search query (-1) := by
  intro specs options docs query
  have hlengths : (do
      let index ← Index.ofSpecs specs docs standardExtractor none
      let restored := index.restored standardExtractor none
      let engine ← Engine.build docs options (.index index) MatcherFactory.standard
      let copy ← Engine.build docs options (.index restored) MatcherFactory.standard
      let hits ← engine.hits query
      let results ← copy.search query (-1)
      return (hits.length, results.length) : Except SearchError (Nat × Nat)) = .ok (1, 0) := by
    decide +kernel
  obtain ⟨index, hindex, hlengths⟩ := bind_eq_ok_iff.mp hlengths
  obtain ⟨engine, hengine, hlengths⟩ := bind_eq_ok_iff.mp hlengths
  obtain ⟨copy, hcopy, hlengths⟩ := bind_eq_ok_iff.mp hlengths
  obtain ⟨hits, hhits, hlengths⟩ := bind_eq_ok_iff.mp hlengths
  obtain ⟨results, hresults, hlengths⟩ := bind_eq_ok_iff.mp hlengths
  obtain ⟨hone, hnone⟩ := Prod.mk.inj (pure_eq_ok_iff.mp hlengths)
  have hrestorable := Index.restorable_of_ofSpecs hindex (Nat.pow_pos (by decide))
  have hunnamed : ¬ ∀ key ∈ index.keys, key.Named := by
    rw [Index.Grown.first.named_iff_of_ofSpecs hindex, List.forall_mem_singleton]
    rintro (hid | hpath)
    · exact hid rfl
    · exact absurd hpath (by decide)
  refine ⟨index, _, engine, copy, hindex, hrestorable.ofValue_toValue standardExtractor none,
    mt (index.toValue_restored_iff _ _).mp hunnamed, hengine, hcopy, fun hsearch => ?_⟩
  have hlength := Engine.length_of_search (hsearch.symm.trans hresults) hhits
  rw [hone, hnone] at hlength
  exact absurd hlength (by decide)

namespace Engine

variable {engine first : Engine Float} {docs : Value} {options : EngineOptions Float}
  {factories : List (MatcherFactory Float)} {given : GivenIndex Float} {store : WeightedKeys Float}

/-! ### Engines that are kept -/

/-- An engine that was made with some options, and whose index can be restored. -/
structure Kept (options : EngineOptions Float) (factories : List (MatcherFactory Float))
    (store : WeightedKeys Float) (engine : Engine Float) : Prop where
  options_eq : engine.options = options
  factories_eq : engine.factories = factories
  weightedKeys_eq : engine.weightedKeys = store
  restorable : engine.index.Restorable options.keys

theorem Kept.landed (h : Kept options factories store engine) (docs : List Value)
    {made : Except SearchError (Index Float)}
    (hmade : ∀ index, made = .ok index → index.Restorable options.keys) :
    Kept options factories store (engine.landed docs made).1 := by
  cases made with
  | error e => exact ⟨h.options_eq, h.factories_eq, h.weightedKeys_eq, h.restorable⟩
  | ok index => exact ⟨h.options_eq, h.factories_eq, h.weightedKeys_eq, hmade index rfl⟩

end Engine

/-- What is given as an index can be restored. -/
def GivenIndex.Restorable (specs : List (KeySpec Float)) : GivenIndex Float → Prop
  | .index made => made.Restorable specs
  | _ => True

/-- A replacement comes with an index that can be restored, if with any. -/
def Call.Restorable (specs : List (KeySpec Float)) : Call Float → Prop
  | .replace _ given => given.Restorable specs
  | _ => True

namespace Engine

variable {engine first : Engine Float} {docs : Value} {options : EngineOptions Float}
  {factories : List (MatcherFactory Float)} {given : GivenIndex Float} {store : WeightedKeys Float}

theorem restorable_of_indexFor (hoptions : engine.options = options)
    (hlength : options.keys.length ≤ 10 ^ Decimal.longestInteger)
    (hgiven : given.Restorable options.keys) {items : List Value} {index : Index Float}
    (h : engine.indexFor items given = .ok index) : index.Restorable options.keys := by
  subst hoptions
  cases given with
  | absent => exact Index.restorable_of_ofSpecs h hlength
  | index other =>
    obtain rfl := Except.ok.inj h
    exact hgiven
  | other => cases h

/-- **A change of the collection keeps an index that can be restored.** -/
theorem Kept.call (h : Kept options factories store engine)
    (hlength : options.keys.length ≤ 10 ^ Decimal.longestInteger) {c : Call Float}
    (hc : c.Restorable options.keys) : Kept options factories store (engine.call c).1 := by
  rcases engine.call_cases c with ⟨failure, hcall⟩ | ⟨doc, rfl, hcall⟩ |
    ⟨position, rfl, -, hcall⟩ | ⟨docs, given, items, rfl, -, hcall⟩
  all_goals rw [hcall]
  · exact h
  · exact h.landed _ fun index hadd => h.restorable.add hadd
  · exact h.landed _ fun index hremove => h.restorable.removeAt hremove
  · exact h.landed _ fun index hindex => restorable_of_indexFor h.options_eq hlength hc hindex

theorem Kept.after (h : Kept options factories store engine)
    (hlength : options.keys.length ≤ 10 ^ Decimal.longestInteger) {calls : List (Call Float)}
    (hcalls : ∀ c ∈ calls, c.Restorable options.keys) :
    Kept options factories store (engine.after calls) := by
  induction calls generalizing engine with
  | nil => exact h
  | cons c calls ih =>
    exact ih (h.call hlength (hcalls c List.mem_cons_self)) fun other hmem =>
      hcalls other (List.mem_cons_of_mem c hmem)

/-! ### Restored engines -/

/-- **An engine over a restored index goes on answering like the original**, whatever was done to the
original before, if the keys of its index are named: as long as no document is added, or else if the
functions that the original makes records with were given along with the snapshot. -/
theorem answers_of_restored {calls : List (Call Float)}
    (hbuild : Engine.build docs options given factories = .ok first)
    (hgiven : given.Restorable options.keys) (hcalls : ∀ c ∈ calls, c.Restorable options.keys)
    (hlength : options.keys.length ≤ 10 ^ Decimal.longestInteger)
    (hnamed : ∀ key ∈ (first.after calls).index.keys, key.Named) (extract : Extractor)
    (normalize : Option (String → String)) :
    ∃ restored copy, Index.ofValue (first.after calls).index.toValue extract normalize = .ok restored ∧
      Engine.build (.list (first.after calls).docs) options (.index restored) factories = .ok copy ∧
      ∀ requests : List (Request Float),
        (∀ request ∈ requests, request.Adds → extract = (first.after calls).index.extract ∧
          normalize = (first.after calls).index.normalize) →
        copy.answers requests = (first.after calls).answers requests := by
  obtain ⟨hextended, hoptions, hfactories, hstore, -, hindex⟩ := build_given_eq_ok_iff.mp hbuild
  have hfirst : Kept options factories first.weightedKeys first :=
    ⟨hoptions, hfactories, rfl, restorable_of_indexFor hoptions hlength hgiven hindex⟩
  have hkept := hfirst.after hlength hcalls
  generalize first.after calls = engine at hkept hnamed ⊢
  have hstore' : WeightedKeys.ofSpecs options.keys = .ok engine.weightedKeys := by
    rw [hkept.weightedKeys_eq, hstore]
  refine ⟨_, engine.withIndex (engine.index.restored extract normalize),
    hkept.restorable.ofValue_toValue extract normalize, ?_, fun requests hadds => ?_⟩
  · exact build_given_eq_ok_iff.mpr
      ⟨hextended, hkept.options_eq, hkept.factories_eq, hstore', rfl, rfl⟩
  · exact (exchangeable_restored hstore' hkept.restorable.listed hnamed extract normalize).answers
      hadds

/-- Texts are cut to their first letter, and the function that does so is given along with the
snapshot. -/
theorem answers_of_restored_with_normalize :
    let options : EngineOptions Float :=
      { MatchOptions.standard with
        keys := [], includeScore := false, shouldSort := true, order := Hit.before,
        extract := standardExtractor, normalize := some fun s => String.ofList (s.toList.take 1),
        ignoreFieldNorm := false }
    let calls : List (Call Float) := [.add (.text "fig"), .removeAt 7, .removeAt 0]
    let requests : List (Request Float) :=
      [.call (.add (.text "plum")), .search (.text "p") (-1), .call (.removeAt 0)]
    ∃ first restored copy,
      Engine.build (.list [.text "kiwi"]) options .absent MatcherFactory.standard = .ok first ∧
        (first.after calls).index.size = 1 ∧
        Index.ofValue (first.after calls).index.toValue standardExtractor options.normalize
          = .ok restored ∧
        Engine.build (.list (first.after calls).docs) options (.index restored)
          MatcherFactory.standard = .ok copy ∧
        copy.answers requests = (first.after calls).answers requests := by
  intro options calls requests
  obtain ⟨first, hbuild, hsize, hkeys, hnormalize, hextract⟩ : ∃ first,
      Engine.build (.list [.text "kiwi"]) options .absent MatcherFactory.standard = .ok first ∧
        (first.after calls).index.size = 1 ∧ (first.after calls).index.keys = [] ∧
        options.normalize = (first.after calls).index.normalize ∧
        standardExtractor = (first.after calls).index.extract := by
    refine ⟨_, rfl, ?_, rfl, rfl, rfl⟩
    decide +kernel
  have hcalls : ∀ c ∈ calls, c.Restorable options.keys :=
    List.forall_mem_cons.mpr ⟨trivial, List.forall_mem_cons.mpr ⟨trivial,
      List.forall_mem_cons.mpr ⟨trivial, List.forall_mem_nil _⟩⟩⟩
  obtain ⟨restored, copy, hrestored, hcopy, hanswers⟩ := answers_of_restored hbuild trivial hcalls
    (Nat.zero_le _) (hkeys ▸ List.forall_mem_nil _) standardExtractor options.normalize
  exact ⟨first, restored, copy, hbuild, hsize, hrestored, hcopy,
    hanswers requests fun _ _ _ => ⟨hextract, hnormalize⟩⟩

/-- **Without those functions a restored engine answers differently**: it indexes a text that the
original leaves out, its words being taken for blank. -/
theorem restored_without_normalize :
    let options : EngineOptions Float :=
      { MatchOptions.standard with
        keys := [], includeScore := false, shouldSort := true, order := Hit.before,
        extract := standardExtractor, normalize := some fun _ => " ", ignoreFieldNorm := false }
    let requests : List (Request Float) :=
      [.call (.add (.text "fig")), .search (.text "fig") (-1)]
    ∃ engine restored copy,
      Engine.build (.list []) options .absent MatcherFactory.standard = .ok engine ∧
        Index.ofValue engine.index.toValue standardExtractor none = .ok restored ∧
        Engine.build (.list engine.docs) options (.index restored) MatcherFactory.standard
          = .ok copy ∧
        copy.answers requests ≠ engine.answers requests := by
  intro options requests
  obtain ⟨engine, restored, copy, hbuild, hrestored, hcopy, hnone, hone⟩ :
      ∃ engine restored copy,
        Engine.build (.list []) options .absent MatcherFactory.standard = .ok engine ∧
          Index.ofValue engine.index.toValue standardExtractor none = .ok restored ∧
          Engine.build (.list engine.docs) options (.index restored) MatcherFactory.standard
            = .ok copy ∧
          ((engine.add (.text "fig")).1.search (.text "fig") (-1)).map List.length = .ok 0 ∧
          ((copy.add (.text "fig")).1.hits (.text "fig")).map List.length = .ok 1 := by
    refine ⟨_, _, _, rfl, rfl, rfl, ?_, ?_⟩ <;> decide +kernel
  refine ⟨engine, restored, copy, hbuild, hrestored, hcopy, fun hanswers => ?_⟩
  -- the copy finds a hit, so it cannot answer that there is no result
  have hsearch : (copy.add (.text "fig")).1.search (.text "fig") (-1)
      = (engine.add (.text "fig")).1.search (.text "fig") (-1) :=
    Answer.results.inj (List.cons.inj (List.cons.inj hanswers).2).1
  obtain ⟨results, hresults, hempty⟩ := map_eq_ok_iff.mp hnone
  obtain ⟨found, hfound, hlength⟩ := map_eq_ok_iff.mp hone
  have hsame := length_of_search (hsearch.trans hresults) hfound
  rw [hempty, hlength] at hsame
  exact absurd hsame (by decide)

end Engine

end FuzzySearch
