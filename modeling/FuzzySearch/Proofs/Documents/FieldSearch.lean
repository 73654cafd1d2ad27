import FuzzySearch.Documents.FieldSearch
import FuzzySearch.Proofs.Engine.Extraction
import FuzzySearch.Proofs.Options

/-!
# Fields that are matched as they are

Queries with Han characters and the field `text` are to be matched as they are.  With a store this
is so: the normalizer makes no difference.  Without a store there is no such exception: the texts of
all fields are normalized, so the same texts are indexed exactly if the normalizer leaves all of
them alone (`fields_as_is`).
-/

namespace FuzzySearch

/-! ### The engine of a field search -/

/-- The engine that a field search searches. -/
def fieldEngine (items : Value) (keys : Listing (KeySpec Float)) (limits : List (String × Value))
    (extract : Extractor) : Except SearchError (Engine Float) := do
  let keys ← keys.elements .described
  let options ← fieldSearchOptions keys limits extract
  Engine.build items options .absent MatcherFactory.standard

variable {items : Value} {keys : Listing (KeySpec Float)} {limits : List (String × Value)}
  {extract extract' : Extractor}

theorem searchFields_eq (items : Value) (query : String) (keys : Listing (KeySpec Float))
    (limits : List (String × Value)) (store : Option FieldsByTitle)
    (normalize : Option (String → String)) :
    searchFields items query keys limits store normalize
      = fieldEngine items keys limits (fieldExtractor store normalize (Text.containsHan query)) >>=
          fun engine => engine.search (.text query) (-1) := by
  unfold searchFields fieldEngine
  simp only [bind_assoc]

theorem fieldSearchOptions_withExtract (keys : List (KeySpec Float))
    (limits : List (String × Value)) (extract extract' : Extractor) :
    fieldSearchOptions keys limits extract'
      = (fieldSearchOptions keys limits extract).map ({ · with extract := extract' }) := by
  have hread := EngineOptions.ofValues_withExtract
    ([("include_score", .bool true), ("include_matches", .bool true)] ++
      limits.foldl (fun all limit => insertEntry limit.1 limit.2 all) fieldSearchLimits)
    EngineFunctions.usual
  show (EngineOptions.ofValues _ { EngineFunctions.usual with extract := some extract' } >>= _)
    = Except.map _ (EngineOptions.ofValues _
        { EngineFunctions.usual with extract := some extract } >>= _)
  rw [hread extract', hread extract, map_bind, map_bind, bind_map]
  rfl

theorem of_fieldSearchOptions {keys : List (KeySpec Float)} {options : EngineOptions Float}
    (h : fieldSearchOptions keys limits extract = .ok options) :
    options.keys = keys ∧ options.normalize = none ∧ options.extract = extract := by
  obtain ⟨read, hread, h⟩ := bind_eq_ok_iff.mp h
  obtain rfl := pure_eq_ok_iff.mp h
  obtain ⟨hextract, hnormalize⟩ := EngineOptions.of_ofValues_eq_ok hread
  exact ⟨rfl, hnormalize, hextract⟩

/-- Extractors that find the same entries lead to engines that are searched alike. -/
theorem fieldEngine_withExtract
    (h : ∀ docs specs (paths : List (Key Float)), items.elements = .ok docs →
      keys.elements .described = .ok specs → specs.mapM Key.ofSpec = .ok paths →
      Index.SameEntries paths none docs extract extract') :
    fieldEngine items keys limits extract'
      = (fieldEngine items keys limits extract).map (·.withExtract extract') := by
  unfold fieldEngine
  cases hkeys : keys.elements .described with
  | error e => rfl
  | ok specs =>
    rw [ok_bind, ok_bind, fieldSearchOptions_withExtract specs limits extract extract', map_bind,
      bind_map]
    cases hoptions : fieldSearchOptions specs limits extract with
    | error e => rfl
    | ok options =>
      obtain ⟨rfl, hnormalize, rfl⟩ := of_fieldSearchOptions hoptions
      rw [ok_bind, ok_bind]
      apply Engine.build_withExtract
      intro docs paths hdocs hpaths
      rw [hnormalize]
      exact h docs options.keys paths hdocs hkeys hpaths

/-- What an engine of a field search is made of. -/
theorem of_fieldEngine {engine : Engine Float}
    (h : fieldEngine items keys limits extract = .ok engine) :
    ∃ specs paths, keys.elements .described = .ok specs ∧ specs.mapM Key.ofSpec = .ok paths ∧
      items.elements = .ok engine.docs ∧
      Index.build paths (.list engine.docs) extract none = .ok engine.index := by
  unfold fieldEngine at h
  obtain ⟨specs, hkeys, hread⟩ := bind_eq_ok_iff.mp h
  obtain ⟨options, hoptions, hengine⟩ := bind_eq_ok_iff.mp hread
  obtain ⟨rfl, hnormalize, rfl⟩ := of_fieldSearchOptions hoptions
  obtain ⟨-, store, docs, index, -, hdocs, hindex, rfl⟩ := Engine.build_eq_ok_iff.mp hengine
  obtain ⟨paths, hpaths, hbuild⟩ := bind_eq_ok_iff.mp hindex
  rw [hnormalize] at hbuild
  exact ⟨options.keys, paths, hkeys, hpaths, hdocs, hbuild⟩

/-- Extractors that never fail lead to engines over the same documents, or fail alike. -/
theorem docs_fieldEngine_of_total (htotal : ∀ doc path, ∃ v, extract doc path = .ok v)
    (htotal' : ∀ doc path, ∃ v, extract' doc path = .ok v) :
    (fieldEngine items keys limits extract').map Engine.docs
      = (fieldEngine items keys limits extract).map Engine.docs := by
  unfold fieldEngine
  cases keys.elements .described with
  | error e => rw [error_bind, error_bind]
  | ok specs =>
    rw [ok_bind, ok_bind, fieldSearchOptions_withExtract specs limits extract extract', map_bind,
      bind_map, bind_map]
    cases hoptions : fieldSearchOptions specs limits extract with
    | error e => rw [error_bind, error_bind]
    | ok options =>
      obtain ⟨-, -, rfl⟩ := of_fieldSearchOptions hoptions
      rw [ok_bind, ok_bind, Engine.docs_build_of_total htotal, Engine.docs_build_of_total htotal']

/-! ### With a store -/

/-- A query and keys for which fields are to be matched as they are: the query has a Han character,
or every key is a field that is never normalized. -/
def MatchedAsIs (query : String) (keys : Listing (KeySpec Float)) : Prop :=
  Text.containsHan query = true ∨ ∀ specs, keys.elements .described = .ok specs → ∀ spec ∈ specs,
    ∀ key : Key Float, Key.ofSpec spec = .ok key → ∀ name ∈ key.path.head?, name ∈ unchangedFields

/-- A field that is never normalized is found as it is. -/
theorem storeExtractor_as_is (store : FieldsByTitle) (normalize : String → String)
    {queryIsHan : Bool} {path : List String}
    (h : queryIsHan = true ∨ ∀ name ∈ path.head?, name ∈ unchangedFields) (item : Value) :
    storeExtractor store (some normalize) queryIsHan item path
      = storeExtractor store none queryIsHan item path := by
  cases path with
  | nil => rfl
  | cons name path =>
    have hname : (unchangedFields.contains name || queryIsHan) = true := by
      rcases h with rfl | h
      · exact Bool.or_true _
      · rw [List.contains_iff_mem.mpr (h name rfl), Bool.true_or]
    simp only [storeExtractor, hname, if_true]

/-- **With a store, the normalizer makes no difference.** -/
theorem searchFields_of_store {query : String} (h : MatchedAsIs query keys)
    (store : FieldsByTitle) (normalize : String → String) :
    searchFields items query keys limits (some store) (some normalize)
      = searchFields items query keys limits (some store) none := by
  have hsame := @fieldEngine_withExtract items keys limits
    (storeExtractor store none (Text.containsHan query))
    (storeExtractor store (some normalize) (Text.containsHan query))
    (fun docs specs paths _ hspecs hpaths => .inr fun doc _ key hkey => by
      obtain ⟨spec, hspec, hofSpec⟩ := exists_of_mem_mapM hpaths hkey
      have hasis := h.imp_right fun hall => hall specs hspecs spec hspec key hofSpec
      show Except.map _ (storeExtractor store (some normalize) _ doc key.path) = _
      rw [storeExtractor_as_is store normalize hasis doc]
      rfl)
  rw [searchFields_eq, searchFields_eq]
  show fieldEngine items keys limits (storeExtractor store (some normalize) _) >>= _
    = fieldEngine items keys limits (storeExtractor store none _) >>= _
  rw [hsame]
  cases fieldEngine items keys limits (storeExtractor store none (Text.containsHan query)) <;> rfl

/-! ### Without a store -/

/-- A text that is indexed alike with and without a normalizer. -/
def LeavesAlone (normalize : String → String) (text : String) : Prop :=
  normalize text = text ∨
    Text.isBlank (normalize text).toList = true ∧ Text.isBlank text.toList = true

/-- The normalizer leaves alone the texts of the fields that some keys ask for. -/
def LeavesFieldsAlone (normalize : String → String) (docs : List Value) (paths : List (Key Float)) :
    Prop :=
  ∀ doc ∈ docs, ∀ key ∈ paths, ∀ name ∈ key.path.head?, ∀ v, doc.member? name = some v →
    v ≠ .null → LeavesAlone normalize (joinedText v)

theorem itemExtractor_of_missing {doc : Value} {name : String}
    (h : ∀ v, doc.member? name = some v → v = .null) (normalize : Option (String → String))
    (path : List String) : itemExtractor normalize doc (name :: path) = .ok .null := by
  rw [itemExtractor]
  split
  · rfl
  · rfl
  · rename_i v hnull hmember
    exact absurd (h v hmember) hnull

theorem itemExtractor_of_member {doc v : Value} {name : String} (h : doc.member? name = some v)
    (hnull : v ≠ .null) (normalize : Option (String → String)) (path : List String) :
    itemExtractor normalize doc (name :: path)
      = .ok (.text ((normalize.getD id) (joinedText v))) := by
  rw [itemExtractor, h]
  cases v <;> first | rfl | exact absurd rfl hnull

theorem exists_itemExtractor (normalize : Option (String → String)) (doc : Value)
    (path : List String) : ∃ v, itemExtractor normalize doc path = .ok v := by
  unfold itemExtractor
  split
  · exact ⟨_, rfl⟩
  · split <;> exact ⟨_, rfl⟩

theorem fieldEntry?_text {index : Index Float} (h : index.normalize = none) (text : String) :
    index.fieldEntry? (.text text)
      = if Text.isBlank text.toList then none else some (.single (Index.indexed text none)) := by
  show (index.indexable? (.text text)).map _ = _
  rw [Index.indexable?_text h]
  split_ifs <;> rfl

theorem fieldEntry?_text_eq_iff {index other : Index Float} (h : index.normalize = none)
    (hother : other.normalize = none) (normalize : String → String) (text : String) :
    other.fieldEntry? (.text (normalize text)) = index.fieldEntry? (.text text) ↔
      LeavesAlone normalize text := by
  rw [fieldEntry?_text h, fieldEntry?_text hother, LeavesAlone]
  constructor
  · -- a blank text has no entry and any other has one
    split_ifs with hchanged htext htext
    · exact fun _ => .inr ⟨hchanged, htext⟩
    · exact False.elim
    · exact False.elim
    · intro heq
      have hindexed := IndexedField.single.inj (Option.some.inj heq)
      exact .inl (congrArg IndexedText.text hindexed)
  · rintro (heq | ⟨hchanged, htext⟩)
    · rw [heq]
    · rw [if_pos hchanged, if_pos htext]

/-- A document has the same entry under a key exactly if the text of the field is left alone. -/
theorem entryFor?_itemExtractor_eq_iff (normalize : String → String) (paths : List (Key Float))
    (doc : Value) (key : Key Float) :
    (Index.blank paths (itemExtractor (some normalize)) none).entryFor? doc key
        = (Index.blank paths (itemExtractor none) none).entryFor? doc key ↔
      ∀ name ∈ key.path.head?, ∀ v, doc.member? name = some v → v ≠ .null →
        LeavesAlone normalize (joinedText v) := by
  show Except.map _ (itemExtractor (some normalize) doc key.path)
    = Except.map _ (itemExtractor none doc key.path) ↔ _
  cases key.path with
  | nil => exact iff_of_true rfl (by simp)
  | cons name path =>
    by_cases hfound : ∃ v, doc.member? name = some v ∧ v ≠ .null
    · obtain ⟨v, hv, hnull⟩ := hfound
      rw [itemExtractor_of_member hv hnull, itemExtractor_of_member hv hnull]
      show Except.ok _ = Except.ok _ ↔ _
      rw [Except.ok.injEq, Option.getD_some, Option.getD_none, id,
        fieldEntry?_text_eq_iff rfl rfl normalize (joinedText v)]
      constructor
      · rintro halone _ ⟨⟩ w hw -
        obtain rfl := Option.some.inj (hv.symm.trans hw)
        exact halone
      · exact fun h => h name rfl v hv hnull
    · have hmissing : ∀ v, doc.member? name = some v → v = .null := fun v hv =>
        not_not.mp fun hnull => hfound ⟨v, hv, hnull⟩
      rw [itemExtractor_of_missing hmissing, itemExtractor_of_missing hmissing]
      refine iff_of_true rfl ?_
      rintro _ ⟨⟩ v hv hnull
      exact absurd (hmissing v hv) hnull

theorem sameEntries_itemExtractor_iff (normalize : String → String) (docs : List Value)
    (paths : List (Key Float)) :
    Index.SameEntries paths none docs (itemExtractor none) (itemExtractor (some normalize)) ↔
      Index.startsWithText docs = true ∨ LeavesFieldsAlone normalize docs paths := by
  simp only [Index.SameEntries, LeavesFieldsAlone, entryFor?_itemExtractor_eq_iff]

/-- A field search without a store is one of the engine over the items. -/
theorem searchFields_of_fieldEngine {change : Option (String → String)} {engine : Engine Float}
    (h : fieldEngine items keys limits (itemExtractor change) = .ok engine) (query : String) :
    searchFields items query keys limits none change = engine.search (.text query) (-1) := by
  rw [searchFields_eq]
  show fieldEngine items keys limits (itemExtractor change) >>= _ = _
  rw [h, ok_bind]

/-- A field search has a result for every hit. -/
theorem searchFields_ne {change : Option (String → String)} {query : String}
    (hnone : (searchFields items query keys limits none none).map List.length = .ok 0)
    (hone : (fieldEngine items keys limits (itemExtractor change) >>= fun engine =>
      (engine.hits (.text query)).map List.length) = .ok 1) :
    searchFields items query keys limits none change
      ≠ searchFields items query keys limits none none := by
  intro heq
  obtain ⟨results, hresults, hempty⟩ := map_eq_ok_iff.mp hnone
  obtain ⟨engine, hengine, hlength⟩ := bind_eq_ok_iff.mp hone
  obtain ⟨found, hfound, hlength⟩ := map_eq_ok_iff.mp hlength
  have hsearch : engine.search (.text query) (-1) = .ok results := by
    rw [← hresults, ← heq, searchFields_of_fieldEngine hengine]
  have hsame := Engine.length_of_search hsearch hfound
  rw [hempty, hlength] at hsame
  exact absurd hsame (by decide)

/-- **Fields are matched as they are with a store, but not without one.**  With a store the
normalizer makes no difference for a query with Han characters, or for keys that are never
normalized.  Without a store it is applied whatever the query and the keys are: the same failures
occur and the same documents are searched, but the same records only if the normalizer leaves the
texts of the searched fields alone.  Then the results are the same as well. -/
theorem fields_as_is (items : Value) (keys : Listing (KeySpec Float)) (query : String)
    (limits : List (String × Value)) (normalize : String → String) :
    (MatchedAsIs query keys → ∀ store,
      searchFields items query keys limits (some store) (some normalize)
        = searchFields items query keys limits (some store) none) ∧
      (fieldEngine items keys limits (itemExtractor (some normalize))).map Engine.docs
        = (fieldEngine items keys limits (itemExtractor none)).map Engine.docs ∧
      ∀ plain changed, fieldEngine items keys limits (itemExtractor none) = .ok plain →
        fieldEngine items keys limits (itemExtractor (some normalize)) = .ok changed →
        searchFields items query keys limits none none = plain.search (.text query) (-1) ∧
        searchFields items query keys limits none (some normalize)
          = changed.search (.text query) (-1) ∧
        (changed.index.records = plain.index.records ↔
          Index.startsWithText plain.docs = true ∨
            LeavesFieldsAlone normalize plain.docs plain.index.keys) ∧
        (changed.index.records = plain.index.records →
          searchFields items query keys limits none (some normalize)
            = searchFields items query keys limits none none) := by
  refine ⟨fun h store => searchFields_of_store h store normalize,
    docs_fieldEngine_of_total (exists_itemExtractor none) (exists_itemExtractor (some normalize)),
    fun plain changed hplain hchanged => ?_⟩
  obtain ⟨specs, paths, hspecs, hpaths, hdocs, hbuild⟩ := of_fieldEngine hplain
  obtain ⟨specs', paths', hspecs', hpaths', hdocs', hbuild'⟩ := of_fieldEngine hchanged
  obtain rfl : specs = specs' := Except.ok.inj (hspecs.symm.trans hspecs')
  obtain rfl : paths = paths' := Except.ok.inj (hpaths.symm.trans hpaths')
  rw [Except.ok.inj (hdocs'.symm.trans hdocs)] at hbuild'
  have hplain_search := searchFields_of_fieldEngine hplain query
  have hchanged_search := searchFields_of_fieldEngine hchanged query
  have hpaths_eq : plain.index.keys = paths := by
    obtain ⟨bodies, htracks, -⟩ := Index.tracks_of_build hbuild
    exact htracks.alike.keys_eq
  have hiff := Index.records_eq_iff hbuild hbuild'
  refine ⟨hplain_search, hchanged_search, ?_, fun hrecords => ?_⟩
  · rw [hiff, sameEntries_itemExtractor_iff, hpaths_eq]
  · have halike := @fieldEngine_withExtract items keys limits (itemExtractor none)
      (itemExtractor (some normalize)) (fun docs specs' paths' hdocs₂ hspecs₂ hpaths₂ => by
        obtain rfl : specs = specs' := Except.ok.inj (hspecs.symm.trans hspecs₂)
        obtain rfl : paths = paths' := Except.ok.inj (hpaths.symm.trans hpaths₂)
        obtain rfl : plain.docs = docs := Except.ok.inj (hdocs.symm.trans hdocs₂)
        exact hiff.mp hrecords)
    rw [hplain, hchanged] at halike
    obtain rfl : changed = plain.withExtract _ := Except.ok.inj halike
    rw [hplain_search, hchanged_search, Engine.search_withExtract]

/-- The field `text` is found as it is in a store, and a text without Han characters is left alone
in any case. -/
theorem fields_as_is_pinyin :
    let pinyin := Text.withTransliteration fun _ => "zhongwen"
    let store : FieldsByTitle := [("Notes", some [("text", .text "中文")])]
    let notes : Value := .list [.mapping [("title", .text "Notes")]]
    let kiwi : Value := .list [.mapping [("text", .text "kiwi")]]
    let keys : Listing (KeySpec Float) := .value (.list [.text "text"])
    searchFields notes "zhongwen" keys [] (some store) (some pinyin)
        = searchFields notes "zhongwen" keys [] (some store) none ∧
      searchFields kiwi "zhongwen" keys [] none (some pinyin)
        = searchFields kiwi "zhongwen" keys [] none none := by
  intro pinyin store notes kiwi keys
  have hexempt : MatchedAsIs "zhongwen" keys := by
    refine .inr fun specs hspecs spec hspec key hkey name hname => ?_
    obtain rfl := Except.ok.inj hspecs
    obtain rfl := List.mem_singleton.mp hspec
    obtain rfl := Except.ok.inj hkey
    obtain rfl : "text" = name := Option.some.inj hname
    exact List.mem_singleton_self _
  refine ⟨(fields_as_is notes keys "zhongwen" [] pinyin).1 hexempt store, ?_⟩
  obtain ⟨-, hdocs, hkiwi⟩ := fields_as_is kiwi keys "zhongwen" [] pinyin
  have hbuilt : (fieldEngine kiwi keys [] (itemExtractor none)).map Engine.docs
      = .ok [.mapping [("text", .text "kiwi")]] := rfl
  obtain ⟨plain, hplain, hplain_docs⟩ := map_eq_ok_iff.mp hbuilt
  obtain ⟨changed, hchanged, -⟩ := map_eq_ok_iff.mp (hdocs.trans hbuilt)
  obtain ⟨-, -, hiff, hsame⟩ := hkiwi plain changed hplain hchanged
  refine hsame (hiff.mpr (.inr fun doc hdoc key _ name _ v hv _ => ?_))
  rw [hplain_docs] at hdoc
  obtain rfl := List.mem_singleton.mp hdoc
  obtain ⟨-, rfl⟩ : "text" = name ∧ Value.text "kiwi" = v := by
    simpa [Value.member?, lookup?] using hv
  exact .inl (by decide +kernel)

/-- **Without a store the field `text` is normalized, and so is any field when the query has Han
characters**: a transliteration is found in the one, and a traditional character under its
simplified form in the other. -/
theorem fields_without_store_normalized :
    (let pinyin := Text.withTransliteration fun _ => "zhongwen"
      let items : Value := .list [.mapping [("text", .text "中文")]]
      let keys : Listing (KeySpec Float) := .value (.list [.text "text"])
      searchFields items "zhongwen" keys [] none (some pinyin)
        ≠ searchFields items "zhongwen" keys [] none none) ∧
      (let simplify := fun text : String => text.map fun c => if c = '漢' then '汉' else c
        let items : Value := .list [.mapping [("title", .text "漢")]]
        let keys : Listing (KeySpec Float) := .value (.list [.text "title"])
        searchFields items "汉" keys [] none (some simplify)
          ≠ searchFields items "汉" keys [] none none) := by
  exact ⟨searchFields_ne (by decide +kernel) (by decide +kernel),
    searchFields_ne (by decide +kernel) (by decide +kernel)⟩

end FuzzySearch
