import FuzzySearch.CommandLine.Run
import FuzzySearch.Proofs.Engine.Snapshot
import FuzzySearch.Proofs.Files.Folder
import FuzzySearch.Proofs.Files.SnapshotFile
import FuzzySearch.Proofs.Index.FirstDocument
import FuzzySearch.Proofs.Index.Storable
import FuzzySearch.Proofs.Options

/-!
# Searches through a snapshot

The records are indexed for some keys, the index is written to a file, and a search reads it from
there instead of being given the keys.  Every step keeps what the search looks at: a key is specified
again by its name and its weight (`CommandLine.ofSpec_specOfKey`), a snapshot that is saved is loaded
again (`SnapshotFile.load_save`), and an engine over a restored index searches as the one that made
the index (`Engine.search_of_snapshot`).  So the search prints what the search with the keys prints
(`CommandLine.run_through`).
-/

namespace FuzzySearch

/-! ### Keys by name -/

namespace Key

/-- The key of a name with a weight. -/
def named (name : String) (weight : Float) : Key Float :=
  ⟨pathOfText name, .text name, weight, .text name⟩

/-- A key that can be specified by its name and its weight. -/
def Simple (key : Key Float) : Prop :=
  ∃ name weight, key = named name weight ∧ 0.0 < weight ∧ weight.isInf = false

end Key

/-- A double that is greater than zero is a number that is not at most zero. -/
theorem not_le_and_isNaN_of_pos {x : Float} (h : 0.0 < x) : ¬x ≤ 0.0 ∧ x.isNaN = false := by
  have hlt : (0.0 : Float).toModel.unpack.lt x.toModel.unpack = true := of_decide_eq_true h
  have hzero : (0.0 : Float).toModel.unpack = .zero .positive := rfl
  suffices hmodel : x.toModel.unpack.le (.zero .positive) = false ∧
      x.toModel.unpack.isNaN = false by
    refine ⟨fun hle => ?_, hmodel.2⟩
    have hle : x.toModel.unpack.le (0.0 : Float).toModel.unpack = true := of_decide_eq_true hle
    rw [hzero, hmodel.1] at hle
    exact Bool.noConfusion hle
  rw [hzero] at hlt
  cases hx : x.toModel.unpack with
  | notANumber | zero sign =>
    rw [hx] at hlt
    exact Bool.noConfusion hlt
  | infinity sign | finite sign =>
    rw [hx] at hlt
    cases sign with
    | positive => exact ⟨rfl, rfl⟩
    | negative => exact Bool.noConfusion hlt

namespace CommandLine

/-- A key as it can be written: a plain name, or a name with a positive finite weight. -/
def KeyArgument (s : String) : Prop :=
  keySpec s = .text s ∨
    ∃ name weight, keySpec s = .mapping [("name", .text name), ("weight", .float weight)] ∧
      0.0 < weight ∧ weight.isInf = false

theorem ofDescription_weighted (name : String) {weight : Float} (h : 0.0 < weight) :
    Key.ofDescription (.mapping [("name", .text name), ("weight", .float weight)])
      = .ok (Key.named name weight) := by
  have hname : lookup? "name" [("name", Value.text name), ("weight", .float weight)]
      = some (.text name) := rfl
  have hgiven : (lookup? "weight" [("name", Value.text name), ("weight", .float weight)]).getD (.int 1)
      = .float weight := rfl
  have hweight : Key.weight? (.float weight) = some (Except.ok weight) :=
    if_neg (not_le_and_isNaN_of_pos h).1
  simp only [Key.ofDescription, hname, hgiven, hweight]
  rfl

theorem KeyArgument.simple {s : String} (h : KeyArgument s) :
    ∃ key, Key.ofSpec (.described (keySpec s)) = .ok key ∧ key.Simple := by
  rcases h with hplain | ⟨name, weight, hspec, hpos, hfinite⟩
  · rw [hplain]
    exact ⟨_, rfl, s, ScoreNumber.one, rfl, by decide +kernel, by decide +kernel⟩
  · rw [hspec]
    exact ⟨_, ofDescription_weighted name hpos, name, weight, rfl, hpos, hfinite⟩

/-- A key of an index is specified as it was given. -/
theorem ofSpec_specOfKey {key : Key Float} (h : key.Simple) :
    Key.ofSpec (.described (specOfKey key)) = .ok key := by
  obtain ⟨name, weight, rfl, hpos, -⟩ := h
  exact ofDescription_weighted name hpos

end CommandLine

/-! ### Engines -/

/-- There is no engine for keys that cannot be weighted. -/
theorem Engine.build_of_ofSpecs_eq_error {docs : Value} {options : EngineOptions Float}
    {e : SearchError} (h : WeightedKeys.ofSpecs options.keys = .error e) (given : GivenIndex Float) :
    Engine.build docs options given MatcherFactory.standard = .error e := by
  have hterms : (options.extended &&
      !MatcherFactory.anyReadsTerms (α := Float) MatcherFactory.standard) = false :=
    Bool.and_false _
  unfold Engine.build
  rw [hterms, if_neg Bool.false_ne_true, h]
  rfl

/-- **An engine over a restored index finds what an engine finds that makes the index itself**, if
the keys of the two are the same and are named; or there is no engine for the keys. -/
theorem Engine.search_of_snapshot {o : EngineOptions Float} {specs specs' : List (KeySpec Float)}
    {records : List Value} {index : Index Float}
    (hindex : Index.ofSpecs specs (.list records) o.extract o.normalize = .ok index)
    (hkeys : specs'.mapM Key.ofSpec = .ok index.keys) (hnamed : ∀ key ∈ index.keys, key.Named)
    (extract : Extractor) (normalize : Option (String → String)) :
    let made := Engine.build (.list records) { o with keys := specs } .absent MatcherFactory.standard
    let restored := Engine.build (.list records) { o with keys := specs' }
      (.index (index.restored extract normalize)) MatcherFactory.standard
    (∃ e, made = .error e ∧ restored = .error e) ∨
      ∃ engine copy, made = .ok engine ∧ restored = .ok copy ∧
        ∀ query limit, copy.search query limit = engine.search query limit := by
  intro made restored
  obtain ⟨hspecs, -, -⟩ := Index.of_ofSpecs_eq_ok hindex
  have hstores : WeightedKeys.ofSpecs specs' = WeightedKeys.ofSpecs specs := by
    unfold WeightedKeys.ofSpecs
    rw [hspecs, hkeys]
  cases hstore : WeightedKeys.ofSpecs specs with
  | error e =>
    exact .inl ⟨e, build_of_ofSpecs_eq_error hstore _,
      build_of_ofSpecs_eq_error (hstores.trans hstore) _⟩
  | ok store =>
    have hterms : ∀ b : Bool,
        (b && !MatcherFactory.anyReadsTerms (α := Float) MatcherFactory.standard) = false :=
      fun b => Bool.and_false b
    refine .inr ⟨⟨{ o with keys := specs }, MatcherFactory.standard, store, records, index⟩,
      ⟨{ o with keys := specs' }, MatcherFactory.standard, store, records,
        index.restored extract normalize⟩,
      Engine.build_given_eq_ok_iff.mpr ⟨hterms _, rfl, rfl, hstore, rfl, hindex⟩,
      Engine.build_given_eq_ok_iff.mpr ⟨hterms _, rfl, rfl, hstores.trans hstore, rfl, rfl⟩, ?_⟩
    have hlisted : index.Listed specs := fun key hkey => Or.inl (exists_of_mem_mapM hspecs hkey)
    -- a search does not look at the specifications among the options
    exact fun query limit => @Engine.search_withIndex Float _
      ⟨{ o with keys := specs }, MatcherFactory.standard, _, records, index⟩ _
      (hlisted.searchedLike hnamed hstore extract normalize) query limit

namespace CommandLine

/-- The options of a search, with those of the settings. -/
def SearchCommand.given (c : SearchCommand) (settings : Settings) (keys : List Value) :
    List (String × Value) :=
  (c.said keys).foldl (fun all (name, v) => insertEntry name v all) settings.toValues

theorem SearchCommand.given_eq (c : SearchCommand) (settings : Settings) (keys keys' : List Value) :
    c.given settings keys = insertEntry "keys" (.list keys) (c.given settings keys') := by
  unfold given said
  generalize c.threshold = threshold
  cases threshold <;> rfl

theorem SearchCommand.unknownIssues_given (c : SearchCommand) (settings : Settings)
    (keys : List Value) : EngineOptions.unknownIssues (c.given settings keys) = [] := by
  unfold given said
  generalize c.threshold = threshold
  cases threshold <;> rfl

/-- What is said about the keys changes the keys among the options, and nothing else. -/
theorem engineOptions_said (settings : Settings) (c : SearchCommand) (keys keys' : List Value) :
    settings.engineOptions (c.said keys) EngineFunctions.usual
      = (settings.engineOptions (c.said keys') EngineFunctions.usual).map fun o =>
          { o with keys := keys.map .described } := by
  have hkeys : ∀ keys, lookup? "keys" (c.given settings keys) = some (.list keys) := by
    intro keys
    rw [c.given_eq settings keys keys, lookup?_insertEntry]
  refine EngineOptions.ofValues_of_keys (hkeys keys) (hkeys keys') (fun name hname => ?_) ?_ _
  · rw [c.given_eq settings keys keys', lookup?_insertEntry_of_ne hname]
  · rw [c.unknownIssues_given, c.unknownIssues_given]

/-! ### Searches -/

/-- A search that takes the index of a snapshot in the place of its keys. -/
def SearchCommand.through (c : SearchCommand) (snapshot : String) : SearchCommand :=
  { c with keys := [], index := some snapshot }

/-- **The results of a search are those of a search through the snapshot of its keys.** -/
theorem SearchCommand.results_through (c : SearchCommand) (settings : Settings)
    {records : List Value} {index : Index Float}
    (hindex : buildIndex records c.keys = .ok index) (hsimple : ∀ key ∈ index.keys, key.Simple)
    (snapshot : String) :
    (c.through snapshot).results settings records (some (index.restored standardExtractor none))
      = c.results settings records none := by
  have hspecs : c.keySpecs none = c.keys.map keySpec := rfl
  have hspecs' : (c.through snapshot).keySpecs (some (index.restored standardExtractor none))
      = index.keys.map specOfKey := by
    show (index.keys.map Key.restored).map specOfKey = _
    rw [List.map_map]
    refine List.map_congr_left fun key hkey => ?_
    obtain ⟨name, weight, rfl, -, -⟩ := hsimple key hkey
    rfl
  have hkeys : ((index.keys.map specOfKey).map KeySpec.described).mapM Key.ofSpec
      = .ok index.keys := by
    rw [mapM_eq_ok_iff, List.forall₂_map_left_iff, List.forall₂_map_left_iff, List.forall₂_same]
    exact fun key hkey => ofSpec_specOfKey (hsimple key hkey)
  have hnamed : ∀ key ∈ index.keys, key.Named :=
    (Index.Grown.first.named_iff_of_ofSpecs hindex).mpr <| List.forall_mem_map.mpr fun _ _ => trivial
  unfold results
  rw [hspecs, hspecs', engineOptions_said settings _ (index.keys.map specOfKey) [],
    engineOptions_said settings c (c.keys.map keySpec) []]
  show (Except.map _ (settings.engineOptions (c.said []) EngineFunctions.usual) >>= _) = _
  cases ho : settings.engineOptions (c.said []) EngineFunctions.usual with
  | error e => rfl
  | ok o =>
    obtain ⟨hextract, hnormalize⟩ := EngineOptions.of_ofValues_eq_ok ho
    have hbuilt : Index.ofSpecs ((c.keys.map keySpec).map .described) (.list records) o.extract
        o.normalize = .ok index := by
      rw [hextract, hnormalize, List.map_map]
      exact hindex
    show (Engine.build (.list records)
        { o with keys := (index.keys.map specOfKey).map .described }
        (.index (index.restored standardExtractor none)) MatcherFactory.standard >>= _)
      = (Engine.build (.list records) { o with keys := (c.keys.map keySpec).map .described } .absent
        MatcherFactory.standard >>= _)
    rcases Engine.search_of_snapshot hbuilt hkeys hnamed standardExtractor none with
      ⟨e, hengine, hcopy⟩ | ⟨engine, copy, hengine, hcopy, hsearch⟩
    · rw [hengine, hcopy]
      rfl
    · rw [hengine, hcopy]
      show (if c.logical = true then readQuery c.query >>= fun query => copy.search query c.limit
          else copy.search (.text c.query) c.limit)
        = if c.logical = true then readQuery c.query >>= fun query => engine.search query c.limit
          else engine.search (.text c.query) c.limit
      simp only [hsearch]

/-! ### The index of a snapshot -/

/-- The index of records is made, whatever the keys with positive weights are. -/
theorem exists_buildIndex (records : List Value) {keys : List String}
    (h : ∀ key ∈ keys, KeyArgument key) :
    ∃ index, buildIndex records keys = .ok index ∧ (∀ key ∈ index.keys, key.Simple) ∧
      index.keys.length = keys.length ∧
      ∀ record ∈ index.records, 0 ≤ record.position ∧ record.position < records.length ∧
        record.body.Measured (Value.sizes records) := by
  obtain ⟨made, hmade, hsimple⟩ := exists_forall₂_of_mapM
    (f := fun key => Key.ofSpec (.described (keySpec key)))
    (r := fun (_ : String) (made : Key Float) => made.Simple) fun key hkey => (h key hkey).simple
  have hkeys : (keys.map fun key => KeySpec.described (keySpec key)).mapM Key.ofSpec = .ok made := by
    rw [mapM_eq_ok_iff, List.forall₂_map_left_iff]
    exact mapM_eq_ok_iff.mp hmade
  obtain ⟨index, hindex⟩ : ∃ index,
      Index.build made (.list records) standardExtractor none = .ok index := by
    cases records with
    | nil => exact ⟨_, rfl⟩
    | cons first rest => exact Index.exists_build made none first rest
  have hbuilt : buildIndex records keys = .ok index := bind_eq_ok_iff.mpr ⟨made, hkeys, hindex⟩
  obtain ⟨hspecs, -, -⟩ := Index.of_ofSpecs_eq_ok hbuilt
  obtain rfl : made = index.keys := Except.ok.inj (hkeys.symm.trans hspecs)
  refine ⟨index, hbuilt, fun key hkey => ?_, hsimple.length_eq.symm, Index.measured_of_build hindex⟩
  obtain ⟨_, -, hkey⟩ := exists_of_mem_forall₂ hsimple hkey
  exact hkey

end CommandLine

/-! ### Files -/

namespace SnapshotFile

/-- A folder in which a text can be put in the place of a file. -/
def Accepts (folder : Folder) (path : FilePath) : Prop :=
  ∃ made temporary, folder.makeFolders path.parent.place = .ok made ∧
    path.temporary? = some temporary ∧ ∀ text, (replace made path temporary text).2 = none

/-- **An index that is saved is loaded again**, and all files but the snapshot and its temporary file
are as before. -/
theorem load_save {folder : Folder} {path : FilePath} (haccepts : Accepts folder path)
    {index : Index Float} {levels : Nat} (hstorable : Json.Storable levels index.toValue)
    (hlevels : levels ≤ Json.deepestWritten) (hcanonical : index.Canonical) (extract : Extractor) :
    ∃ after, save folder path (.index index) = (after, none) ∧
      load after path extract = .ok (index.restored extract none) ∧
      ∀ place, place ≠ path.place → (∀ temporary ∈ path.temporary?, place ≠ temporary.place) →
        after.text? place = folder.text? place := by
  obtain ⟨made, temporary, hmade, htemporary, hreplace⟩ := haccepts
  obtain ⟨text, htext, hread⟩ := Json.read?_write hstorable hlevels
  obtain ⟨after, houtcome⟩ : ∃ after, replace made path temporary text = (after, none) :=
    ⟨_, Prod.ext rfl (hreplace text)⟩
  obtain ⟨hafter, hothers⟩ := text?_replace htemporary houtcome
  refine ⟨after, ?_, ?_, fun place hpath hplace => ?_⟩
  · simp only [save, write, hmade, htemporary, htext, houtcome]
  · rw [load_eq_ofValue hafter hread]
    show (Index.ofValue index.toValue extract none).mapError _ = _
    rw [Index.ofValue_toValue hcanonical]
    rfl
  · rw [hothers place hpath (hplace temporary htemporary), Folder.text?_makeFolders hmade]

end SnapshotFile

namespace CommandLine

theorem readList_congr {folder after : Folder} {file : String}
    (h : after.text? (FilePath.ofText file).place = folder.text? (FilePath.ofText file).place) :
    readList after file = readList folder file := by
  unfold readList
  simp only [h]

/-- What is printed of the results of a search. -/
def SearchCommand.printed (c : SearchCommand) (results : List (ReportedHit Float)) :
    Except SearchError (List Printed) :=
  if c.json then (jsonLine (.list (results.map (resultValue c.highlight)))).map fun line => [line]
  else (resultTable results c.query c.highlight).map fun table => [table]

theorem SearchCommand.run_eq {c : SearchCommand} {folder : Folder} {records : List Value}
    {index : Option (Index Float)} (hrecords : readList folder c.records = .ok records)
    (hindex : (c.index.mapM fun file =>
      SnapshotFile.load folder (FilePath.ofText file) standardExtractor) = .ok index)
    (settings : Settings) :
    c.run settings folder = c.results settings records index >>= c.printed := by
  simp only [run, hrecords, hindex, bind, Except.bind]
  cases c.results settings records index with
  | error e => rfl
  | ok results =>
    simp only [printed]
    split_ifs
    · cases jsonLine (.list (results.map (resultValue c.highlight))) <;> rfl
    · cases resultTable results c.query c.highlight <;> rfl

/-- **A search through the snapshot of an index prints what the search itself prints**, whatever the
settings, the query and the other options are.  The two sizes are those of the integers of a snapshot:
positions are written only if they fit into a word, and numbers of keys are read only if they have few
digits.  The snapshot can be written, and is not written over the records. -/
theorem run_through {settings : Settings} {folder : Folder} {c : SearchCommand} {output : String}
    {records : List Value} (hrecords : readList folder c.records = .ok records)
    (hsize : Value.sizes records ≤ 2 ^ 64) (hlength : c.keys.length ≤ 10 ^ Decimal.longestInteger)
    (hkeys : ∀ key ∈ c.keys, KeyArgument key) (hindex : c.index = none)
    (haccepts : SnapshotFile.Accepts folder (FilePath.ofText output))
    (hplace : (FilePath.ofText c.records).place ≠ (FilePath.ofText output).place)
    (htemporary : ∀ temporary ∈ (FilePath.ofText output).temporary?,
      (FilePath.ofText c.records).place ≠ temporary.place) :
    ∃ after printed, runIndex c.records output c.keys folder = (after, .ok printed) ∧
      (c.through output).run settings after = c.run settings folder := by
  obtain ⟨index, hbuilt, hsimple, hkeysLength, hmeasured⟩ := exists_buildIndex records hkeys
  have hcanonical := Index.canonical_of_ofSpecs hbuilt (hkeysLength.trans_le hlength)
  have hstorable : Json.Storable 6 index.toValue := by
    refine Index.storable_toValue hsize (fun key hkey => ?_) (fun record hrecord => ?_)
      hcanonical
    · obtain ⟨name, weight, rfl, hpos, hfinite⟩ := hsimple key hkey
      refine ⟨⟨name, rfl⟩, ⟨name, rfl⟩, ?_⟩
      exact Bool.or_eq_false_iff.mpr ⟨(not_le_and_isNaN_of_pos hpos).2, hfinite⟩
    · obtain ⟨hle, hlt, hbody⟩ := hmeasured record hrecord
      exact ⟨hle, hlt.trans_le (Int.ofNat_le.mpr (Value.length_le_sizes records)), hbody⟩
  obtain ⟨after, hsave, hload, hothers⟩ :=
    SnapshotFile.load_save haccepts hstorable (by decide) hcanonical standardExtractor
  have hwritten : ∃ printed, runIndex c.records output c.keys folder = (after, .ok printed) := by
    unfold runIndex
    simp only [hrecords, bind, Except.bind, hbuilt, hsave]
    exact ⟨_, rfl⟩
  obtain ⟨printed, hprinted⟩ := hwritten
  refine ⟨after, printed, hprinted, ?_⟩
  have hread : readList after (c.through output).records = .ok records := by
    rw [← hrecords]
    exact readList_congr (hothers _ hplace htemporary)
  have hloaded : ((c.through output).index.mapM fun file =>
      SnapshotFile.load after (FilePath.ofText file) standardExtractor)
        = .ok (some (index.restored standardExtractor none)) := by
    show (some <$> SnapshotFile.load after (FilePath.ofText output) standardExtractor) = _
    rw [hload]
    rfl
  rw [SearchCommand.run_eq hread hloaded, SearchCommand.run_eq hrecords (by rw [hindex]; rfl),
    c.results_through settings hbuilt hsimple]
  rfl

/-- Two fruits, indexed for a key with a weight and for one that they do not have. -/
theorem run_through_fruits :
    let settings : Settings := ⟨0.6, 100, 0, 1, false, false, false, "info", false⟩
    let folder : Folder :=
      [("r.json", .file "[\x7b\"name\": \"fig\"\x7d, \x7b\"name\": \"kiwi\"\x7d]")]
    let c : SearchCommand :=
      ⟨"r.json", "fig", ["name:2", "kind"], false, false, none, 10, none, true, false⟩
    ∃ after printed, runIndex "r.json" "s.json" ["name:2", "kind"] folder = (after, .ok printed) ∧
      (c.through "s.json").run settings after = c.run settings folder := by
  intro settings folder c
  have hkeys : ∀ key ∈ c.keys, KeyArgument key := by
    intro key hkey
    rcases List.mem_cons.mp hkey with rfl | hkey
    · exact Or.inr ⟨"name", 2.0, rfl, by decide +kernel, by decide +kernel⟩
    · obtain rfl := List.mem_singleton.mp hkey
      exact Or.inl rfl
  have hrecords : readList folder "r.json"
      = .ok [.mapping [("name", .text "fig")], .mapping [("name", .text "kiwi")]] := by rfl
  have hdigits : 1 ≤ Decimal.longestInteger := by decide
  have hlength : 2 ≤ 10 ^ Decimal.longestInteger :=
    Nat.le_trans (by decide) (Nat.pow_le_pow_right (by decide) hdigits)
  have haccepts : SnapshotFile.Accepts folder (FilePath.ofText "s.json") :=
    ⟨_, _, rfl, rfl, fun _ => rfl⟩
  exact run_through (c := c) hrecords (by decide) hlength hkeys rfl haccepts (by decide) (by decide)

end CommandLine

end FuzzySearch
