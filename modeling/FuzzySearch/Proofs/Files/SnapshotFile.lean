import FuzzySearch.Proofs.Index.Layout

/-!
# Snapshot files that are no snapshots

An object in a snapshot file is reported as no snapshot, or an index is read from it, unless the
entries of some record are no mappings: then a missing operation is reported instead
(`SnapshotFile.load_mapping`).  The index can be searched if every record without entries holds a
text in the file (`Engine.hits_of_readable`), but a record that holds something else is not refused.
-/

namespace FuzzySearch

namespace SnapshotFile

open Index

variable {folder : Folder} {path : FilePath} {extract : Extractor} {text : String}
  {entries : List (String × Value)}

theorem load_eq_ofValue (htext : folder.text? path.place = some text)
    (hread : Json.read? text = some (.mapping entries)) :
    load folder path extract
      = (ofValue (.mapping entries) extract none).mapError (rejection path) := by
  unfold load
  rw [htext]
  simp only [hread]

/-- **What becomes of an object in a snapshot file.**  It is reported as no snapshot; or an operation
is missing, and some record has entries that are no mappings; or an index is read, in which every
record that is indexed as a text holds one exactly if each does in the file, and then no search fails
while texts are compared. -/
theorem load_mapping (htext : folder.text? path.place = some text)
    (hread : Json.read? text = some (.mapping entries)) :
    load folder path extract = .error (.snapshotInvalid path.text) ∨
      (load folder path extract = .error .unsupported ∧
        ∃ item ∈ recordItems entries, ¬item.HasFields) ∨
      ∃ index, load folder path extract = .ok index ∧
        (∀ item ∈ recordItems entries, item.HasFields) ∧
        ((∀ record ∈ index.records, record.body.Readable) ↔
          ∀ item ∈ recordItems entries, item.HasText) ∧
        ((∀ item ∈ recordItems entries, item.HasText) →
          ∀ engine : Engine Float, engine.index = index →
            (∀ pattern, ∃ hits, engine.hits (.text pattern) = .ok hits) ∧
              ∀ query e, engine.hits query = .error e →
                LogicalQuery.compile (fun _ => none : String → Option (Matcher Float)) query
                  = .error e) := by
  rw [load_eq_ofValue htext hread]
  have hdata : ∀ entry ∈ entries, Json.Datum entry.2 := by
    cases Json.datum_of_read? hread with
    | mapping hentries => exact hentries
  cases hindex : ofValue (.mapping entries) extract none with
  | error e =>
    rcases reportedUnless_ofValue hdata e hindex with hreported | ⟨rfl, hirregular⟩
    · exact Or.inl (congrArg Except.error (hreported path))
    · exact Or.inr (Or.inl ⟨rfl, hirregular⟩)
  | ok index =>
    obtain ⟨hfields, hreadable⟩ := hasFields_and_readable_iff hindex
    refine Or.inr (Or.inr ⟨index, rfl, hfields, hreadable, fun htexts engine hengine => ?_⟩)
    subst hengine
    exact Engine.hits_of_readable (hreadable.mpr htexts)

/-- A file with the text `"fig"`: the index holds it, and every text has hits. -/
theorem load_mapping_one_text :
    let folder : Folder :=
      [("s.json", .file "\x7b\"keys\": [], \"records\": [\x7b\"i\": 0, \"v\": \"fig\"\x7d]\x7d")]
    ∃ index, load folder (FilePath.ofText "s.json") standardExtractor = .ok index ∧
      (∀ record ∈ index.records, record.body.Readable) ∧
      ∀ engine : Engine Float, engine.index = index →
        ∀ pattern, ∃ hits, engine.hits (.text pattern) = .ok hits := by
  intro folder
  let record : Value := .mapping [("i", .int 0), ("v", .text "fig")]
  have hload : ∃ index, load folder (FilePath.ofText "s.json") standardExtractor = .ok index :=
    ⟨_, rfl⟩
  have htexts : ∀ item ∈ recordItems [("keys", .list []), ("records", .list [record])],
      item.HasText := by
    intro item hitem
    obtain rfl := List.mem_singleton.mp hitem
    intro entries heq _
    obtain rfl := Value.mapping.inj heq
    exact ⟨"fig", rfl⟩
  obtain ⟨index, hindex⟩ := hload
  rcases @load_mapping folder (FilePath.ofText "s.json") standardExtractor _
      [("keys", .list []), ("records", .list [record])] rfl rfl
    with hinvalid | ⟨hunsupported, -⟩ | ⟨index', hindex', -, hreadable, hhits⟩
  · cases hindex.symm.trans hinvalid
  · cases hindex.symm.trans hunsupported
  · obtain rfl := Except.ok.inj (hindex.symm.trans hindex')
    exact ⟨index, hindex, hreadable.mpr htexts, fun engine hengine => (hhits htexts engine hengine).1⟩

/-- A record of a number is not refused, and a search over it fails while texts are compared; a
record without fields is not reported as a fault of the snapshot. -/
theorem load_number_and_null :
    let path := FilePath.ofText "s.json"
    let number : Folder :=
      [("s.json", .file "\x7b\"keys\": [], \"records\": [\x7b\"i\": 0, \"v\": 5\x7d]\x7d")]
    let null : Folder :=
      [("s.json", .file "\x7b\"keys\": [], \"records\": [\x7b\"i\": 0, \"$\": null\x7d]\x7d")]
    let options : EngineOptions Float :=
      { MatchOptions.standard with
        keys := [], includeScore := false, shouldSort := false, order := Hit.before,
        extract := standardExtractor, normalize := none, ignoreFieldNorm := false }
    (∃ index engine,
      load number path standardExtractor = .ok index ∧
        index.records = [⟨0, .text (.int 5) 1.0⟩] ∧
        Engine.build (.list [.text "kiwi"]) options (.index index) MatcherFactory.standard
          = .ok engine ∧
        engine.hits (.text "kiwi") = .error .unsupported) ∧
      load null path standardExtractor = .error .unsupported :=
  ⟨⟨_, _, rfl, rfl, rfl, rfl⟩, rfl⟩

end SnapshotFile

end FuzzySearch
