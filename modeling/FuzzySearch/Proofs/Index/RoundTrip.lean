import FuzzySearch.Index.Snapshot
import FuzzySearch.Proofs.Decimal.RoundTrip
import FuzzySearch.Proofs.Key

/-!
# Snapshots read back

Reading the snapshot of an index gives the index again, without its collection and with the
functions it is read with (`Index.restored`).  This needs an index to be `Canonical`: keys can be
looked up by what they are called, and the entries of a record have distinct numbers, which are not
too long to be read.

Every index that was read is canonical (`Index.canonical_of_ofPayload`), and so is every index that
was made of documents and then added to and removed from (`Index.Grown.canonical`).

A key that is called by nothing, such as the empty text, is read back as called by its path.  So the
snapshot is the same again exactly if every key is `Named` (`Index.toValue_restored_iff`).  A key is
named unless it was made with no name of its own (`Key.named_iff_of_ofSpec`).
-/

namespace FuzzySearch

/-! ### Canonical indexes -/

/-- What stands in a snapshot for a value: a list for a tuple. -/
def Value.untupled : Value → Value
  | .tuple items => .list items
  | v => v

theorem Value.untupled_untupled (v : Value) : v.untupled.untupled = v.untupled := by
  cases v <;> rfl

namespace Key

/-- A key that is called by something, or else by its path. -/
def Named (key : Key Float) : Prop :=
  key.id.truth = true ∨ key.id = .text (".".intercalate key.path)

/-- What a key is called when it is read back. -/
def restoredId (key : Key Float) : Value :=
  if key.id.truth then key.id else .text (".".intercalate key.path)

theorem restoredId_eq_iff (key : Key Float) : key.restoredId = key.id ↔ key.Named := by
  unfold restoredId Named
  split_ifs with htruth
  · exact iff_of_true rfl (.inl htruth)
  · rw [or_iff_right htruth, eq_comm]

/-- A key as it is read back. -/
def restored (key : Key Float) : Key Float :=
  { key with id := key.restoredId, source := key.source.untupled }

end Key

namespace Index

/-- An index that is read back from its snapshot. -/
structure Canonical (index : Index Float) : Prop where
  ids : ∀ key ∈ index.keys, key.id.isHashable = true
  records : ∀ record ∈ index.records, record.body.Canonical

/-- An index as it is read back. -/
def restored (index : Index Float) (extract : Extractor) (normalize : Option (String → String)) :
    Index Float where
  keys := index.keys.map Key.restored
  records := index.records
  sources := .list []
  created := true
  extract := extract
  normalize := normalize

end Index

/-! ### Reading what was written -/

theorem Key.toValue_eq (key : Key Float) :
    key.toValue = .mapping
      [("path", .list (key.path.map .text)), ("id", key.id), ("weight", .float key.weight),
        ("src", key.source.untupled)] := by
  obtain ⟨path, id, weight, source⟩ := key
  cases source <;> rfl

theorem Key.segmentNames_texts (path : List String) :
    segmentNames (.list (path.map .text)) = .ok path := by
  show Except.ok ((path.map Value.text).map Value.plain) = _
  rw [List.map_map]
  exact congrArg Except.ok (List.map_id path)

/-- **A key is read back**, called by its path if it was called by nothing. -/
theorem Key.ofItem_toValue (key : Key Float) :
    ofItem (.described key.toValue) = .ok key.restored := by
  rw [Key.toValue_eq]
  show (do
    let path ← segmentNames (.list (key.path.map .text))
    Except.ok (⟨path, if key.id.truth then key.id else .text (".".intercalate path), key.weight,
      key.source.untupled⟩ : Key Float) : Except SearchError (Key Float)) = _
  rw [segmentNames_texts]
  rfl

theorem Key.isHashable_restoredId {key : Key Float} (h : key.id.isHashable = true) :
    key.restoredId.isHashable = true := by
  unfold restoredId
  split_ifs
  · exact h
  · rfl

theorem IndexedText.ofValue_toValue (entry : IndexedText Float) :
    ofValue entry.toValue = .ok entry := by
  obtain ⟨text, norm, nested⟩ := entry
  cases nested <;> rfl

theorem IndexedField.ofValue_toValue (entry : IndexedField Float) :
    ofValue entry.toValue = .ok entry := by
  cases entry with
  | single entry =>
    -- an indexed text is written as a mapping, which no list of them is
    show (do
      let entry ← IndexedText.ofValue entry.toValue
      Except.ok (IndexedField.single entry) : Except SearchError (IndexedField Float)) = _
    rw [IndexedText.ofValue_toValue]
    rfl
  | many entries =>
    show (do
      let entries ← (entries.map IndexedText.toValue).mapM IndexedText.ofValue
      Except.ok (IndexedField.many entries) : Except SearchError (IndexedField Float)) = _
    have hentries : (entries.map IndexedText.toValue).mapM IndexedText.ofValue = .ok entries := by
      rw [mapM_eq_ok_iff, List.forall₂_map_left_iff, List.forall₂_same]
      exact fun entry _ => IndexedText.ofValue_toValue entry
    rw [hentries]
    rfl

/-- An entry with a new number comes at the end. -/
theorem insertField_of_notMem {number : Int} (entry : IndexedField Float)
    {fields : List (Int × IndexedField Float)} (h : number ∉ fields.map (·.1)) :
    insertField number entry fields = fields ++ [(number, entry)] := by
  induction fields with
  | nil => rfl
  | cons field fields ih =>
    obtain ⟨n, e⟩ := field
    rw [List.map_cons, List.mem_cons, not_or] at h
    rw [insertField, if_neg (Ne.symm h.1), ih h.2]
    rfl

theorem toInt_intText {n : Int} (h : n.natAbs < 10 ^ Decimal.longestInteger) :
    (Value.text (Decimal.intText n)).toInt = .ok n := by
  rw [Value.toInt, Decimal.readInt?_intText h]

theorem fieldsOfEntries_map {fields rest : List (Int × IndexedField Float)}
    (hnodup : ((fields ++ rest).map (·.1)).Nodup)
    (hread : ∀ entry ∈ rest, (Value.text (Decimal.intText entry.1)).toInt = .ok entry.1) :
    fieldsOfEntries fields (rest.map fun (number, entry) =>
      (Decimal.intText number, entry.toValue)) = .ok (fields ++ rest) := by
  induction rest generalizing fields with
  | nil => rw [List.append_nil]; rfl
  | cons entry rest ih =>
    obtain ⟨number, entry⟩ := entry
    have hnew : number ∉ fields.map (·.1) := by
      rw [List.map_append, List.map_cons] at hnodup
      exact fun hmem => (List.nodup_append.mp hnodup).2.2 _ hmem _ List.mem_cons_self rfl
    have hnext : fields ++ (number, entry) :: rest = (fields ++ [(number, entry)]) ++ rest := by
      rw [List.append_assoc]
      rfl
    rw [List.map_cons, fieldsOfEntries, IndexedField.ofValue_toValue,
      hread _ List.mem_cons_self, hnext]
    show fieldsOfEntries (insertField number entry fields) _ = _
    rw [insertField_of_notMem entry hnew]
    exact ih (hnext ▸ hnodup) fun other hother => hread other (List.mem_cons_of_mem _ hother)

theorem Record.ofValue_toValue {record : Record Float} (h : record.body.Canonical) :
    ofValue record.toValue = .ok record := by
  obtain ⟨position, body⟩ := record
  cases body with
  | text v norm => rfl
  | fields entries =>
    show (do
      let fields ← fieldsOfEntries [] (entries.map fun (number, entry) =>
        (Decimal.intText number, entry.toValue))
      Except.ok (⟨position, .fields fields⟩ : Record Float) : Except SearchError (Record Float)) = _
    rw [@fieldsOfEntries_map [] entries h.1 h.2]
    rfl

namespace Index

variable {index : Index Float} {extract extract' : Extractor}
  {normalize normalize' : Option (String → String)}

/-- **What an index is that was read from a payload.** -/
theorem ofPayload_eq_ok_iff {payload : Payload} :
    ofPayload payload extract normalize = .ok index ↔
      ∃ keySpecs keys recordSpecs records,
        payload.keys.elements .described = .ok keySpecs ∧ keySpecs.mapM Key.ofItem = .ok keys ∧
        payload.records.elements .described = .ok recordSpecs ∧
        recordSpecs.mapM Record.ofSpec = .ok records ∧
        (keys.all fun key => key.id.isHashable) = true ∧
        ⟨keys, records, .list [], true, extract, normalize⟩ = index := by
  unfold ofPayload
  simp only [bind_eq_ok_iff]
  refine exists_congr fun keySpecs => ⟨?_, ?_⟩
  · rintro ⟨hkeySpecs, keys, hkeys, recordSpecs, hrecordSpecs, records, hrecords, h⟩
    split_ifs at h with hids
    exact ⟨keys, recordSpecs, records, hkeySpecs, hkeys, hrecordSpecs, hrecords, hids,
      pure_eq_ok_iff.mp h⟩
  · rintro ⟨keys, recordSpecs, records, hkeySpecs, hkeys, hrecordSpecs, hrecords, hids, h⟩
    refine ⟨hkeySpecs, keys, hkeys, recordSpecs, hrecordSpecs, records, hrecords, ?_⟩
    rw [if_pos hids]
    exact pure_eq_ok_iff.mpr h

/-- **A canonical index is read back from its snapshot.** -/
theorem ofValue_toValue (h : index.Canonical) (extract : Extractor)
    (normalize : Option (String → String)) :
    ofValue index.toValue extract normalize = .ok (index.restored extract normalize) := by
  show ofPayload ⟨.value (.list (index.keys.map Key.toValue)),
    .value (.list (index.records.map Record.toValue))⟩ extract normalize = _
  rw [ofPayload_eq_ok_iff]
  refine ⟨_, index.keys.map Key.restored, _, index.records, rfl, ?_, rfl, ?_, ?_, rfl⟩
  · rw [mapM_eq_ok_iff, List.map_map, List.forall₂_map_left_iff, List.forall₂_map_right_iff,
      List.forall₂_same]
    exact fun key _ => key.ofItem_toValue
  · rw [mapM_eq_ok_iff, List.map_map, List.forall₂_map_left_iff, List.forall₂_same]
    exact fun record hrecord => Record.ofValue_toValue (h.records record hrecord)
  · rw [List.all_map, List.all_eq_true]
    exact fun key hkey => Key.isHashable_restoredId (h.ids key hkey)

theorem toValue_restored_key_iff (key : Key Float) :
    key.restored.toValue = key.toValue ↔ key.Named := by
  rw [Key.toValue_eq, Key.toValue_eq, Key.restored, Value.untupled_untupled,
    ← key.restoredId_eq_iff]
  constructor
  · intro h
    have hentries := Value.mapping.inj h
    exact (Prod.mk.inj (List.cons.inj (List.cons.inj hentries).2).1).2
  · intro h
    rw [h]

/-- **An index that is read back is written like the one it was read from** exactly if its keys are
named. -/
theorem toValue_restored_iff (index : Index Float) (extract : Extractor)
    (normalize : Option (String → String)) :
    (index.restored extract normalize).toValue = index.toValue ↔
      ∀ key ∈ index.keys, key.Named := by
  have hkeys : (index.restored extract normalize).toValue = index.toValue ↔
      (index.keys.map Key.restored).map Key.toValue = index.keys.map Key.toValue := by
    unfold toValue restored
    constructor
    · intro h
      exact Value.list.inj (Prod.mk.inj (List.cons.inj (Value.mapping.inj h)).1).2
    · intro h
      rw [h]
  rw [hkeys, List.map_map, List.map_inj_left]
  exact forall₂_congr fun key _ => toValue_restored_key_iff key

end Index

/-! ### What was read is canonical -/

namespace Key

theorem named_of_ofValue {v : Value} {key : Key Float} (h : ofValue v = .ok key) : key.Named := by
  obtain ⟨segments, -, h⟩ := bind_eq_ok_iff.mp h
  obtain ⟨path, -, h⟩ := bind_eq_ok_iff.mp h
  obtain ⟨entries, -, h⟩ := bind_eq_ok_iff.mp h
  obtain ⟨weight, -, h⟩ := bind_eq_ok_iff.mp h
  obtain rfl := pure_eq_ok_iff.mp h
  show (if _ then _ else _ : Value).truth = true ∨ (if _ then _ else _ : Value) = _
  split_ifs with htruth
  · exact Or.inl htruth
  · exact Or.inr rfl

/-- A key that is described is called by its path, the empty text being the path of no name. -/
theorem truth_or_eq_of_idOf {source : Value} {path : List String} {id : String}
    (hpath : pathOf source = .ok path) (hid : idOf source = .ok id) :
    (Value.text id).truth = true ∨ id = ".".intercalate path := by
  unfold pathOf at hpath
  split at hpath
  · rename_i s
    obtain rfl := Except.ok.inj hpath
    obtain rfl := Except.ok.inj hid
    by_cases hs : s = ""
    · rw [hs]
      exact Or.inr rfl
    · exact Or.inl (by simpa [Value.truth] using hs)
  · rename_i hne
    unfold idOf at hid
    split at hid
    · exact absurd rfl (hne _)
    · obtain ⟨names, hnames, hid⟩ := bind_eq_ok_iff.mp hid
      obtain rfl := Except.ok.inj (hpath.symm.trans hnames)
      exact Or.inr (pure_eq_ok_iff.mp hid).symm

theorem named_of_ofPath {source : Value} {weight : Except SearchError Float}
    {key : Key Float} (h : ofPath source weight = .ok key) : key.Named := by
  obtain ⟨path, hpath, h⟩ := bind_eq_ok_iff.mp h
  obtain ⟨id, hid, h⟩ := bind_eq_ok_iff.mp h
  obtain ⟨weight, -, h⟩ := bind_eq_ok_iff.mp h
  obtain rfl := pure_eq_ok_iff.mp h
  exact (truth_or_eq_of_idOf hpath hid).imp_right (congrArg Value.text)

theorem named_of_ofDescription {v : Value} {key : Key Float} (h : ofDescription v = .ok key) :
    key.Named := by
  unfold ofDescription at h
  split at h
  iterate 3 exact named_of_ofPath h
  · split at h
    · cases h
    · split at h
      · cases h
      · exact named_of_ofPath h
  · cases h

end Key

/-- A specification whose key is called by something, or else by its path. -/
def KeySpec.Named : KeySpec Float → Prop
  | .described _ => True
  | .made path id _ _ => id ≠ "" ∨ ".".intercalate path = ""

namespace Key

theorem named_iff_of_ofSpec {spec : KeySpec Float} {key : Key Float} (h : ofSpec spec = .ok key) :
    key.Named ↔ spec.Named := by
  cases spec with
  | described v => exact iff_of_true (named_of_ofDescription h) trivial
  | made path id weight source =>
    obtain rfl := Except.ok.inj h
    show (Value.text id).truth = true ∨ Value.text id = .text (".".intercalate path) ↔
      id ≠ "" ∨ ".".intercalate path = ""
    by_cases hid : id = ""
    · subst hid
      rw [or_iff_right (by decide), or_iff_right (by simp), Value.text.injEq, eq_comm]
    · exact iff_of_true (.inl (by simpa [Value.truth] using hid)) (.inl hid)

/-- A key that stands in a snapshot is named, unless it was made with no name of its own. -/
theorem named_iff_of_ofItem {spec : KeySpec Float} {key : Key Float} (h : ofItem spec = .ok key) :
    key.Named ↔ spec.Named := by
  unfold ofItem at h
  split at h
  · split_ifs at h
    · exact iff_of_true (named_of_ofValue h) trivial
    · exact iff_of_true (named_of_ofDescription h) trivial
  · exact named_iff_of_ofSpec h

theorem isHashable_of_ofSpec {spec : KeySpec Float} {key : Key Float} (h : ofSpec spec = .ok key) :
    key.id.isHashable = true := by
  obtain ⟨name, hname⟩ := id_of_ofSpec h
  rw [hname]
  rfl

end Key

theorem forall_named_iff {specs : List (KeySpec Float)} {keys : List (Key Float)}
    (h : List.Forall₂ (fun spec key => key.Named ↔ spec.Named) specs keys) :
    (∀ key ∈ keys, key.Named) ↔ ∀ spec ∈ specs, spec.Named := by
  induction h with
  | nil => exact iff_of_true (List.forall_mem_nil _) (List.forall_mem_nil _)
  | cons hnamed _ ih => rw [List.forall_mem_cons, List.forall_mem_cons, hnamed, ih]

/-- What is read from any text is read from its own text. -/
theorem toInt_intText_of_toInt {s : String} {n : Int} (h : (Value.text s).toInt = .ok n) :
    (Value.text (Decimal.intText n)).toInt = .ok n := by
  rw [Value.toInt] at h
  split at h
  · rename_i m hm
    obtain rfl := Except.ok.inj h
    exact toInt_intText (Decimal.natAbs_lt_of_readInt? hm)
  · cases h

theorem mem_insertField {number : Int} {entry : IndexedField Float}
    {fields : List (Int × IndexedField Float)} {n : Int}
    (h : n ∈ (insertField number entry fields).map (·.1)) : n = number ∨ n ∈ fields.map (·.1) := by
  induction fields with
  | nil => simpa [insertField] using h
  | cons field fields ih =>
    obtain ⟨m, e⟩ := field
    rw [insertField] at h
    split_ifs at h
    · exact Or.inr h
    · rw [List.map_cons, List.mem_cons] at h ⊢
      rcases h with h | h
      · exact Or.inr (Or.inl h)
      · exact (ih h).imp id Or.inr

theorem nodup_insertField (number : Int) (entry : IndexedField Float)
    {fields : List (Int × IndexedField Float)} (h : (fields.map (·.1)).Nodup) :
    ((insertField number entry fields).map (·.1)).Nodup := by
  induction fields with
  | nil => exact List.pairwise_singleton _ number
  | cons field fields ih =>
    obtain ⟨n, e⟩ := field
    rw [insertField]
    split_ifs with heq
    · exact h
    · rw [List.map_cons, List.nodup_cons] at h ⊢
      refine ⟨fun hmem => ?_, ih h.2⟩
      rcases mem_insertField hmem with hn | hn
      · exact heq hn
      · exact h.1 hn

/-- Reading entries keeps the numbers distinct and readable. -/
theorem canonical_of_fieldsOfEntries {named : List (String × Value)}
    {fields fields' : List (Int × IndexedField Float)}
    (hfields : (RecordBody.fields fields).Canonical)
    (h : fieldsOfEntries fields named = .ok fields') :
    (RecordBody.fields fields').Canonical := by
  induction named generalizing fields with
  | nil =>
    obtain rfl := Except.ok.inj h
    exact hfields
  | cons entry named ih =>
    obtain ⟨name, v⟩ := entry
    obtain ⟨entry, -, h⟩ := bind_eq_ok_iff.mp h
    obtain ⟨number, hnumber, h⟩ := bind_eq_ok_iff.mp h
    refine ih ⟨nodup_insertField number entry hfields.1, ?_⟩ h
    intro other hother
    rcases mem_insertField (List.mem_map_of_mem hother) with hn | hn
    · rw [hn]
      exact toInt_intText_of_toInt hnumber
    · obtain ⟨before, hbefore, hn⟩ := List.mem_map.mp hn
      rw [← hn]
      exact hfields.2 before hbefore

theorem Record.canonical_of_ofValue {v : Value} {record : Record Float}
    (h : ofValue v = .ok record) : record.body.Canonical := by
  obtain ⟨position, -, h⟩ := bind_eq_ok_iff.mp h
  obtain ⟨position, -, h⟩ := bind_eq_ok_iff.mp h
  obtain ⟨entries, -, h⟩ := bind_eq_ok_iff.mp h
  split at h
  · obtain ⟨norm, -, h⟩ := bind_eq_ok_iff.mp h
    obtain rfl := pure_eq_ok_iff.mp h
    trivial
  · obtain ⟨named, -, h⟩ := bind_eq_ok_iff.mp h
    obtain ⟨fields, hfields, h⟩ := bind_eq_ok_iff.mp h
    obtain rfl := pure_eq_ok_iff.mp h
    exact @canonical_of_fieldsOfEntries named [] fields ⟨List.nodup_nil, List.forall_mem_nil _⟩ hfields

theorem Record.canonical_of_ofSpec {spec : RecordSpec} {record : Record Float}
    (h : ofSpec spec = .ok record) : record.body.Canonical := by
  cases spec with
  | described v => exact canonical_of_ofValue h
  | made made hcanonical =>
    obtain rfl := Except.ok.inj h
    exact hcanonical

/-- The keys that stand in a payload are named, unless one was made with no name of its own. -/
def Payload.Named (payload : Payload) : Prop :=
  ∀ specs, payload.keys.elements .described = .ok specs → ∀ spec ∈ specs, spec.Named

/-- A value only describes keys. -/
theorem Payload.named_of_ofValue? {v : Value} {payload : Payload}
    (h : ofValue? v = some payload) : payload.Named := by
  unfold ofValue? at h
  split at h
  · split at h
    · obtain rfl := Option.some.inj h
      intro specs hspecs spec hspec
      obtain ⟨items, -, rfl⟩ := map_eq_ok_iff.mp hspecs
      obtain ⟨item, -, rfl⟩ := List.mem_map.mp hspec
      trivial
    · cases h
  · cases h

namespace Index

variable {payload : Payload} {extract : Extractor} {normalize : Option (String → String)}
  {index : Index Float}

/-- **An index that was read is canonical.** -/
theorem canonical_of_ofPayload (h : ofPayload payload extract normalize = .ok index) :
    index.Canonical := by
  obtain ⟨keySpecs, keys, recordSpecs, records, -, -, -, hrecords, hids, rfl⟩ :=
    ofPayload_eq_ok_iff.mp h
  refine ⟨List.all_eq_true.mp hids, fun record hrecord => ?_⟩
  obtain ⟨spec, -, hspec⟩ := exists_of_mem_mapM hrecords hrecord
  exact Record.canonical_of_ofSpec hspec

theorem named_iff_of_ofPayload (h : ofPayload payload extract normalize = .ok index) :
    (∀ key ∈ index.keys, key.Named) ↔ payload.Named := by
  obtain ⟨keySpecs, keys, recordSpecs, records, hspecs, hkeys, -, -, -, rfl⟩ :=
    ofPayload_eq_ok_iff.mp h
  have hall := (mapM_eq_ok_iff.mp hkeys).imp fun _ _ => Key.named_iff_of_ofItem
  refine (forall_named_iff hall).trans ⟨fun hnamed specs hlisted => ?_, fun hnamed => ?_⟩
  · obtain rfl := Except.ok.inj (hspecs.symm.trans hlisted)
    exact hnamed
  · exact hnamed keySpecs hspecs

/-- Whatever describes an index is a payload. -/
theorem exists_ofPayload_of_ofValue {v : Value} (h : ofValue v extract normalize = .ok index) :
    ∃ payload, Payload.ofValue? v = some payload ∧
      ofPayload payload extract normalize = .ok index := by
  unfold ofValue at h
  split at h
  · rename_i payload hpayload
    exact ⟨payload, hpayload, h⟩
  · cases h

end Index

end FuzzySearch
