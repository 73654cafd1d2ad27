import FuzzySearch.Files.SnapshotFile
import FuzzySearch.Proofs.Engine.Matches
import FuzzySearch.Proofs.Index.RoundTrip
import FuzzySearch.Proofs.Json.Datum

/-!
# The layout of a snapshot

An index can be read from a value of JSON if its keys and records can, and what is wrong otherwise is
nearly always reported as a fault of the snapshot (`Index.reportedUnless_ofValue`).  Two parts of the
layout are taken on trust.  A value under `"$"` is not asked whether it is made of mappings
(`Value.HasFields`), so another fault escapes if it is not; and a value under `"v"` is not asked
whether it is a text (`Value.HasText`), so a record of the index need not hold one
(`Record.hasFields_and_readable_iff`).
-/

namespace FuzzySearch

/-! ### Failures that are reported -/

/-- A failure that is reported as a fault of a snapshot, wherever the snapshot lies. -/
def SearchError.Reported (e : SearchError) : Prop :=
  ∀ path : FilePath, SnapshotFile.rejection path e = .snapshotInvalid path.text

/-- A call that fails only in ways that are reported, unless the input is irregular: then an
operation may be missing. -/
def ReportedUnless {β : Type} (irregular : Prop) (x : Except SearchError β) : Prop :=
  ∀ e, x = .error e → e.Reported ∨ e = .unsupported ∧ irregular

section

variable {β γ : Type} {p q : Prop} {x : Except SearchError β}

theorem reportedUnless_ok (y : β) : ReportedUnless p (.ok y) := by
  intro e h
  cases h

theorem reportedUnless_error {e : SearchError} (h : e.Reported) :
    ReportedUnless p (.error e : Except SearchError β) := by
  intro e' heq
  obtain rfl := Except.error.inj heq
  exact Or.inl h

theorem ReportedUnless.mono (h : ReportedUnless p x) (hpq : p → q) : ReportedUnless q x :=
  fun e he => (h e he).imp_right (And.imp_right hpq)

theorem ReportedUnless.of_regular (h : ReportedUnless False x) : ReportedUnless p x :=
  h.mono False.elim

theorem ReportedUnless.bind (hx : ReportedUnless p x) {f : β → Except SearchError γ}
    (hf : ∀ y, x = .ok y → ReportedUnless p (f y)) : ReportedUnless p (x >>= f) := by
  intro e he
  rcases bind_eq_error_iff.mp he with he | ⟨y, hy, he⟩
  · exact hx e he
  · exact hf y hy e he

theorem ReportedUnless.map (hx : ReportedUnless p x) (f : β → γ) : ReportedUnless p (x.map f) := by
  intro e he
  cases x with
  | error e' => exact hx e ((Except.error.inj he) ▸ rfl)
  | ok y => cases he

theorem ReportedUnless.mapM {f : γ → Except SearchError β} {xs : List γ}
    (h : ∀ z ∈ xs, ReportedUnless p (f z)) : ReportedUnless p (xs.mapM f) := by
  intro e he
  obtain ⟨z, hz, he⟩ := exists_of_mapM_eq_error he
  exact h z hz e he

end

/-! ### Numbers -/

namespace Value

open Json

theorem isInf_nearestInt_of_machine {n : Int} (h : isMachineInteger n = true) :
    (Decimal.nearestInt n).isInf = false := by
  unfold isMachineInteger at h
  simp only [Bool.and_eq_true, decide_eq_true_eq, Nat.shiftLeft_eq] at h
  exact Decimal.isInf_nearestInt (by omega)

theorem reportedUnless_floatOfInt {n : Int} (h : isMachineInteger n = true) :
    ReportedUnless False (floatOfInt n) := by
  unfold floatOfInt
  simp only [isInf_nearestInt_of_machine h]
  exact reportedUnless_ok _

/-- A value of JSON fails to be an integer only in ways that are reported: it is not infinite. -/
theorem reportedUnless_toInt {v : Value} (h : Datum v) : ReportedUnless False v.toInt := by
  cases h with
  | null => exact reportedUnless_error fun _ => rfl
  | bool b => exact reportedUnless_ok _
  | int hn => exact reportedUnless_ok _
  | @float x hx =>
    rw [toInt]
    split
    · exact reportedUnless_ok _
    · rename_i hdecode
      have hnan : x.isNaN = true := by
        rcases Decimal.isNaN_or_isInf_of_decode? hdecode with hnan | hinf
        · exact hnan
        · cases hx.symm.trans hinf
      rw [if_pos hnan]
      exact reportedUnless_error fun _ => rfl
  | text s =>
    rw [toInt]
    split
    · exact reportedUnless_ok _
    · exact reportedUnless_error fun _ => rfl
  | list hitems => exact reportedUnless_error fun _ => rfl
  | mapping hentries => exact reportedUnless_error fun _ => rfl

theorem reportedUnless_toFloat {v : Value} (h : Datum v) : ReportedUnless False v.toFloat := by
  cases h with
  | null => exact reportedUnless_error fun _ => rfl
  | bool b => exact reportedUnless_ok _
  | int hn => exact reportedUnless_floatOfInt hn
  | float hx => exact reportedUnless_ok _
  | text s =>
    rw [toFloat]
    split
    · exact reportedUnless_ok _
    · exact reportedUnless_error fun _ => rfl
  | list hitems => exact reportedUnless_error fun _ => rfl
  | mapping hentries => exact reportedUnless_error fun _ => rfl

/-! ### Parts -/

theorem reportedUnless_elements (v : Value) : ReportedUnless False v.elements := by
  unfold elements
  split
  all_goals first
    | exact reportedUnless_ok _
    | exact reportedUnless_error fun _ => rfl

theorem reportedUnless_required (v : Value) (name : String) :
    ReportedUnless False (v.required name) := by
  unfold required
  split
  · cases lookup? name _ with
    | some w => exact reportedUnless_ok _
    | none => exact reportedUnless_error fun _ => rfl
  · exact reportedUnless_error fun _ => rfl

/-- A value that is a mapping. -/
def IsMapping : Value → Prop
  | .mapping _ => True
  | _ => False

theorem exists_entries_of_required {v w : Value} {name : String} (h : v.required name = .ok w) :
    ∃ entries, v = .mapping entries ∧ lookup? name entries = some w := by
  unfold required at h
  split at h
  · rename_i entries
    cases hlookup : lookup? name entries with
    | none =>
      rw [hlookup] at h
      cases h
    | some w' =>
      rw [hlookup] at h
      obtain rfl := Except.ok.inj h
      exact ⟨entries, rfl, hlookup⟩
  · cases h

theorem datum_of_required {v w : Value} (hv : Datum v) {name : String}
    (h : v.required name = .ok w) : Datum w := by
  obtain ⟨entries, rfl, hlookup⟩ := exists_entries_of_required h
  cases hv with
  | mapping hentries => exact Datum.of_lookup? hentries hlookup

/-- What stands under a name, or what is taken if nothing does. -/
theorem datum_getD_lookup? {entries : List (String × Value)}
    (h : ∀ entry ∈ entries, Datum entry.2) (name : String) {w : Value} (hw : Datum w) :
    Datum ((lookup? name entries).getD w) := by
  cases hlookup : lookup? name entries with
  | none => exact hw
  | some v => exact Datum.of_lookup? h hlookup

theorem datum_of_elements {v : Value} (hv : Datum v) {items : List Value}
    (h : v.elements = .ok items) : ∀ item ∈ items, Datum item := by
  cases hv with
  | text s =>
    obtain rfl := Except.ok.inj h
    intro item hitem
    obtain ⟨c, -, rfl⟩ := List.mem_map.mp hitem
    exact .text _
  | list hitems =>
    obtain rfl := Except.ok.inj h
    exact hitems
  | mapping hentries =>
    obtain rfl := Except.ok.inj h
    intro item hitem
    obtain ⟨entry, -, rfl⟩ := List.mem_map.mp hitem
    exact .text _
  | null => cases h
  | bool b => cases h
  | int hn => cases h
  | float hx => cases h

end Value

/-! ### Keys -/

section

open Json Value

theorem Key.reportedUnless_segmentNames (v : Value) :
    ReportedUnless False (Key.segmentNames v) :=
  (reportedUnless_elements v).bind fun _ _ => reportedUnless_ok _

theorem Key.reportedUnless_ofValue {v : Value} (hv : Datum v) :
    ReportedUnless False (Key.ofValue v) := by
  refine (reportedUnless_required v "path").bind fun segments hsegments => ?_
  obtain ⟨entries, rfl, -⟩ := exists_entries_of_required hsegments
  cases hv with
  | mapping hentries =>
    refine (reportedUnless_segmentNames segments).bind fun path _ => ?_
    have hweight : Datum ((lookup? "weight" entries).getD (.float 1.0)) :=
      datum_getD_lookup? hentries "weight" (.float (by decide +kernel))
    exact (reportedUnless_toFloat hweight).bind fun _ _ => reportedUnless_ok _

theorem Key.reportedUnless_ofPath (source : Value) {weight : Except SearchError Float}
    (hweight : ReportedUnless False weight) : ReportedUnless False (Key.ofPath source weight) := by
  have hpath : ReportedUnless False (Key.pathOf source) := by
    unfold Key.pathOf
    split
    · exact reportedUnless_ok _
    · exact reportedUnless_segmentNames _
  have hid : ReportedUnless False (Key.idOf source) := by
    unfold Key.idOf
    split
    · exact reportedUnless_ok _
    · exact (reportedUnless_segmentNames _).bind fun _ _ => reportedUnless_ok _
  exact hpath.bind fun _ _ => hid.bind fun _ _ => hweight.bind fun _ _ => reportedUnless_ok _

theorem Key.reportedUnless_weight? {v : Value} (hv : Datum v)
    {weight : Except SearchError Float} (h : Key.weight? v = some weight) :
    ReportedUnless False weight := by
  unfold Key.weight? at h
  split at h
  · rename_i n
    split_ifs at h
    obtain rfl := Option.some.inj h
    cases hv with
    | int hn =>
      have hsmall : ScoreNumber.ofInt? n = some (Decimal.nearestInt n) :=
        if_neg (by rw [isInf_nearestInt_of_machine hn]; exact Bool.false_ne_true)
      rw [hsmall]
      exact reportedUnless_ok _
  · split_ifs at h
    obtain rfl := Option.some.inj h
    exact reportedUnless_ok _
  · cases h

theorem Key.reportedUnless_ofDescription {v : Value} (hv : Datum v) :
    ReportedUnless False (Key.ofDescription v : Except SearchError (Key Float)) := by
  unfold Key.ofDescription
  split
  iterate 3 exact reportedUnless_ofPath _ (reportedUnless_ok _)
  · split
    · exact reportedUnless_error fun _ => rfl
    · split
      · exact reportedUnless_error fun _ => rfl
      · rename_i entries _ name _ _ weight hweight
        cases hv with
        | mapping hentries =>
          have hdatum : Datum ((lookup? "weight" entries).getD (.int 1)) :=
            datum_getD_lookup? hentries "weight" (.int (by decide))
          exact reportedUnless_ofPath name (reportedUnless_weight? hdatum hweight)
  · exact reportedUnless_error fun _ => rfl

/-- **What is wrong with a key is reported.** -/
theorem Key.reportedUnless_ofItem {v : Value} (hv : Datum v) :
    ReportedUnless False (Key.ofItem (.described v)) := by
  unfold Key.ofItem
  split
  · rename_i heq
    obtain rfl := KeySpec.described.inj heq
    split_ifs
    · exact reportedUnless_ofValue hv
    · exact reportedUnless_ofDescription hv
  · exact reportedUnless_ofDescription hv

end

/-! ### Records -/

namespace Value

/-- An entry of a record: a mapping or a list of them. -/
def IsEntry : Value → Prop
  | .list items => ∀ item ∈ items, item.IsMapping
  | v => v.IsMapping

/-- The entries of a record under the numbers of their keys. -/
def AreEntries : Value → Prop
  | .mapping named => ∀ entry ∈ named, entry.2.IsEntry
  | _ => False

/-- A value whose entries are laid out as such, if it has any. -/
def HasFields (v : Value) : Prop :=
  ∀ entries fields, v = .mapping entries → lookup? "$" entries = some fields → fields.AreEntries

/-- A value that has a text if it has no entries. -/
def HasText (v : Value) : Prop :=
  ∀ entries, v = .mapping entries → lookup? "$" entries = none →
    ∃ s, lookup? "v" entries = some (.text s)

theorem reportedUnless_entries (v : Value) : ReportedUnless (¬v.IsMapping) v.entries := by
  cases v with
  | mapping entries => exact reportedUnless_ok _
  | _ =>
    intro e he
    exact Or.inr ⟨(Except.error.inj he).symm, id⟩

end Value

section

open Json Value

theorem IndexedText.reportedUnless_ofValue {v : Value} (hv : Datum v) :
    ReportedUnless (¬v.IsMapping) (IndexedText.ofValue v) := by
  refine (reportedUnless_entries v).bind fun entries hentries => ?_
  refine (reportedUnless_required v "v").of_regular.bind fun text _ => ?_
  refine (reportedUnless_required v "n").of_regular.bind fun norm hnorm => ?_
  refine (reportedUnless_toFloat (datum_of_required hv hnorm)).of_regular.bind fun norm _ => ?_
  cases hv with
  | mapping hdata =>
    obtain rfl := Except.ok.inj hentries
    have hnested := datum_getD_lookup? hdata "i" .null
    split
    · exact reportedUnless_ok _
    · exact (reportedUnless_toInt hnested).of_regular.bind fun _ _ => reportedUnless_ok _
  | _ => cases hentries

theorem Value.isEntry_iff_of_ne_list {v : Value} (h : ∀ items, v ≠ .list items) :
    v.IsEntry ↔ v.IsMapping := by
  cases v with
  | list items => exact absurd rfl (h items)
  | _ => exact Iff.rfl

theorem IndexedField.reportedUnless_ofValue {v : Value} (hv : Datum v) :
    ReportedUnless (¬v.IsEntry) (IndexedField.ofValue v) := by
  unfold IndexedField.ofValue
  split
  · rename_i items
    cases hv with
    | list hitems =>
      refine ReportedUnless.bind (.mapM fun item hitem => ?_) fun _ _ => reportedUnless_ok _
      exact (IndexedText.reportedUnless_ofValue (hitems item hitem)).mono
        fun hirregular hentry => hirregular (hentry item hitem)
  · rename_i hne
    rw [isEntry_iff_of_ne_list hne]
    exact (IndexedText.reportedUnless_ofValue hv).bind fun _ _ => reportedUnless_ok _

theorem reportedUnless_fieldsOfEntries {named : List (String × Value)}
    (hnamed : ∀ entry ∈ named, Datum entry.2) (fields : List (Int × IndexedField Float)) :
    ReportedUnless (¬(Value.mapping named).AreEntries) (fieldsOfEntries fields named) := by
  induction named generalizing fields with
  | nil => exact reportedUnless_ok _
  | cons first rest ih =>
    obtain ⟨name, v⟩ := first
    rw [List.forall_mem_cons] at hnamed
    have hentry := (IndexedField.reportedUnless_ofValue hnamed.1).mono
      (q := ¬(Value.mapping ((name, v) :: rest)).AreEntries)
      fun hirregular h => hirregular (h (name, v) List.mem_cons_self)
    refine hentry.bind fun entry _ => ?_
    refine (reportedUnless_toInt (.text name)).of_regular.bind fun number _ => ?_
    exact (ih hnamed.2 _).mono fun hirregular h =>
      hirregular fun entry hentry => h entry (List.mem_cons_of_mem _ hentry)

/-- **What is wrong with a record is reported**, unless its entries are no mappings. -/
theorem Record.reportedUnless_ofValue {v : Value} (hv : Datum v) :
    ReportedUnless (¬v.HasFields) (Record.ofValue v) := by
  refine (reportedUnless_required v "i").of_regular.bind fun position hposition => ?_
  obtain ⟨entries, rfl, -⟩ := exists_entries_of_required hposition
  refine (reportedUnless_toInt (datum_of_required hv hposition)).of_regular.bind fun position _ => ?_
  refine (reportedUnless_ok entries).bind fun entries heq => ?_
  obtain rfl := Except.ok.inj heq
  cases hv with
  | mapping hentries =>
    split
    · have hnorm : Datum ((lookup? "n" entries).getD (.float 1.0)) :=
        datum_getD_lookup? hentries "n" (.float (by decide +kernel))
      exact (reportedUnless_toFloat hnorm).of_regular.bind fun _ _ => reportedUnless_ok _
    · rename_i fields hfields
      have hirregular : ¬fields.AreEntries → ¬(Value.mapping entries).HasFields :=
        fun h hregular => h (hregular entries fields rfl hfields)
      refine ReportedUnless.mono ?_ hirregular
      cases Datum.of_lookup? hentries hfields with
      | mapping hnamed =>
        exact (reportedUnless_fieldsOfEntries hnamed []).bind fun _ _ => reportedUnless_ok _
      | _ =>
        intro e he
        exact Or.inr ⟨(Except.error.inj he).symm, id⟩

end

/-! ### What was read -/

section

open Json Value

theorem IndexedText.isMapping_of_ofValue {v : Value} {entry : IndexedText Float}
    (h : IndexedText.ofValue v = .ok entry) : v.IsMapping := by
  obtain ⟨entries, hentries, -⟩ := bind_eq_ok_iff.mp h
  cases v with
  | mapping entries => trivial
  | _ => cases hentries

theorem IndexedField.isEntry_of_ofValue {v : Value} {entry : IndexedField Float}
    (h : IndexedField.ofValue v = .ok entry) : v.IsEntry := by
  unfold IndexedField.ofValue at h
  split at h
  · obtain ⟨entries, hentries, -⟩ := bind_eq_ok_iff.mp h
    intro item hitem
    obtain ⟨entry, -, hentry⟩ := exists_of_mem_forall₂ (mapM_eq_ok_iff.mp hentries).flip hitem
    exact IndexedText.isMapping_of_ofValue hentry
  · rename_i hne
    obtain ⟨entry, hentry, -⟩ := bind_eq_ok_iff.mp h
    exact (isEntry_iff_of_ne_list hne).mpr (IndexedText.isMapping_of_ofValue hentry)

theorem areEntries_of_fieldsOfEntries {named : List (String × Value)}
    {fields fields' : List (Int × IndexedField Float)}
    (h : fieldsOfEntries fields named = .ok fields') : (Value.mapping named).AreEntries := by
  induction named generalizing fields with
  | nil => exact List.forall_mem_nil _
  | cons first rest ih =>
    obtain ⟨name, v⟩ := first
    obtain ⟨entry, hentry, h⟩ := bind_eq_ok_iff.mp h
    obtain ⟨number, -, h⟩ := bind_eq_ok_iff.mp h
    exact List.forall_mem_cons.mpr ⟨IndexedField.isEntry_of_ofValue hentry, ih h⟩

/-- A record that was read has entries, or holds what stands under `"v"`. -/
theorem Record.hasFields_and_readable_iff {v : Value} {record : Record Float}
    (h : Record.ofValue v = .ok record) :
    v.HasFields ∧ (record.body.Readable ↔ v.HasText) := by
  obtain ⟨position, hposition, h⟩ := bind_eq_ok_iff.mp h
  obtain ⟨entries, rfl, -⟩ := exists_entries_of_required hposition
  obtain ⟨position, -, h⟩ := bind_eq_ok_iff.mp h
  obtain ⟨_, hentries, h⟩ := bind_eq_ok_iff.mp h
  obtain rfl := Except.ok.inj hentries
  split at h
  · rename_i hnone
    obtain ⟨norm, -, h⟩ := bind_eq_ok_iff.mp h
    obtain rfl := pure_eq_ok_iff.mp h
    refine ⟨fun entries' fields heq hfields => ?_, ?_⟩
    · obtain rfl := Value.mapping.inj heq
      cases hnone.symm.trans hfields
    · show (∃ s, (lookup? "v" entries).getD .null = .text s) ↔ _
      constructor
      · rintro ⟨s, hs⟩ entries' heq -
        obtain rfl := Value.mapping.inj heq
        cases hlookup : lookup? "v" entries with
        | none =>
          rw [hlookup] at hs
          cases hs
        | some w =>
          rw [hlookup] at hs
          exact ⟨s, congrArg some hs⟩
      · intro htext
        obtain ⟨s, hs⟩ := htext entries rfl hnone
        exact ⟨s, by rw [hs]; rfl⟩
  · rename_i fields hsome
    obtain ⟨named, hnamed, h⟩ := bind_eq_ok_iff.mp h
    obtain ⟨made, hmade, h⟩ := bind_eq_ok_iff.mp h
    obtain rfl := pure_eq_ok_iff.mp h
    refine ⟨fun entries' fields' heq hfields => ?_, iff_of_true trivial fun entries' heq hnone => ?_⟩
    · obtain rfl := Value.mapping.inj heq
      obtain rfl := Option.some.inj (hsome.symm.trans hfields)
      cases fields with
      | mapping named' =>
        obtain rfl := Except.ok.inj hnamed
        exact areEntries_of_fieldsOfEntries hmade
      | _ => cases hnamed
    · obtain rfl := Value.mapping.inj heq
      cases hnone.symm.trans hsome

end

/-! ### Indexes -/

namespace Index

open Json Value

/-- The values that are read as records: those under `"records"`. -/
def recordItems (entries : List (String × Value)) : List Value :=
  (((lookup? "records" entries).map Value.elements).bind Except.toOption).getD []

theorem recordItems_eq {entries : List (String × Value)} {records : Value} {items : List Value}
    (hrecords : lookup? "records" entries = some records) (hitems : records.elements = .ok items) :
    recordItems entries = items := by
  rw [recordItems, hrecords, Option.map_some, hitems]
  rfl

variable {entries : List (String × Value)} {extract : Extractor}
  {normalize : Option (String → String)}

/-- A mapping with keys and records is read as a payload. -/
theorem ofValue_mapping {keys records : Value} (hkeys : lookup? "keys" entries = some keys)
    (hrecords : lookup? "records" entries = some records) :
    ofValue (.mapping entries) extract normalize
      = ofPayload ⟨.value keys, .value records⟩ extract normalize := by
  rw [ofValue, Payload.ofValue?, hkeys, hrecords]

/-- Any other mapping is no index. -/
theorem ofValue_mapping_of_none
    (h : lookup? "keys" entries = none ∨ lookup? "records" entries = none) :
    ofValue (.mapping entries) extract normalize = .error .notAnIndex := by
  rw [ofValue, Payload.ofValue?]
  rcases h with h | h
  · rw [h]
  · rw [h]
    cases lookup? "keys" entries <;> rfl

/-- **What is wrong with a snapshot is reported**, unless the entries of a record are no mappings. -/
theorem reportedUnless_ofValue (hentries : ∀ entry ∈ entries, Datum entry.2) :
    ReportedUnless (∃ item ∈ recordItems entries, ¬item.HasFields)
      (ofValue (.mapping entries) extract normalize) := by
  cases hkeys : lookup? "keys" entries with
  | none => exact ofValue_mapping_of_none (.inl hkeys) ▸ reportedUnless_error fun _ => rfl
  | some keys =>
  cases hrecords : lookup? "records" entries with
  | none => exact ofValue_mapping_of_none (.inr hrecords) ▸ reportedUnless_error fun _ => rfl
  | some records =>
  have hkeysDatum := Datum.of_lookup? hentries hkeys
  have hrecordsDatum := Datum.of_lookup? hentries hrecords
  rw [ofValue_mapping hkeys hrecords]
  refine ((reportedUnless_elements keys).map _).of_regular.bind fun specs hspecs => ?_
  obtain ⟨items, hitems, rfl⟩ := map_eq_ok_iff.mp hspecs
  have hkeysRead : ReportedUnless False ((items.map KeySpec.described).mapM Key.ofItem) :=
    .mapM <| List.forall_mem_map.mpr fun item hitem =>
      Key.reportedUnless_ofItem (datum_of_elements hkeysDatum hitems item hitem)
  refine hkeysRead.of_regular.bind fun keys _ => ?_
  refine ((reportedUnless_elements records).map _).of_regular.bind fun specs hspecs => ?_
  obtain ⟨items, hitems, rfl⟩ := map_eq_ok_iff.mp hspecs
  refine ReportedUnless.bind (.mapM <| List.forall_mem_map.mpr fun item hitem => ?_) fun _ _ => ?_
  · refine (Record.reportedUnless_ofValue (datum_of_elements hrecordsDatum hitems item hitem)).mono
      fun hirregular => ?_
    exact ⟨item, recordItems_eq hrecords hitems ▸ hitem, hirregular⟩
  · split_ifs
    · exact reportedUnless_ok _
    · exact reportedUnless_error fun _ => rfl

/-- The records of a snapshot that was read are those that its items describe. -/
theorem forall₂_records_of_ofValue {index : Index Float}
    (h : ofValue (.mapping entries) extract normalize = .ok index) :
    List.Forall₂ (fun item record => Record.ofValue item = .ok record) (recordItems entries)
      index.records := by
  cases hkeys : lookup? "keys" entries with
  | none => cases (ofValue_mapping_of_none (.inl hkeys)).symm.trans h
  | some keys =>
  cases hrecords : lookup? "records" entries with
  | none => cases (ofValue_mapping_of_none (.inr hrecords)).symm.trans h
  | some records =>
  rw [ofValue_mapping hkeys hrecords] at h
  obtain ⟨_, _, specs, made, -, -, hspecs, hmade, -, rfl⟩ := ofPayload_eq_ok_iff.mp h
  obtain ⟨items, hitems, rfl⟩ := map_eq_ok_iff.mp hspecs
  rw [recordItems_eq hrecords hitems]
  exact List.forall₂_map_left_iff.mp (mapM_eq_ok_iff.mp hmade)

/-- **A snapshot that was read** has entries that are mappings, and its records hold texts exactly
if there are texts to be read. -/
theorem hasFields_and_readable_iff {index : Index Float}
    (h : ofValue (.mapping entries) extract normalize = .ok index) :
    (∀ item ∈ recordItems entries, item.HasFields) ∧
      ((∀ record ∈ index.records, record.body.Readable) ↔
        ∀ item ∈ recordItems entries, item.HasText) := by
  have hall := forall₂_records_of_ofValue h
  refine ⟨fun item hitem => ?_, fun hreadable item hitem => ?_, fun htext record hrecord => ?_⟩
  · obtain ⟨record, -, hrecord⟩ := exists_of_mem_forall₂ hall.flip hitem
    exact (Record.hasFields_and_readable_iff hrecord).1
  · obtain ⟨record, hmem, hrecord⟩ := exists_of_mem_forall₂ hall.flip hitem
    exact (Record.hasFields_and_readable_iff hrecord).2.mp (hreadable record hmem)
  · obtain ⟨item, hmem, hitem⟩ := exists_of_mem_forall₂ hall hrecord
    exact (Record.hasFields_and_readable_iff hitem).2.mpr (htext item hmem)

end Index

end FuzzySearch
