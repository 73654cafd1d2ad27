import FuzzySearch.Proofs.Index.RoundTrip
import FuzzySearch.Proofs.Index.Upkeep

/-!
# Indexes that grow and shrink

An index can be added to and removed from at any positions (`Index.Grown`).  It keeps its keys and
functions (`Grown.alike`), and if its snapshot can be read back, that remains so (`Grown.canonical`).
It is so at first for an index that was built or read (`Obtained.canonical`), because entries are
numbered by the keys.  What an addition adds depends on nothing but the paths of the keys and the
functions of the index (`GrowsLike.additions`).
-/

namespace FuzzySearch

namespace Index

variable {α : Type} [Weighting α] {index next : Index α}

/-- The indexes that additions and removals, at any positions, make of an index. -/
inductive Grown (first : Index α) : Index α → Prop
  | first : Grown first first
  | add {index next : Index α} (doc : Value) (position : Int) :
      Grown first index → index.add doc position = .ok next → Grown first next
  | removeAt {index next : Index α} (position : Int) :
      Grown first index → index.removeAt position = .ok next → Grown first next

/-! ### Additions and removals -/

/-- The index with other records. -/
def withRecords (index : Index α) (records : List (Record α)) : Index α :=
  { index with records := records }

/-- The records that an addition puts behind the others: one, or none for a blank text. -/
def additions (index : Index α) (doc : Value) (position : Int) :
    Except SearchError (List (Record α)) :=
  if doc.isText then .ok (index.textRecord? doc position).toList
  else (index.fieldsRecord doc position).map fun record => [record]

theorem add_eq (index : Index α) (doc : Value) (position : Int) :
    index.add doc position = (index.additions doc position).map fun added =>
      index.withRecords (index.records ++ added) := by
  cases doc with
  | text s => rfl
  | _ =>
    show (index.fieldsRecord _ position >>= fun record => _)
      = ((index.fieldsRecord _ position).map _).map _
    cases index.fieldsRecord _ position <;> rfl

/-- **What an addition adds is decided by the paths and the functions of an index.** -/
theorem GrowsLike.additions {other : Index α} (h : index.GrowsLike other) (doc : Value)
    (position : Int) : index.additions doc position = other.additions doc position := by
  unfold Index.additions fieldsRecord
  rw [textRecord?_eq, textRecord?_eq, h.textBody?, h.fieldsFrom doc 0 h.paths_eq]

theorem GrowsLike.makes_iff {other : Index α} (h : index.GrowsLike other) (doc : Value)
    (body : Option (RecordBody α)) : index.Makes doc body ↔ other.Makes doc body := by
  unfold Makes
  rw [h.textBody?, h.fieldsBody_iff]

theorem of_textRecord? {doc : Value} {position : Int} {record : Record α}
    (h : index.textRecord? doc position = some record) :
    record.position = position ∧ index.Makes doc (some record.body) := by
  rw [textRecord?_eq] at h
  obtain ⟨body, hbody, rfl⟩ := Option.map_eq_some_iff.mp h
  exact ⟨rfl, Or.inl hbody.symm⟩

/-- What is added stands at its position and is made of its document. -/
theorem of_mem_additions {doc : Value} {position : Int} {added : List (Record α)}
    (h : index.additions doc position = .ok added) {record : Record α} (hrecord : record ∈ added) :
    record.position = position ∧ index.Makes doc (some record.body) := by
  unfold additions at h
  split_ifs at h
  · obtain rfl := Except.ok.inj h
    exact of_textRecord? (Option.mem_toList.mp hrecord)
  · obtain ⟨made, hmade, rfl⟩ := map_eq_ok_iff.mp h
    obtain rfl := List.mem_singleton.mp hrecord
    obtain ⟨body, hbody, rfl⟩ := (fieldsRecord_eq_ok_iff index doc position record).mp hmade
    exact ⟨rfl, Or.inr hbody⟩

theorem makes_of_addFieldsFrom {docs : List Value} {position : Int} {records : List (Record α)}
    (h : index.addFieldsFrom position [] docs = (records, none)) :
    ∀ record ∈ records, ∃ doc, index.Makes doc (some record.body) := by
  obtain ⟨bodies, hbodies, rfl⟩ := (addFieldsFrom_eq_ok_iff index position [] docs records).mp h
  intro record hrecord
  rw [List.reverse_nil, List.nil_append] at hrecord
  obtain ⟨doc, -, hbody⟩ := exists_of_mem_forall₂ hbodies (mem_numbered hrecord).2.2
  exact ⟨doc, Or.inr hbody⟩

/-- An addition puts records made of the document behind the others. -/
theorem of_add_eq_ok {doc : Value} {position : Int} (h : index.add doc position = .ok next) :
    ∃ added, next = index.withRecords (index.records ++ added) ∧
      ∀ record ∈ added, record.position = position ∧ index.Makes doc (some record.body) := by
  rw [add_eq, map_eq_ok_iff] at h
  obtain ⟨added, hadded, rfl⟩ := h
  exact ⟨added, rfl, fun record hrecord => of_mem_additions hadded hrecord⟩

omit [Weighting α] in
/-- What is left after a removal are some of the records, at other positions. -/
theorem of_removeAt_eq_ok {position : Int} (h : index.removeAt position = .ok next) :
    ∃ kept : List (Record α), next = index.withRecords (kept.map (Record.shift position)) ∧
      ∀ record ∈ kept, record ∈ index.records ∧ record.position ≠ position := by
  unfold Index.removeAt at h
  split_ifs at h
  refine ⟨_, (Except.ok.inj h).symm, fun record hrecord => ?_⟩
  obtain ⟨hmem, hposition⟩ := List.mem_filter.mp hrecord
  exact ⟨hmem, of_decide_eq_true hposition⟩

/-- Filling an index adds records made of documents. -/
theorem of_fill_eq_none (h : fill index = (next, none)) :
    next.Alike index ∧
      ∀ record ∈ next.records, record ∈ index.records ∨
        ∃ doc, index.Makes doc (some record.body) := by
  have hcreated : ({ index with created := true } : Index α).GrowsLike index := ⟨rfl, rfl, rfl⟩
  unfold Index.fill at h
  split_ifs at h
  · obtain rfl := congrArg Prod.fst h
    exact ⟨⟨rfl, rfl, rfl⟩, fun record => Or.inl⟩
  · simp only at h
    split at h
    · exact absurd (congrArg Prod.snd h) (Option.some_ne_none _)
    · obtain rfl := congrArg Prod.fst h
      refine ⟨⟨rfl, rfl, rfl⟩, fun record hrecord => (List.mem_append.mp hrecord).imp_right ?_⟩
      intro hadded
      obtain ⟨⟨doc, k⟩, -, hmade⟩ := List.mem_filterMap.mp hadded
      exact ⟨doc, (hcreated.makes_iff doc _).mp (of_textRecord? hmade).2⟩
    · obtain ⟨hnext, hfailure⟩ := Prod.mk.inj h
      rw [← hnext]
      refine ⟨⟨rfl, rfl, rfl⟩, fun record hrecord => (List.mem_append.mp hrecord).imp_right ?_⟩
      intro hadded
      obtain ⟨doc, hmakes⟩ := makes_of_addFieldsFrom (Prod.ext rfl hfailure) record hadded
      exact ⟨doc, (hcreated.makes_iff doc _).mp hmakes⟩

/-- **An index is built of records made of documents.** -/
theorem of_ofSpecs_eq_ok {specs : List (KeySpec α)} {sources : Value} {extract : Extractor}
    {normalize : Option (String → String)} (h : ofSpecs specs sources extract normalize = .ok index) :
    specs.mapM Key.ofSpec = .ok index.keys ∧
      index.Alike (blank index.keys extract normalize) ∧
      ∀ record ∈ index.records, ∃ doc,
        (blank index.keys extract normalize).Makes doc (some record.body) := by
  obtain ⟨keys, hkeys, hbuild⟩ := bind_eq_ok_iff.mp h
  unfold build at hbuild
  simp only at hbuild
  split at hbuild
  · rename_i filled hfill
    obtain rfl := Except.ok.inj hbuild
    obtain ⟨halike, hrecords⟩ := of_fill_eq_none hfill
    obtain rfl : filled.keys = keys := halike.keys_eq
    refine ⟨hkeys, ⟨rfl, halike.extract_eq, halike.normalize_eq⟩, fun record hrecord => ?_⟩
    obtain ⟨doc, hdoc⟩ := (hrecords record hrecord).resolve_left List.not_mem_nil
    refine ⟨doc, (GrowsLike.makes_iff ?_ doc _).mp hdoc⟩
    exact ⟨rfl, rfl, rfl⟩
  · cases hbuild

/-! ### Numbers of entries -/

/-- Entries are numbered by the keys, in order. -/
theorem numbers_of_fieldsFrom {doc : Value} {number : Int} {keys : List (Key α)}
    {fields : List (Int × IndexedField α)} (h : index.fieldsFrom doc number keys = .ok fields) :
    (fields.map (·.1)).Pairwise (· < ·) ∧
      ∀ entry ∈ fields, number ≤ entry.1 ∧ entry.1 < number + keys.length := by
  induction keys generalizing number fields with
  | nil =>
    obtain rfl := Except.ok.inj h
    exact ⟨List.Pairwise.nil, List.forall_mem_nil _⟩
  | cons key keys ih =>
    obtain ⟨v, -, h⟩ := bind_eq_ok_iff.mp h
    obtain ⟨others, hothers, h⟩ := bind_eq_ok_iff.mp h
    obtain ⟨hpairwise, hrange⟩ := ih hothers
    rw [List.length_cons, Nat.cast_succ]
    have hlater : ∀ entry ∈ others, number + 1 ≤ entry.1 ∧ entry.1 < number + (keys.length + 1) := by
      intro entry hentry
      have := hrange entry hentry
      omega
    split at h
    · rename_i entry _
      obtain rfl := pure_eq_ok_iff.mp h
      constructor
      · refine List.pairwise_cons.mpr ⟨fun n hn => ?_, hpairwise⟩
        obtain ⟨later, hmem, rfl⟩ := List.mem_map.mp hn
        have := hlater later hmem
        show number < later.1
        omega
      · refine List.forall_mem_cons.mpr ⟨⟨le_rfl, ?_⟩, fun later hmem => ?_⟩
        · show number < number + ((keys.length : Int) + 1)
          omega
        · have := hlater later hmem
          omega
    · obtain rfl := pure_eq_ok_iff.mp h
      refine ⟨hpairwise, fun later hmem => ?_⟩
      have := hlater later hmem
      omega

/-! ### Snapshots of indexes that grow -/

section canonical

variable {index next first : Index Float} {extract : Extractor}
  {normalize : Option (String → String)}

theorem Makes.canonical {doc : Value} {body : RecordBody Float}
    (h : index.Makes doc (some body)) (hlength : index.keys.length ≤ 10 ^ Decimal.longestInteger) :
    body.Canonical := by
  rcases h with htext | ⟨fields, hfields, hbody⟩
  · obtain ⟨text, -, rfl⟩ := Option.map_eq_some_iff.mp htext.symm
    trivial
  · obtain rfl := Option.some.inj hbody
    obtain ⟨hpairwise, hrange⟩ := numbers_of_fieldsFrom hfields
    refine ⟨hpairwise.imp fun hlt => Int.ne_of_lt hlt, fun entry hentry => ?_⟩
    have := hrange entry hentry
    exact toInt_intText (by omega)

/-- An index that was built is read back from its snapshot, unless it has more keys than there are
numbers that can be read. -/
theorem canonical_of_ofSpecs {specs : List (KeySpec Float)} {sources : Value}
    (h : ofSpecs specs sources extract normalize = .ok index)
    (hlength : index.keys.length ≤ 10 ^ Decimal.longestInteger) : index.Canonical := by
  obtain ⟨hkeys, -, hmakes⟩ := of_ofSpecs_eq_ok h
  constructor
  · intro key hkey
    obtain ⟨spec, -, hspec⟩ := exists_of_mem_mapM hkeys hkey
    exact Key.isHashable_of_ofSpec hspec
  · intro record hrecord
    obtain ⟨doc, hdoc⟩ := hmakes record hrecord
    exact hdoc.canonical hlength

theorem Canonical.add (h : index.Canonical)
    (hlength : index.keys.length ≤ 10 ^ Decimal.longestInteger) {doc : Value} {position : Int}
    (hadd : index.add doc position = .ok next) : next.Canonical := by
  obtain ⟨added, rfl, hadded⟩ := of_add_eq_ok hadd
  refine ⟨h.ids, fun record hrecord => ?_⟩
  rcases List.mem_append.mp hrecord with hrecord | hrecord
  · exact h.records record hrecord
  · exact (hadded record hrecord).2.canonical hlength

theorem Canonical.removeAt (h : index.Canonical) {position : Int}
    (hremove : index.removeAt position = .ok next) : next.Canonical := by
  obtain ⟨kept, rfl, hkept⟩ := of_removeAt_eq_ok hremove
  refine ⟨h.ids, fun record hrecord => ?_⟩
  obtain ⟨before, hbefore, rfl⟩ := List.mem_map.mp hrecord
  rw [Record.shift_eq]
  exact h.records before (hkept before hbefore).1

end canonical

theorem Grown.alike {first : Index α} (h : Grown first index) : index.Alike first := by
  induction h with
  | first => exact ⟨rfl, rfl, rfl⟩
  | add doc position _ hadd ih =>
    obtain ⟨added, rfl, -⟩ := of_add_eq_ok hadd
    exact ⟨ih.keys_eq, ih.extract_eq, ih.normalize_eq⟩
  | removeAt position _ hremove ih =>
    obtain ⟨kept, rfl, -⟩ := of_removeAt_eq_ok hremove
    exact ⟨ih.keys_eq, ih.extract_eq, ih.normalize_eq⟩

/-- **An index that is read back from its snapshot remains so as it grows.** -/
theorem Grown.canonical {first index : Index Float} (h : Grown first index)
    (hfirst : first.Canonical) (hlength : first.keys.length ≤ 10 ^ Decimal.longestInteger) :
    index.Canonical := by
  induction h with
  | first => exact hfirst
  | add doc position hgrown hadd ih => exact ih.add (hgrown.alike.keys_eq ▸ hlength) hadd
  | removeAt position _ hremove ih => exact ih.removeAt hremove

/-- An index that was built from specifications or read from a payload, and then changed. -/
def Obtained (index : Index Float) : Prop :=
  ∃ first extract normalize, Grown first index ∧
    ((∃ specs sources, ofSpecs specs sources extract normalize = .ok first) ∨
      ∃ payload, ofPayload payload extract normalize = .ok first)

theorem Obtained.canonical {index : Index Float} (h : index.Obtained)
    (hlength : index.keys.length ≤ 10 ^ Decimal.longestInteger) : index.Canonical := by
  obtain ⟨first, extract, normalize, hgrown, hfirst⟩ := h
  rw [hgrown.alike.keys_eq] at hlength
  refine hgrown.canonical ?_ hlength
  rcases hfirst with ⟨specs, sources, hbuilt⟩ | ⟨payload, hread⟩
  · exact canonical_of_ofSpecs hbuilt hlength
  · exact canonical_of_ofPayload hread

end Index

end FuzzySearch
