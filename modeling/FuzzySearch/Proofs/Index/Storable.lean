import FuzzySearch.Proofs.Decimal.Magnitude
import FuzzySearch.Proofs.Index.Growth
import FuzzySearch.Proofs.Json.RoundTrip
import Mathlib.Data.List.Nodup

/-!
# Snapshots that can be stored

An index of documents holds texts with at least one word, the norms of their lengths, and positions
that are smaller than the documents (`Index.Makes.measured`).  So its snapshot consists of values that
are written as JSON and read back (`Index.storable_toValue`), if the weights of its keys are numbers
and positions are integers of a machine word.
-/

namespace FuzzySearch

/-! ### Sizes -/

theorem Value.length_le_sizes (items : List Value) : items.length ≤ sizes items := by
  induction items with
  | nil => exact Nat.le_refl 0
  | cons item rest ih =>
    have := item.size_pos
    rw [List.length_cons, sizes]
    omega

/-- A walk finds one text for each value it visits at most. -/
theorem length_walkStack_le (stack : List (Value × List String)) (found : List String)
    (crossed : Bool) :
    (walkStack stack found crossed).1.length ≤ found.length + stackSize stack := by
  fun_induction walkStack stack found crossed with
  | case1 found crossed =>
    rw [List.length_reverse]
    exact Nat.le_add_right _ _
  | case2 found crossed v path rest hvisit ih =>
    rw [stackSize]
    omega
  | case3 found crossed v path rest text hvisit ih =>
    have := v.size_pos
    rw [List.length_cons] at ih
    rw [stackSize]
    omega
  | case4 found crossed v path rest items path' now hvisit ih =>
    have := sizes_lt_of_visit_fork hvisit
    rw [stackSize_append, stackSize_map] at ih
    rw [stackSize]
    omega
  | case5 found crossed v path rest child path' hvisit ih =>
    have := size_lt_of_visit_enter hvisit
    rw [stackSize] at ih ⊢
    omega

/-- As many texts are found in a document as it has values at most. -/
theorem length_le_of_valueAt {doc : Value} {path texts : List String}
    (h : valueAt doc path = .many texts) : texts.length ≤ doc.size := by
  have hwalk := length_walkStack_le [(doc, path)] [] false
  unfold valueAt pathValue at h
  simp only at h
  split_ifs at h
  · rw [← PathValue.many.inj h]
    simpa [stackSize] using hwalk
  · split at h <;> cases h

/-! ### Texts of an index -/

/-- A text with anything but blanks has a word. -/
theorem wordCount_pos {cs : List Char} (h : ∃ c ∈ cs, c ≠ ' ') : 0 < wordCount cs := by
  fun_induction wordCount cs with
  | case1 => obtain ⟨c, hc, -⟩ := h; exact absurd hc List.not_mem_nil
  | case2 => obtain ⟨c, hc, hne⟩ := h; exact absurd (List.mem_singleton.mp hc) hne
  | case3 c hc => exact Nat.one_pos
  | case4 c d rest hboth ih => exact Nat.lt_of_lt_of_le Nat.one_pos (Nat.le_add_right 1 _)
  | case5 c d rest hnot ih =>
    obtain ⟨e, he, hne⟩ := h
    rcases List.mem_cons.mp he with rfl | he
    · -- a word goes on
      refine ih ⟨d, List.mem_cons_self, fun hd => hnot ?_⟩
      simp [hne, hd]
    · exact ih ⟨e, he, hne⟩

/-- An indexed text of documents: it has a word, the norm of its length, and a position below a
bound. -/
structure IndexedText.Measured (bound : Nat) (entry : IndexedText Float) : Prop where
  words : 0 < wordCount entry.text.toList
  norm_eq : entry.norm = textNorm entry.text
  nested_lt : ∀ position ∈ entry.nested, 0 ≤ position ∧ position < bound

/-- A body of a document: its texts have words, the norms of their lengths, and positions below a
bound. -/
def RecordBody.Measured (bound : Nat) : RecordBody Float → Prop
  | .text v norm => ∃ text : String, v = .text text ∧ 0 < wordCount text.toList ∧ norm = textNorm text
  | .fields entries => ∀ entry ∈ entries, ∀ text ∈ entry.2.texts, text.Measured bound

theorem IndexedText.Measured.mono {bound bound' : Nat} {entry : IndexedText Float}
    (h : entry.Measured bound) (hle : bound ≤ bound') : entry.Measured bound' :=
  ⟨h.words, h.norm_eq, fun position hposition => by
    have := h.nested_lt position hposition
    omega⟩

theorem RecordBody.Measured.mono {bound bound' : Nat} {body : RecordBody Float}
    (h : body.Measured bound) (hle : bound ≤ bound') : body.Measured bound' := by
  cases body with
  | text v norm => exact h
  | fields entries => exact fun entry hentry text htext => (h entry hentry text htext).mono hle

namespace Index

variable {index : Index Float} {doc : Value}

theorem wordCount_of_indexable? {v : Value} {text : String} (h : index.indexable? v = some text) :
    0 < wordCount text.toList := by
  unfold indexable? at h
  simp only at h
  split_ifs at h with hscalar hblank
  obtain rfl := Option.some.inj h
  rw [Text.isBlank, Bool.not_eq_true, List.all_eq_false] at hblank
  obtain ⟨c, hc, hnot⟩ := hblank
  refine wordCount_pos ⟨c, hc, ?_⟩
  rintro rfl
  exact hnot (by decide)

theorem measured_indexed {bound : Nat} {v : Value} {text : String} {nested : Option Int}
    (h : index.indexable? v = some text)
    (hnested : ∀ position ∈ nested, 0 ≤ position ∧ position < bound) :
    (indexed text nested : IndexedText Float).Measured bound :=
  ⟨wordCount_of_indexable? h, rfl, hnested⟩

/-- The leaves of a list of texts are numbered. -/
theorem of_mem_leavesFrom {position : Int} {texts : List String} {leaf : Int × Value}
    (h : leaf ∈ leavesFrom position (texts.map .text)) :
    position ≤ leaf.1 ∧ leaf.1 < position + texts.length := by
  induction texts generalizing position with
  | nil => exact absurd h List.not_mem_nil
  | cons text texts ih =>
    rw [List.map_cons, leavesFrom, leavesOf, List.singleton_append, List.mem_cons] at h
    · rw [List.length_cons, Nat.cast_succ]
      rcases h with rfl | h
      · exact ⟨le_rfl, by show position < _; omega⟩
      · have := ih h
        omega
    all_goals simp

/-- What is found in a document is measured. -/
theorem measured_of_fieldEntry {path : List String} {entry : IndexedField Float}
    (h : index.fieldEntry? (valueAt doc path).toValue = some entry) :
    ∀ text ∈ entry.texts, text.Measured doc.size := by
  cases hfound : valueAt doc path with
  | nothing =>
    rw [hfound] at h
    cases h
  | single found =>
    rw [hfound] at h
    obtain ⟨text, htext, rfl⟩ := Option.map_eq_some_iff.mp h
    intro only honly
    rw [List.mem_singleton.mp honly]
    exact measured_indexed htext fun position hposition => nomatch hposition
  | many texts =>
    rw [hfound] at h
    obtain rfl := Option.some.inj h
    intro text htext
    obtain ⟨leaf, hleaf, hmap⟩ := List.mem_filterMap.mp htext
    obtain ⟨shown, hshown, rfl⟩ := Option.map_eq_some_iff.mp hmap
    refine measured_indexed hshown fun position hposition => ?_
    obtain rfl := Option.some.inj hposition
    have := of_mem_leavesFrom hleaf
    have := length_le_of_valueAt hfound
    omega

theorem measured_of_fieldsFrom (hextract : index.extract = standardExtractor) {number : Int}
    {keys : List (Key Float)} {fields : List (Int × IndexedField Float)}
    (h : index.fieldsFrom doc number keys = .ok fields) :
    (RecordBody.fields fields).Measured doc.size := by
  induction keys generalizing number fields with
  | nil =>
    obtain rfl := Except.ok.inj h
    exact List.forall_mem_nil _
  | cons key keys ih =>
    obtain ⟨v, hv, h⟩ := bind_eq_ok_iff.mp h
    obtain ⟨others, hothers, h⟩ := bind_eq_ok_iff.mp h
    rw [hextract] at hv
    obtain rfl := Except.ok.inj hv
    split at h
    · rename_i entry hentry
      obtain rfl := pure_eq_ok_iff.mp h
      exact List.forall_mem_cons.mpr ⟨measured_of_fieldEntry hentry, ih hothers⟩
    · obtain rfl := pure_eq_ok_iff.mp h
      exact ih hothers

/-- **What an index holds of a document is measured.** -/
theorem Makes.measured {body : RecordBody Float} (h : index.Makes doc (some body))
    (hextract : index.extract = standardExtractor) : body.Measured doc.size := by
  rcases h with htext | ⟨fields, hfields, hbody⟩
  · obtain ⟨text, hindexable, rfl⟩ := Option.map_eq_some_iff.mp htext.symm
    exact ⟨text, rfl, wordCount_of_indexable? hindexable, rfl⟩
  · obtain rfl := Option.some.inj hbody
    exact measured_of_fieldsFrom hextract hfields

/-- The records of documents lie among them and are measured. -/
theorem measured_of_build {keys : List (Key Float)} {docs : List Value}
    {normalize : Option (String → String)}
    (h : build keys (.list docs) standardExtractor normalize = .ok index) :
    ∀ record ∈ index.records, 0 ≤ record.position ∧ record.position < docs.length ∧
      record.body.Measured (Value.sizes docs) := by
  obtain ⟨bodies, htracks, hmakes, -⟩ := tracks_of_build h
  intro record hrecord
  obtain ⟨hle, hlt, hmem⟩ := htracks.mem_records hrecord
  obtain ⟨doc, hdoc, hmade⟩ := exists_of_mem_forall₂ hmakes hmem
  exact ⟨hle, hlt, (hmade.measured rfl).mono (Value.size_le_sizes hdoc)⟩

end Index

/-! ### Storing -/

open Json (Storable)
open Decimal (isNaN_or_isInf_roundedInverseRoot)

theorem isMachineInteger_of_lt {n : Int} (hle : 0 ≤ n) (hlt : n < 2 ^ 64) :
    Json.isMachineInteger n = true := by
  have h63 : ((1 <<< 63 : Nat) : Int) = 2 ^ 63 := rfl
  have h64 : ((1 <<< 64 : Nat) : Int) = 2 ^ 64 := rfl
  simp only [Json.isMachineInteger, Bool.and_eq_true, decide_eq_true_eq, h63, h64]
  omega

section storable

variable {bound : Nat} (hbound : bound ≤ 2 ^ 64)

include hbound

theorem IndexedText.Measured.storable {entry : IndexedText Float} (h : entry.Measured bound)
    (levels : Nat) : Storable (levels + 1) entry.toValue := by
  have hnorm : (entry.norm.isNaN || entry.norm.isInf) = false :=
    h.norm_eq ▸ isNaN_or_isInf_roundedInverseRoot h.words
  unfold IndexedText.toValue
  cases hnested : entry.nested with
  | none =>
    refine .mapping (show ["v", "n"].Nodup by decide) (List.forall_mem_cons.mpr ⟨.text _ _, ?_⟩)
    exact List.forall_mem_cons.mpr ⟨.float _ hnorm, List.forall_mem_nil _⟩
  | some position =>
    obtain ⟨hle, hlt⟩ := h.nested_lt position hnested
    have hinteger := isMachineInteger_of_lt hle (by omega)
    refine .mapping (show ["v", "n", "i"].Nodup by decide)
      (List.forall_mem_cons.mpr ⟨.text _ _, ?_⟩)
    refine List.forall_mem_cons.mpr ⟨.float _ hnorm, ?_⟩
    exact List.forall_mem_cons.mpr ⟨.int _ hinteger, List.forall_mem_nil _⟩

theorem IndexedField.storable {entry : IndexedField Float}
    (h : ∀ text ∈ entry.texts, text.Measured bound) (levels : Nat) :
    Storable (levels + 2) entry.toValue := by
  cases entry with
  | single text => exact (h text (List.mem_singleton_self _)).storable hbound (levels + 1)
  | many texts =>
    refine .list fun v hv => ?_
    obtain ⟨text, htext, rfl⟩ := List.mem_map.mp hv
    exact (h text htext).storable hbound levels

theorem Record.storable {record : Record Float} (hle : 0 ≤ record.position)
    (hlt : record.position < bound) (hmeasured : record.body.Measured bound)
    (hcanonical : record.body.Canonical) : Storable 4 record.toValue := by
  have hposition := isMachineInteger_of_lt hle (by omega)
  unfold Record.toValue
  cases hbody : record.body with
  | text v norm =>
    rw [hbody] at hmeasured
    obtain ⟨text, rfl, hwords, rfl⟩ := hmeasured
    refine .mapping (show ["v", "i", "n"].Nodup by decide)
      (List.forall_mem_cons.mpr ⟨.text _ _, ?_⟩)
    refine List.forall_mem_cons.mpr ⟨.int _ hposition, ?_⟩
    have hnorm := isNaN_or_isInf_roundedInverseRoot hwords
    exact List.forall_mem_cons.mpr ⟨.float _ hnorm, List.forall_mem_nil _⟩
  | fields entries =>
    rw [hbody] at hmeasured hcanonical
    refine .mapping (show ["i", "$"].Nodup by decide)
      (List.forall_mem_cons.mpr ⟨.int _ hposition, ?_⟩)
    refine List.forall_mem_cons.mpr ⟨.mapping ?_ fun entry hentry => ?_, List.forall_mem_nil _⟩
    · -- distinct numbers have distinct texts, because they are read back
      obtain ⟨hnodup, hread⟩ := hcanonical
      rw [List.map_map]
      refine (List.Nodup.of_map _ hnodup).map_on ?_
      intro entry hentry other hother heq
      have hsame := hread entry hentry
      rw [show Decimal.intText entry.1 = Decimal.intText other.1 from heq,
        hread other hother] at hsame
      exact List.inj_on_of_nodup_map hnodup hentry hother (Except.ok.inj hsame).symm
    · obtain ⟨field, hfield, rfl⟩ := List.mem_map.mp hentry
      exact IndexedField.storable hbound (hmeasured field hfield) 0

end storable

/-- A key whose snapshot can be stored: it is called by a text, it was specified by a text, and its
weight is read back. -/
structure Key.Storable (key : Key Float) : Prop where
  id_eq : ∃ name, key.id = .text name
  source_eq : ∃ name, key.source = .text name
  weight : (key.weight.isNaN || key.weight.isInf) = false

theorem Key.Storable.toValue {key : Key Float} (h : key.Storable) (levels : Nat) :
    Json.Storable (levels + 2) key.toValue := by
  obtain ⟨name, hname⟩ := h.id_eq
  obtain ⟨source, hsource⟩ := h.source_eq
  rw [Key.toValue_eq, hname, hsource]
  refine .mapping (show ["path", "id", "weight", "src"].Nodup by decide)
    (List.forall_mem_cons.mpr ⟨.list fun v hv => ?_, ?_⟩)
  · obtain ⟨s, -, rfl⟩ := List.mem_map.mp hv
    exact .text _ s
  · refine List.forall_mem_cons.mpr ⟨.text _ name, ?_⟩
    refine List.forall_mem_cons.mpr ⟨.float _ h.weight, ?_⟩
    exact List.forall_mem_cons.mpr ⟨.text _ source, List.forall_mem_nil _⟩

/-- **The snapshot of an index of documents can be stored.** -/
theorem Index.storable_toValue {index : Index Float} {bound : Nat}
    (hbound : bound ≤ 2 ^ 64) (hkeys : ∀ key ∈ index.keys, key.Storable)
    (hrecords : ∀ record ∈ index.records, 0 ≤ record.position ∧ record.position < bound ∧
      record.body.Measured bound) (hcanonical : index.Canonical) : Storable 6 index.toValue := by
  refine .mapping (show ["keys", "records"].Nodup by decide)
    (List.forall_mem_cons.mpr ⟨.list fun v hv => ?_, ?_⟩)
  · obtain ⟨key, hkey, rfl⟩ := List.mem_map.mp hv
    exact (hkeys key hkey).toValue 2
  · refine List.forall_mem_cons.mpr ⟨.list fun v hv => ?_, List.forall_mem_nil _⟩
    obtain ⟨record, hrecord, rfl⟩ := List.mem_map.mp hv
    obtain ⟨hle, hlt, hmeasured⟩ := hrecords record hrecord
    exact record.storable hbound hle hlt hmeasured (hcanonical.records record hrecord)

end FuzzySearch
