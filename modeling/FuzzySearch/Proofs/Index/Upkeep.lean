import FuzzySearch.Proofs.Calls
import FuzzySearch.Proofs.Index.Numbering

/-!
# The upkeep of an index

An index `Tracks` documents when its records are those of bodies that stand beside the documents,
one for one.  Building makes such an index (`Index.tracks_of_build`), and adding a document at the
end and removing one keep it so (`Tracks.add`, `Tracks.removeAt`).

`Describes` says that a body is the one that its document has by itself: a text is indexed as a
text, and anything else by its fields.  When the documents are all texts or all something else,
building gives them these bodies, so an index that tracks described documents has the same records
as one that is built from them (`Tracks.build`).  Whatever body a document gets, its texts are those
of some values, each with its norm (`Makes.holds`), and none of them is empty.
-/

namespace FuzzySearch

/-- Whether a document is a text. -/
def Value.isText : Value → Bool
  | .text _ => true
  | _ => false

/-- The documents are all texts, or none of them is. -/
def Uniform (docs : List Value) : Prop :=
  (∀ doc ∈ docs, doc.isText = true) ∨ ∀ doc ∈ docs, doc.isText = false

namespace Index

variable {α : Type}

/-- An index without records. -/
def blank (keys : List (Key α)) (extract : Extractor) (normalize : Option (String → String)) :
    Index α :=
  { empty extract normalize with keys := keys }

/-- Two indexes with the same keys and functions. -/
structure Alike (index other : Index α) : Prop where
  keys_eq : index.keys = other.keys
  extract_eq : index.extract = other.extract
  normalize_eq : index.normalize = other.normalize

/-- Two indexes that make the same records of documents, although their keys may differ in more than
their paths. -/
structure GrowsLike (index other : Index α) : Prop where
  paths_eq : index.keys.map (·.path) = other.keys.map (·.path)
  extract_eq : index.extract = other.extract
  normalize_eq : index.normalize = other.normalize

theorem Alike.growsLike {index other : Index α} (h : index.Alike other) : index.GrowsLike other :=
  ⟨congrArg (List.map (·.path)) h.keys_eq, h.extract_eq, h.normalize_eq⟩

/-! ### Indexes that track documents -/

/-- An index whose records are those of some bodies, one for each document. -/
structure Tracks (keys : List (Key α)) (extract : Extractor)
    (normalize : Option (String → String)) (docs : List Value)
    (bodies : List (Option (RecordBody α))) (index : Index α) : Prop where
  alike : index.Alike (blank keys extract normalize)
  length_eq : bodies.length = docs.length
  records_eq : index.records = numbered 0 bodies

variable {keys : List (Key α)} {extract : Extractor} {normalize : Option (String → String)}
  {docs : List Value} {bodies : List (Option (RecordBody α))} {index : Index α}

/-- The positions of the records lie in the collection. -/
theorem Tracks.mem_records (h : Tracks keys extract normalize docs bodies index)
    {record : Record α} (hrecord : record ∈ index.records) :
    0 ≤ record.position ∧ record.position < docs.length ∧ some record.body ∈ bodies := by
  rw [h.records_eq] at hrecord
  obtain ⟨hle, hlt, hbody⟩ := mem_numbered hrecord
  rw [h.length_eq, zero_add] at hlt
  exact ⟨hle, hlt, hbody⟩

/-- The positions of the records grow strictly. -/
theorem Tracks.pairwise (h : Tracks keys extract normalize docs bodies index) :
    (index.records.map (·.position)).Pairwise (· < ·) := by
  rw [h.records_eq]
  exact pairwise_numbered 0 bodies

/-- **Removing a document removes its body.** -/
theorem Tracks.removeAt (h : Tracks keys extract normalize docs bodies index) {i : Nat}
    (hi : i < docs.length) :
    ∃ shorter, index.removeAt i = .ok shorter ∧
      Tracks keys extract normalize (docs.eraseIdx i) (bodies.eraseIdx i) shorter := by
  refine ⟨_, if_neg (by omega), ⟨h.alike.keys_eq, h.alike.extract_eq, h.alike.normalize_eq⟩, ?_, ?_⟩
  · rw [List.length_eraseIdx, List.length_eraseIdx, h.length_eq]
  · show (index.records.filter (·.position ≠ (i : Int))).map (Record.shift i) = _
    have herase := numbered_eraseIdx 0 bodies (by rwa [h.length_eq])
    rw [zero_add] at herase
    rw [h.records_eq, herase]

variable [Weighting α]

/-! ### The bodies of documents -/

/-- The body of a document that is indexed as a text, unless it is blank. -/
def textBody? (index : Index α) (doc : Value) : Option (RecordBody α) :=
  (index.indexable? doc).map fun text => .text (.text text) (textNorm text)

/-- The body of a document that is indexed by its fields. -/
def FieldsBody (index : Index α) (doc : Value) (body : Option (RecordBody α)) : Prop :=
  ∃ fields, index.fieldsFrom doc 0 index.keys = .ok fields ∧ body = some (.fields fields)

/-- A body that a document can have, whatever the other documents are. -/
def Makes (index : Index α) (doc : Value) (body : Option (RecordBody α)) : Prop :=
  body = index.textBody? doc ∨ index.FieldsBody doc body

/-- The body that a document has by itself. -/
def Describes (index : Index α) (doc : Value) (body : Option (RecordBody α)) : Prop :=
  if doc.isText then body = index.textBody? doc else index.FieldsBody doc body

theorem textRecord?_eq (index : Index α) (doc : Value) (position : Int) :
    index.textRecord? doc position = (index.textBody? doc).map (Record.mk position) := by
  rw [textRecord?, textBody?, Option.map_map]
  rfl

theorem fieldsRecord_eq_ok_iff (index : Index α) (doc : Value) (position : Int)
    (record : Record α) :
    index.fieldsRecord doc position = .ok record ↔
      ∃ body, index.FieldsBody doc (some body) ∧ record = ⟨position, body⟩ := by
  simp only [fieldsRecord, FieldsBody, bind_eq_ok_iff, pure_eq_ok_iff]
  constructor
  · rintro ⟨fields, hfields, rfl⟩
    exact ⟨.fields fields, ⟨fields, hfields, rfl⟩, rfl⟩
  · rintro ⟨body, ⟨fields, hfields, hbody⟩, rfl⟩
    obtain rfl := Option.some.inj hbody
    exact ⟨fields, hfields, rfl⟩

/-! ### The texts of bodies -/

omit [Weighting α] in
/-- No text that is indexed is empty. -/
theorem ne_empty_of_indexable? {index : Index α} {v : Value} {text : String}
    (h : index.indexable? v = some text) : text ≠ "" := by
  rintro rfl
  unfold indexable? at h
  split_ifs at h with hscalar
  simp only at h
  split_ifs at h with hblank
  rw [Option.some.inj h] at hblank
  exact hblank rfl

/-- The texts of an entry are indexed under some values. -/
theorem exists_of_mem_texts {index : Index α} {v : Value} {field : IndexedField α}
    (h : index.fieldEntry? v = some field) {entry : IndexedText α} (hentry : entry ∈ field.texts) :
    ∃ leaf text nested, index.indexable? leaf = some text ∧ entry = indexed text nested := by
  unfold fieldEntry? at h
  split at h
  · cases h
  iterate 2
    obtain rfl := Option.some.inj h
    obtain ⟨⟨position, leaf⟩, -, hleaf⟩ := List.mem_filterMap.mp hentry
    obtain ⟨text, htext, rfl⟩ := Option.map_eq_some_iff.mp hleaf
    exact ⟨leaf, text, some position, htext, rfl⟩
  · obtain ⟨text, htext, rfl⟩ := Option.map_eq_some_iff.mp h
    exact ⟨_, text, none, htext, List.mem_singleton.mp hentry⟩

/-- The entries of a document are those of some values. -/
theorem exists_of_mem_fieldsFrom {index : Index α} {doc : Value} {number : Int}
    {keys : List (Key α)} {fields : List (Int × IndexedField α)}
    (h : index.fieldsFrom doc number keys = .ok fields) {field : Int × IndexedField α}
    (hfield : field ∈ fields) : ∃ v, index.fieldEntry? v = some field.2 := by
  induction keys generalizing number fields with
  | nil =>
    obtain rfl := Except.ok.inj h
    exact absurd hfield List.not_mem_nil
  | cons key rest ih =>
    obtain ⟨v, -, hrest⟩ := bind_eq_ok_iff.mp h
    obtain ⟨others, hothers, hfields⟩ := bind_eq_ok_iff.mp hrest
    split at hfields
    · rename_i entry hentry
      obtain rfl := pure_eq_ok_iff.mp hfields
      rcases List.mem_cons.mp hfield with rfl | hmem
      · exact ⟨v, hentry⟩
      · exact ih hothers hmem
    · obtain rfl := pure_eq_ok_iff.mp hfields
      exact ih hothers hfield

/-- A body that holds texts of some values, each with its norm. -/
def Holds (index : Index α) : RecordBody α → Prop
  | .text v norm =>
    ∃ leaf text, index.indexable? leaf = some text ∧ v = .text text ∧ norm = textNorm text
  | .fields fields => ∀ field ∈ fields, ∀ entry ∈ field.2.texts,
      ∃ leaf text nested, index.indexable? leaf = some text ∧ entry = indexed text nested

/-- **A body that is made of a document holds texts of some values.** -/
theorem Makes.holds {index : Index α} {doc : Value} {body : RecordBody α}
    (h : index.Makes doc (some body)) : index.Holds body := by
  rcases h with htext | ⟨fields, hfields, hbody⟩
  · obtain ⟨text, hindexable, rfl⟩ := Option.map_eq_some_iff.mp htext.symm
    exact ⟨doc, text, hindexable, rfl, rfl⟩
  · obtain rfl := Option.some.inj hbody
    intro field hfield entry hentry
    obtain ⟨v, hv⟩ := exists_of_mem_fieldsFrom hfields hfield
    exact exists_of_mem_texts hv hentry

section growth

variable {index other : Index α} (h : index.GrowsLike other)

include h

omit [Weighting α] in
theorem GrowsLike.indexable? (v : Value) : index.indexable? v = other.indexable? v := by
  unfold Index.indexable?
  rw [h.normalize_eq]

theorem GrowsLike.textBody? (doc : Value) : index.textBody? doc = other.textBody? doc := by
  rw [Index.textBody?, Index.textBody?, h.indexable?]

theorem GrowsLike.fieldEntry? (v : Value) : index.fieldEntry? v = other.fieldEntry? v := by
  unfold Index.fieldEntry?
  simp only [h.indexable?]

theorem GrowsLike.fieldsFrom (doc : Value) (number : Int) {keys keys' : List (Key α)}
    (hkeys : keys.map (·.path) = keys'.map (·.path)) :
    index.fieldsFrom doc number keys = other.fieldsFrom doc number keys' := by
  induction keys generalizing number keys' with
  | nil =>
    obtain rfl := List.map_eq_nil_iff.mp hkeys.symm
    rfl
  | cons key rest ih =>
    obtain ⟨key', rest', rfl, hpath, hrest⟩ := List.map_eq_cons_iff.mp hkeys.symm
    rw [Index.fieldsFrom, Index.fieldsFrom, h.extract_eq, show key'.path = key.path from hpath,
      ih (number + 1) hrest.symm]
    simp only [h.fieldEntry?]

theorem GrowsLike.fieldsBody_iff (doc : Value) (body : Option (RecordBody α)) :
    index.FieldsBody doc body ↔ other.FieldsBody doc body := by
  unfold FieldsBody
  rw [h.fieldsFrom doc 0 h.paths_eq]

end growth

/-! ### Records made from documents -/

theorem filterMap_textRecord? (index : Index α) (docs : List Value) (first : Nat) :
    (docs.zipIdx first).filterMap (fun entry => index.textRecord? entry.1 entry.2)
      = numbered (first : Int) (docs.map index.textBody?) := by
  induction docs generalizing first with
  | nil => rfl
  | cons doc docs ih =>
    rw [List.zipIdx_cons, List.map_cons, numbered_cons, ← Nat.cast_succ, ← ih (first + 1),
      ← textRecord?_eq]
    cases hrecord : index.textRecord? doc first with
    | none => exact List.filterMap_cons_none hrecord
    | some record => exact List.filterMap_cons_some hrecord

/-- The records of documents that are indexed by their fields. -/
theorem addFieldsFrom_eq_ok_iff (index : Index α) (position : Int) (made : List (Record α))
    (docs : List Value) (records : List (Record α)) :
    index.addFieldsFrom position made docs = (records, none) ↔
      ∃ bodies, List.Forall₂ index.FieldsBody docs bodies ∧
        records = made.reverse ++ numbered position bodies := by
  -- the records made so far are carried along, in reverse
  induction docs generalizing position made with
  | nil =>
    rw [addFieldsFrom]
    simp [eq_comm]
  | cons doc docs ih =>
    rw [addFieldsFrom]
    -- a document that fails ends the list, and then it has no body either
    cases hrecord : index.fieldsRecord doc position with
    | error e =>
      constructor
      · intro h
        exact absurd (congrArg Prod.snd h) (Option.some_ne_none e)
      · rintro ⟨bodies, hbodies, -⟩
        obtain ⟨body, rest, ⟨fields, hfields, rfl⟩, -, rfl⟩ :=
          List.forall₂_cons_left_iff.mp hbodies
        have := (fieldsRecord_eq_ok_iff index doc position ⟨position, .fields fields⟩).mpr
          ⟨_, ⟨fields, hfields, rfl⟩, rfl⟩
        rw [hrecord] at this
        exact absurd this (by simp)
    | ok record =>
      obtain ⟨body, hbody, rfl⟩ := (fieldsRecord_eq_ok_iff index doc position record).mp hrecord
      show index.addFieldsFrom (position + 1) (⟨position, body⟩ :: made) docs = (records, none) ↔ _
      rw [ih, List.reverse_cons]
      constructor
      · rintro ⟨bodies, hbodies, rfl⟩
        refine ⟨some body :: bodies, List.Forall₂.cons hbody hbodies, ?_⟩
        rw [numbered_cons, List.append_assoc]
        rfl
      · rintro ⟨bodies, hbodies, rfl⟩
        obtain ⟨body', rest, ⟨fields', hfields', rfl⟩, hrest, rfl⟩ :=
          List.forall₂_cons_left_iff.mp hbodies
        obtain ⟨fields, hfields, hsome⟩ := hbody
        obtain rfl : body = .fields fields := Option.some.inj hsome
        obtain rfl : fields = fields' := Except.ok.inj (hfields.symm.trans hfields')
        refine ⟨rest, hrest, ?_⟩
        rw [numbered_cons, List.append_assoc]
        rfl

/-! ### Adding documents and building -/

/-- **Adding a document at the end adds its body at the end.** -/
theorem Tracks.add (h : Tracks keys extract normalize docs bodies index) {doc : Value}
    {longer : Index α} (hadd : index.add doc docs.length = .ok longer) :
    ∃ body, (blank keys extract normalize).Describes doc body ∧
      Tracks keys extract normalize (docs ++ [doc]) (bodies ++ [body]) longer := by
  -- what the new record has to be
  have hgrow : ∀ body : Option (RecordBody α),
      Tracks keys extract normalize (docs ++ [doc]) (bodies ++ [body])
        { index with
          records := index.records ++ (body.map (Record.mk (docs.length : Int))).toList } := by
    intro body
    refine ⟨⟨h.alike.keys_eq, h.alike.extract_eq, h.alike.normalize_eq⟩, ?_, ?_⟩
    · rw [List.length_append, List.length_append, h.length_eq]
      rfl
    · show index.records ++ _ = _
      rw [numbered_append, h.records_eq, numbered_cons, zero_add, h.length_eq, numbered_nil,
        List.append_nil]
  unfold Index.add at hadd
  split at hadd
  · obtain rfl := Except.ok.inj hadd
    rename_i text
    refine ⟨(blank keys extract normalize).textBody? (.text text), ?_, ?_⟩
    · unfold Describes
      rw [if_pos (show (Value.text text).isText = true from rfl)]
    · rw [textRecord?_eq, h.alike.growsLike.textBody?]
      exact hgrow _
  · rename_i hdoc
    cases hrecord : index.fieldsRecord doc docs.length with
    | error e =>
      rw [hrecord] at hadd
      simp only [bind, Except.bind, reduceCtorEq] at hadd
    | ok record =>
      rw [hrecord] at hadd
      obtain rfl := Except.ok.inj hadd
      obtain ⟨body, hbody, rfl⟩ := (fieldsRecord_eq_ok_iff index doc _ record).mp hrecord
      refine ⟨some body, ?_, hgrow (some body)⟩
      have htext : doc.isText = false := by
        cases doc <;> first | rfl | exact absurd rfl (hdoc _)
      rw [Describes, htext, if_neg Bool.false_ne_true, ← h.alike.growsLike.fieldsBody_iff]
      exact hbody

/-- Whether the first document is a text. -/
def startsWithText : List Value → Bool
  | .text _ :: _ => true
  | _ => false

theorem isText_of_uniform {docs : List Value} (h : Uniform docs) (doc : Value) (hdoc : doc ∈ docs) :
    doc.isText = startsWithText docs := by
  cases docs with
  | nil => simp at hdoc
  | cons first rest =>
    have hfirst : startsWithText (first :: rest) = first.isText := by cases first <;> rfl
    rw [hfirst]
    rcases h with h | h
    · rw [h doc hdoc, h first List.mem_cons_self]
    · rw [h doc hdoc, h first List.mem_cons_self]

theorem build_of_startsWithText (keys : List (Key α)) (extract : Extractor)
    (normalize : Option (String → String)) {docs : List Value} (h : startsWithText docs = true) :
    ∃ index, build keys (.list docs) extract normalize = .ok index ∧
      Tracks keys extract normalize docs (docs.map (blank keys extract normalize).textBody?)
        index := by
  obtain ⟨text, rest, rfl⟩ : ∃ text rest, docs = .text text :: rest := by
    unfold startsWithText at h
    split at h
    · exact ⟨_, _, rfl⟩
    · exact Bool.noConfusion h
  refine ⟨_, rfl, ⟨rfl, rfl, rfl⟩, List.length_map _, ?_⟩
  exact (List.nil_append _).trans
    (filterMap_textRecord? { blank keys extract normalize with
      sources := .list (.text text :: rest), created := true } (.text text :: rest) 0)

/-- The index whose records are made from some documents. -/
def sourced (keys : List (Key α)) (extract : Extractor) (normalize : Option (String → String))
    (docs : List Value) : Index α :=
  { blank keys extract normalize with sources := .list docs, created := true }

omit [Weighting α] in
theorem alike_sourced (keys : List (Key α)) (extract : Extractor)
    (normalize : Option (String → String)) (docs : List Value) :
    (sourced keys extract normalize docs).Alike (blank keys extract normalize) :=
  ⟨rfl, rfl, rfl⟩

theorem fill_cons (keys : List (Key α)) (extract : Extractor)
    (normalize : Option (String → String)) {first : Value} (h : first.isText = false)
    (rest : List Value) :
    fill { empty extract normalize with keys := keys, sources := .list (first :: rest) }
      = let outcome :=
          (sourced keys extract normalize (first :: rest)).addFieldsFrom 0 [] (first :: rest)
        ({ sourced keys extract normalize (first :: rest) with records := outcome.1 },
          outcome.2) := by
  cases first <;> first | rfl | exact Bool.noConfusion h

/-- A collection that begins with something else than a text is indexed by fields. -/
theorem build_cons_eq_ok_iff {first : Value} (h : first.isText = false) {rest : List Value} :
    build keys (.list (first :: rest)) extract normalize = .ok index ↔
      ∃ records, (sourced keys extract normalize (first :: rest)).addFieldsFrom 0 [] (first :: rest)
          = (records, none) ∧
        index = { sourced keys extract normalize (first :: rest) with records := records } := by
  simp only [build, fill_cons keys extract normalize h rest]
  generalize (sourced keys extract normalize (first :: rest)).addFieldsFrom 0 [] (first :: rest)
    = outcome
  obtain ⟨records, failure⟩ := outcome
  cases failure with
  | some e => simp
  | none => simp [eq_comm]

/-- A collection that does not begin with a text has the bodies of its fields. -/
theorem build_eq_ok_iff_of_not_startsWithText {docs : List Value}
    (h : startsWithText docs = false) :
    (∀ index, build keys (.list docs) extract normalize = .ok index →
        ∃ bodies, List.Forall₂ (blank keys extract normalize).FieldsBody docs bodies ∧
          Tracks keys extract normalize docs bodies index) ∧
      ∀ bodies, List.Forall₂ (blank keys extract normalize).FieldsBody docs bodies →
        ∃ index, build keys (.list docs) extract normalize = .ok index ∧
          Tracks keys extract normalize docs bodies index := by
  cases docs with
  | nil =>
    refine ⟨fun index hindex => ⟨[], List.Forall₂.nil, ?_⟩, fun bodies hbodies => ?_⟩
    · obtain rfl := Except.ok.inj hindex
      exact ⟨⟨rfl, rfl, rfl⟩, rfl, rfl⟩
    · obtain rfl := List.forall₂_nil_left_iff.mp hbodies
      exact ⟨_, rfl, ⟨rfl, rfl, rfl⟩, rfl, rfl⟩
  | cons first rest =>
    have hfirst : first.isText = false := by
      cases first <;> first | rfl | exact Bool.noConfusion h
    have halike := (alike_sourced keys extract normalize (first :: rest)).growsLike
    have hfields : ∀ bodies, List.Forall₂
          (sourced keys extract normalize (first :: rest)).FieldsBody (first :: rest) bodies ↔
        List.Forall₂ (blank keys extract normalize).FieldsBody (first :: rest) bodies :=
      fun bodies => ⟨List.Forall₂.imp fun doc body => (halike.fieldsBody_iff doc body).mp,
        List.Forall₂.imp fun doc body => (halike.fieldsBody_iff doc body).mpr⟩
    simp only [build_cons_eq_ok_iff hfirst, addFieldsFrom_eq_ok_iff, hfields]
    constructor
    · rintro index ⟨records, ⟨bodies, hbodies, rfl⟩, rfl⟩
      exact ⟨bodies, hbodies, ⟨rfl, rfl, rfl⟩, hbodies.length_eq.symm, rfl⟩
    · intro bodies hbodies
      exact ⟨_, ⟨_, ⟨bodies, hbodies, rfl⟩, rfl⟩, ⟨rfl, rfl, rfl⟩, hbodies.length_eq.symm, rfl⟩

/-- Documents that are all texts have the bodies of texts, and documents that are all something else
the bodies of their fields. -/
theorem forall₂_describes_iff (index : Index α) (huniform : Uniform docs) :
    List.Forall₂ index.Describes docs bodies ↔
      if startsWithText docs then bodies = docs.map index.textBody?
      else List.Forall₂ index.FieldsBody docs bodies := by
  have hdescribes : ∀ doc ∈ docs, ∀ body, index.Describes doc body ↔
      if startsWithText docs then body = index.textBody? doc else index.FieldsBody doc body := by
    intro doc hdoc body
    unfold Describes
    rw [isText_of_uniform huniform doc hdoc]
  have hcongr : List.Forall₂ index.Describes docs bodies ↔
      List.Forall₂ (fun doc body => if startsWithText docs then body = index.textBody? doc
        else index.FieldsBody doc body) docs bodies := by
    rw [List.forall₂_iff_zip, List.forall₂_iff_zip]
    refine and_congr_right fun _ => forall₂_congr fun doc body => imp_congr_right fun hmem => ?_
    exact hdescribes doc (List.of_mem_zip hmem).1 body
  rw [hcongr]
  split_ifs
  · rw [@eq_comm _ bodies, ← List.forall₂_eq_eq_eq, List.forall₂_map_left_iff]
    exact ⟨List.Forall₂.imp fun _ _ => Eq.symm, List.Forall₂.imp fun _ _ => Eq.symm⟩
  · rfl

/-- **Building makes an index that tracks its documents**; the bodies of documents that are all
texts or all something else are those that they have by themselves. -/
theorem tracks_of_build (h : build keys (.list docs) extract normalize = .ok index) :
    ∃ bodies, Tracks keys extract normalize docs bodies index ∧
      List.Forall₂ (blank keys extract normalize).Makes docs bodies ∧
      (Uniform docs → List.Forall₂ (blank keys extract normalize).Describes docs bodies) := by
  cases htext : startsWithText docs with
  | true =>
    obtain ⟨index', hbuild, htracks⟩ := build_of_startsWithText keys extract normalize htext
    obtain rfl : index = index' := Except.ok.inj (h.symm.trans hbuild)
    refine ⟨_, htracks, ?_, fun huniform => ?_⟩
    · exact List.forall₂_map_right_iff.mpr (List.forall₂_same.mpr fun doc _ => Or.inl rfl)
    · rw [forall₂_describes_iff _ huniform, if_pos htext]
  | false =>
    obtain ⟨bodies, hbodies, htracks⟩ :=
      (build_eq_ok_iff_of_not_startsWithText htext).1 index h
    refine ⟨bodies, htracks, hbodies.imp fun doc body => Or.inr, fun huniform => ?_⟩
    rwa [forall₂_describes_iff _ huniform, if_neg (by rw [htext]; exact Bool.false_ne_true)]

/-- **Building from described documents gives the records that track them.** -/
theorem Tracks.build (huniform : Uniform docs)
    (hbodies : List.Forall₂ (blank keys extract normalize).Describes docs bodies) :
    ∃ index, Index.build keys (.list docs) extract normalize = .ok index ∧
      Tracks keys extract normalize docs bodies index := by
  rw [forall₂_describes_iff _ huniform] at hbodies
  split_ifs at hbodies with htext
  · rw [hbodies]
    exact build_of_startsWithText keys extract normalize htext
  · exact (build_eq_ok_iff_of_not_startsWithText (Bool.eq_false_iff.mpr htext)).2 bodies hbodies

end Index

end FuzzySearch
