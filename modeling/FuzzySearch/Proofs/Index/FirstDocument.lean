import FuzzySearch.Proofs.Index.Growth

/-!
# The first document decides

The first document of a collection decides whether all of them are indexed as texts or by their
fields (`Index.ofSpecs_concat`), whereas a document that is added decides for itself
(`Index.records_ofSpecs_add`).  The two ways of indexing a document never give the same records, not
even for a blank text (`Index.recordsAs_ne`).  So adding a document agrees with building anew exactly
when the document is of the kind of the first one (`Index.records_add_eq_iff`), which the standard
extractor decides without a failure (`Index.added_like_rebuilt_iff`).
-/

namespace FuzzySearch

namespace Index

variable {α : Type} [Weighting α]

/-! ### The two ways of indexing a document -/

/-- The records that a document makes when it is indexed as a text, or by its fields. -/
def recordsAs (asText : Bool) (index : Index α) (doc : Value) (position : Int) :
    Except SearchError (List (Record α)) :=
  if asText then .ok (index.textRecord? doc position).toList
  else (index.fieldsRecord doc position).map fun record => [record]

theorem recordsAs_isText (index : Index α) (doc : Value) (position : Int) :
    recordsAs doc.isText index doc position = index.additions doc position := rfl

theorem GrowsLike.recordsAs {index other : Index α} (h : index.GrowsLike other) (asText : Bool)
    (doc : Value) (position : Int) :
    Index.recordsAs asText index doc position = Index.recordsAs asText other doc position := by
  unfold Index.recordsAs fieldsRecord
  rw [textRecord?_eq, textRecord?_eq, h.textBody?, h.fieldsFrom doc 0 h.paths_eq]

/-- **A document makes other records as a text than by its fields**: a blank one makes none as a
text, and one without any field otherwise. -/
theorem recordsAs_ne (index : Index α) (doc : Value) (position : Int) {one other : Bool}
    (h : one ≠ other) :
    recordsAs one index doc position ≠ recordsAs other index doc position := by
  have hne : recordsAs true index doc position ≠ recordsAs false index doc position := by
    intro heq
    obtain ⟨record, hrecord, hlist⟩ := map_eq_ok_iff.mp heq.symm
    obtain ⟨body, ⟨fields, -, hbody⟩, rfl⟩ :=
      (fieldsRecord_eq_ok_iff index doc position record).mp hrecord
    obtain rfl := Option.some.inj hbody
    have hmem : (⟨position, .fields fields⟩ : Record α) ∈ (index.textRecord? doc position).toList :=
      hlist ▸ List.mem_singleton_self _
    obtain ⟨text, -, htext⟩ := Option.map_eq_some_iff.mp (Option.mem_toList.mp hmem)
    cases htext
  cases one <;> cases other
  · exact absurd rfl h
  · exact hne.symm
  · exact hne
  · exact absurd rfl h

/-! ### Building with one document more -/

/-- The records that the documents of a collection make, all of them in the same way. -/
def recordsOfAll (asText : Bool) (index : Index α) (docs : List Value) :
    Except SearchError (List (Record α)) :=
  if asText then .ok (docs.zipIdx.filterMap fun entry => index.textRecord? entry.1 entry.2)
  else
    match index.addFieldsFrom 0 [] docs with
    | (records, none) => .ok records
    | (_, some e) => .error e

theorem addFieldsFrom_concat (index : Index α) (position : Int) (made : List (Record α))
    (docs : List Value) (doc : Value) :
    index.addFieldsFrom position made (docs ++ [doc])
      = match index.addFieldsFrom position made docs with
        | (records, some e) => (records, some e)
        | (records, none) =>
          match index.fieldsRecord doc (position + docs.length) with
          | .ok record => (records ++ [record], none)
          | .error e => (records, some e) := by
  -- the records made so far are carried along, in reverse
  induction docs generalizing position made with
  | nil =>
    rw [List.nil_append, List.length_nil, Nat.cast_zero, add_zero]
    simp only [addFieldsFrom]
    cases index.fieldsRecord doc position with
    | error e => rfl
    | ok record => simp
  | cons first rest ih =>
    rw [List.cons_append, List.length_cons, Nat.cast_succ, ← add_assoc, add_right_comm]
    simp only [addFieldsFrom]
    cases index.fieldsRecord first position with
    | error e => rfl
    | ok record => exact ih (position + 1) (record :: made)

theorem recordsOfAll_concat (asText : Bool) (index : Index α) (docs : List Value) (doc : Value) :
    recordsOfAll asText index (docs ++ [doc])
      = recordsOfAll asText index docs >>= fun records =>
          (recordsAs asText index doc docs.length).map (records ++ ·) := by
  cases asText with
  | true =>
    show Except.ok _ = Except.ok _
    rw [List.zipIdx_append, List.filterMap_append, Nat.zero_add]
    refine congrArg (fun added => Except.ok (_ ++ added)) ?_
    cases hrecord : index.textRecord? doc docs.length with
    | none => exact List.filterMap_cons_none hrecord
    | some record => exact List.filterMap_cons_some hrecord
  | false =>
    simp only [recordsOfAll, recordsAs, Bool.false_eq_true, if_false, addFieldsFrom_concat, zero_add]
    obtain ⟨records, failure⟩ := index.addFieldsFrom 0 [] docs
    cases failure with
    | some e => rfl
    | none =>
      show _ = ((index.fieldsRecord doc docs.length).map _).map _
      cases index.fieldsRecord doc docs.length <;> rfl

/-- The first document decides how the documents of a collection make records. -/
theorem records_build (keys : List (Key α)) (extract : Extractor)
    (normalize : Option (String → String)) (first : Value) (rest : List Value) :
    (build keys (.list (first :: rest)) extract normalize).map records
      = recordsOfAll first.isText (sourced keys extract normalize (first :: rest))
          (first :: rest) := by
  cases hfirst : first.isText with
  | true =>
    obtain ⟨text, rfl⟩ : ∃ text, first = .text text := by
      cases first <;> first | exact ⟨_, rfl⟩ | exact Bool.noConfusion hfirst
    show Except.ok _ = Except.ok _
    exact congrArg Except.ok (List.nil_append _)
  | false =>
    simp only [build, fill_cons keys extract normalize hfirst rest, recordsOfAll,
      Bool.false_eq_true, if_false]
    generalize (sourced keys extract normalize (first :: rest)).addFieldsFrom 0 [] (first :: rest)
      = outcome
    obtain ⟨records, failure⟩ := outcome
    cases failure <;> rfl

theorem recordsOfAll_congr {index other : Index α} (h : index.GrowsLike other) (asText : Bool)
    (docs : List Value) : recordsOfAll asText index docs = recordsOfAll asText other docs := by
  induction docs using List.reverseRecOn with
  | nil => cases asText <;> rfl
  | append_singleton docs doc ih =>
    rw [recordsOfAll_concat, recordsOfAll_concat, ih]
    simp only [h.recordsAs]

/-- **The first document decides which records a further one makes.** -/
theorem records_build_concat (keys : List (Key α)) (extract : Extractor)
    (normalize : Option (String → String)) (first : Value) (rest : List Value) (doc : Value) :
    (build keys (.list (first :: rest ++ [doc])) extract normalize).map records
      = (build keys (.list (first :: rest)) extract normalize).map records >>= fun before =>
          (recordsAs first.isText (blank keys extract normalize) doc (first :: rest).length).map
            (before ++ ·) := by
  have hlike := (alike_sourced keys extract normalize (first :: rest)).growsLike
  have hlonger := (alike_sourced keys extract normalize (first :: rest ++ [doc])).growsLike
  rw [List.cons_append, records_build, ← List.cons_append, recordsOfAll_congr hlonger,
    recordsOfAll_concat, records_build, recordsOfAll_congr hlike]

/-! ### Adding and building anew -/

section specs

variable (specs : List (KeySpec α)) (extract : Extractor) (normalize : Option (String → String))
  (first : Value) (rest : List Value) (doc : Value)

/-- Building with one document more makes the records of before and those that the document makes in
the way of the first one. -/
theorem ofSpecs_concat :
    (ofSpecs specs (.list (first :: rest ++ [doc])) extract normalize
        : Except SearchError (Index α)).map records
      = ofSpecs specs (.list (first :: rest)) extract normalize >>= fun index =>
          (recordsAs first.isText index doc (first :: rest).length).map (index.records ++ ·) := by
  unfold ofSpecs
  cases specs.mapM (Key.ofSpec (α := α)) with
  | error e => rfl
  | ok keys =>
    show (build keys _ extract normalize).map records = build keys _ extract normalize >>= _
    rw [records_build_concat]
    cases hbuild : build keys (.list (first :: rest)) extract normalize with
    | error e => rfl
    | ok index =>
      obtain ⟨bodies, htracks, -⟩ := tracks_of_build hbuild
      rw [← htracks.alike.growsLike.recordsAs]
      rfl

/-- Building and then adding a document makes the records of before and those that the document
makes in its own way. -/
theorem records_ofSpecs_add (docs : List Value) :
    ((ofSpecs specs (.list docs) extract normalize : Except SearchError (Index α)) >>= fun index =>
        index.add doc docs.length).map records
      = ofSpecs specs (.list docs) extract normalize >>= fun index =>
          (recordsAs doc.isText index doc docs.length).map (index.records ++ ·) := by
  cases ofSpecs (α := α) specs (.list docs) extract normalize with
  | error e => rfl
  | ok index =>
    show (index.add doc docs.length).map records = (recordsAs _ index doc _).map _
    rw [add_eq, recordsAs_isText]
    cases index.additions doc docs.length <;> rfl

/-- **Adding a document agrees with building anew exactly when the document is of the kind of the
first one**, unless there is nothing to add to. -/
theorem records_add_eq_iff :
    ((ofSpecs specs (.list (first :: rest)) extract normalize : Except SearchError (Index α)) >>=
        fun index => index.add doc (first :: rest).length).map records
      = (ofSpecs specs (.list (first :: rest ++ [doc])) extract normalize
          : Except SearchError (Index α)).map records ↔
      (∃ e, (ofSpecs specs (.list (first :: rest)) extract normalize
        : Except SearchError (Index α)) = .error e) ∨ doc.isText = first.isText := by
  rw [records_ofSpecs_add, ofSpecs_concat]
  cases ofSpecs (α := α) specs (.list (first :: rest)) extract normalize with
  | error e => exact iff_of_true rfl (Or.inl ⟨e, rfl⟩)
  | ok index =>
    show (recordsAs doc.isText index doc _).map _ = (recordsAs first.isText index doc _).map _ ↔ _
    constructor
    · intro heq
      have hsame := map_injective (List.append_right_injective index.records) heq
      exact Or.inr (not_not.mp fun hne => recordsAs_ne index doc _ hne hsame)
    · rintro (⟨e, he⟩ | hkind)
      · cases he
      · rw [hkind]

end specs

/-! ### The standard extractor -/

section total

variable {index : Index α} (h : ∀ doc path, ∃ v, index.extract doc path = .ok v)

include h

/-- An extractor that never fails finds the entries of every document. -/
theorem exists_fieldsFrom (doc : Value) (number : Int) (keys : List (Key α)) :
    ∃ fields, index.fieldsFrom doc number keys = .ok fields := by
  induction keys generalizing number with
  | nil => exact ⟨[], rfl⟩
  | cons key keys ih =>
    obtain ⟨v, hv⟩ := h doc key.path
    obtain ⟨others, hothers⟩ := ih (number + 1)
    simp only [fieldsFrom, bind_eq_ok_iff]
    cases hentry : index.fieldEntry? v with
    | none => exact ⟨others, v, hv, others, hothers, by rw [hentry]; rfl⟩
    | some entry => exact ⟨(number, entry) :: others, v, hv, others, hothers, by rw [hentry]; rfl⟩

theorem exists_recordsAs (asText : Bool) (doc : Value) (position : Int) :
    ∃ records, recordsAs asText index doc position = .ok records := by
  obtain ⟨fields, hfields⟩ := exists_fieldsFrom h doc 0 index.keys
  cases asText with
  | true => exact ⟨_, rfl⟩
  | false =>
    refine ⟨[⟨position, .fields fields⟩], map_eq_ok_iff.mpr ⟨⟨position, .fields fields⟩, ?_, rfl⟩⟩
    exact bind_eq_ok_iff.mpr ⟨fields, hfields, rfl⟩

theorem exists_recordsOfAll (asText : Bool) (docs : List Value) :
    ∃ records, recordsOfAll asText index docs = .ok records := by
  induction docs using List.reverseRecOn with
  | nil => cases asText <;> exact ⟨[], rfl⟩
  | append_singleton docs doc ih =>
    obtain ⟨before, hbefore⟩ := ih
    obtain ⟨added, hadded⟩ := exists_recordsAs h asText doc docs.length
    rw [recordsOfAll_concat]
    exact ⟨before ++ added,
      bind_eq_ok_iff.mpr ⟨before, hbefore, map_eq_ok_iff.mpr ⟨added, hadded, rfl⟩⟩⟩

end total

/-- The standard extractor lets every collection be indexed. -/
theorem exists_build (keys : List (Key α)) (normalize : Option (String → String)) (first : Value)
    (rest : List Value) :
    ∃ index, build keys (.list (first :: rest)) standardExtractor normalize = .ok index := by
  have htotal : ∀ doc path, ∃ v,
      (sourced keys standardExtractor normalize (first :: rest)).extract doc path = .ok v :=
    fun doc path => ⟨_, rfl⟩
  obtain ⟨records, hrecords⟩ := exists_recordsOfAll htotal first.isText (first :: rest)
  rw [← records_build] at hrecords
  obtain ⟨index, hindex, -⟩ := map_eq_ok_iff.mp hrecords
  exact ⟨index, hindex⟩

/-- **An addition makes the records of building anew exactly when the document is of the kind of the
first one.**  Nothing fails, unless the keys cannot be made. -/
theorem added_like_rebuilt_iff (specs : List (KeySpec α)) (normalize : Option (String → String))
    (first : Value) (rest : List Value) (doc : Value) :
    (∃ e, specs.mapM (Key.ofSpec (α := α)) = .error e ∧
        ∀ docs, (ofSpecs specs docs standardExtractor normalize
          : Except SearchError (Index α)) = .error e) ∨
      ∃ index grown rebuilt : Index α,
        ofSpecs specs (.list (first :: rest)) standardExtractor normalize = .ok index ∧
          index.add doc (first :: rest).length = .ok grown ∧
          ofSpecs specs (.list (first :: rest ++ [doc])) standardExtractor normalize = .ok rebuilt ∧
          (grown.records = rebuilt.records ↔ doc.isText = first.isText) := by
  cases hkeys : specs.mapM (Key.ofSpec (α := α)) with
  | error e =>
    refine Or.inl ⟨e, rfl, fun docs => ?_⟩
    rw [ofSpecs, hkeys]
    rfl
  | ok keys =>
    obtain ⟨index, hindex⟩ := exists_build keys normalize first rest
    obtain ⟨rebuilt, hrebuilt⟩ := exists_build keys normalize first (rest ++ [doc])
    have hbuilt : ofSpecs specs (.list (first :: rest)) standardExtractor normalize = .ok index :=
      bind_eq_ok_iff.mpr ⟨keys, hkeys, hindex⟩
    have hanew : ofSpecs specs (.list (first :: rest ++ [doc])) standardExtractor normalize
        = .ok rebuilt := bind_eq_ok_iff.mpr ⟨keys, hkeys, hrebuilt⟩
    -- the index takes in every document as well
    obtain ⟨bodies, htracks, -⟩ := tracks_of_build hindex
    have htotal : ∀ doc path, ∃ v, index.extract doc path = .ok v := fun doc path =>
      ⟨_, congrFun (congrFun htracks.alike.extract_eq doc) path⟩
    obtain ⟨added, hadded⟩ := exists_recordsAs htotal doc.isText doc (first :: rest).length
    have hadd : index.add doc (first :: rest).length
        = .ok (index.withRecords (index.records ++ added)) := by
      rw [add_eq, ← recordsAs_isText, hadded]
      rfl
    refine Or.inr ⟨index, _, rebuilt, hbuilt, hadd, hanew, ?_⟩
    have hiff := records_add_eq_iff (α := α) specs standardExtractor normalize first rest doc
    rw [hbuilt, hanew, show (Except.ok index >>= fun index => index.add doc (first :: rest).length)
      = .ok (index.withRecords (index.records ++ added)) from hadd] at hiff
    simpa [Except.map] using hiff

/-- A number that is added to a text makes a record without fields; behind a text from the start it
is indexed as a text. -/
theorem number_behind_a_text :
    ∃ index grown rebuilt : Index Float,
      ofSpecs [] (.list [.text "kiwi"]) standardExtractor none = .ok index ∧
        index.add (.int 5) 1 = .ok grown ∧
        ofSpecs [] (.list [.text "kiwi", .int 5]) standardExtractor none = .ok rebuilt ∧
        grown.records = [⟨0, .text (.text "kiwi") (textNorm "kiwi")⟩, ⟨1, .fields []⟩] ∧
        rebuilt.records = [⟨0, .text (.text "kiwi") (textNorm "kiwi")⟩,
          ⟨1, .text (.text "5") (textNorm "5")⟩] ∧
        grown.records ≠ rebuilt.records := by
  refine ⟨_, _, _, rfl, rfl, rfl, rfl, rfl, fun heq => ?_⟩
  have hbody := congrArg (List.map Record.body) heq
  cases (List.cons.inj (List.cons.inj hbody).2).1

end Index

end FuzzySearch
