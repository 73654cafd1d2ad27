import FuzzySearch.Proofs.Index.Growth
import Mathlib.Data.List.InsertIdx

/-!
# Appending without a position

A document that is added without a position gets the number of the records as its position
(`Index.Appended`).  A blank text takes up a position in a collection and has no record, so another
record can stand at that number already.

* `Index.pairwise_add_iff`, `Index.restored_iff`: what is added stands behind all other records, and
  removing it restores them, exactly when these stand in front of their number.
* `Appended.gapless`: additions and removals leave no gap in the positions.
* `Index.gapless_ofSpecs_iff`: an index has a gap when a collection of texts has a blank one in
  front of one that is not.
* `Index.appending_iff`: the positions of all indexes that an index becomes grow strictly exactly
  when it has no gap, and only then an addition can always be undone.
-/

namespace FuzzySearch

variable {α : Type}

/-! ### Records without a gap -/

/-- Every record of bodies that are all there stands as far on as its position. -/
theorem eq_numbered_iff (records : List (Record α)) (position : Int) :
    records = numbered position (records.map fun record => some record.body) ↔
      ∀ i record, records[i]? = some record → record.position = position + (i : Nat) := by
  induction records generalizing position with
  | nil => simp
  | cons first rest ih =>
    rw [List.map_cons, numbered_cons, Option.map_some, Option.toList_some, List.singleton_append,
      List.cons_eq_cons, ih (position + 1)]
    constructor
    · rintro ⟨hfirst, hrest⟩ i record hrecord
      cases i with
      | zero =>
        obtain rfl : first = record := by simpa using hrecord
        have := congrArg Record.position hfirst
        simpa using this
      | succ i =>
        have := hrest i record (by simpa using hrecord)
        push_cast
        omega
    · intro h
      refine ⟨?_, fun i record hrecord => ?_⟩
      · have := h 0 first rfl
        rw [Nat.cast_zero, add_zero] at this
        rw [← this]
      · have := h (i + 1) record (by simpa using hrecord)
        push_cast at this
        omega

/-- Different positions that fill a range are in order all positions of that range. -/
theorem eq_numbered_of_pairwise {records : List (Record α)} {position : Int}
    (hpairwise : (records.map (·.position)).Pairwise (· < ·))
    (hrange : ∀ record ∈ records,
      position ≤ record.position ∧ record.position < position + records.length) :
    records = numbered position (records.map fun record => some record.body) := by
  induction records generalizing position with
  | nil => rfl
  | cons record rest ih =>
    rw [List.map_cons, List.pairwise_cons, List.forall_mem_map] at hpairwise
    obtain ⟨hfirst, hrest⟩ := hpairwise
    obtain ⟨⟨hle, hlt⟩, hlater⟩ := List.forall_mem_cons.mp hrange
    rw [List.length_cons] at hlt hlater
    have hnumbered : rest = numbered (position + 1) (rest.map fun record => some record.body) := by
      refine ih hrest fun later hmem => ?_
      have hbehind := hfirst later hmem
      have hend := (hlater later hmem).2
      push_cast at hend
      omega
    have hposition : record.position = position := by
      cases rest with
      | nil =>
        simp at hlt
        omega
      | cons second others =>
        have hsecond : second.position = position + 1 := by
          rw [List.map_cons, numbered_cons] at hnumbered
          exact congrArg Record.position (List.cons.inj hnumbered).1
        have := hfirst second List.mem_cons_self
        omega
    rw [List.map_cons, numbered_cons, ← hnumbered, ← hposition]
    rfl

theorem numbered_eq_nil_iff {position : Int} {bodies : List (Option (RecordBody α))} :
    numbered position bodies = [] ↔ ∀ body ∈ bodies, body = none := by
  induction bodies generalizing position with
  | nil => simp
  | cons body bodies ih =>
    rw [numbered_cons, List.append_eq_nil_iff, ih, List.forall_mem_cons]
    cases body <;> simp

/-- The records of bodies leave no gap exactly when no body stands behind a missing one. -/
theorem lt_length_numbered_iff (position : Int) (bodies : List (Option (RecordBody α))) :
    (∀ record ∈ numbered position bodies,
        record.position < position + (numbered position bodies).length)
      ↔ bodies.Pairwise fun earlier later => earlier = none → later = none := by
  induction bodies generalizing position with
  | nil => simp
  | cons body bodies ih =>
    rw [List.pairwise_cons, ← ih (position + 1), numbered_cons]
    cases body with
    | some body =>
      have hlength : position + (numbered (position + 1) bodies).length + 1
          = position + 1 + (numbered (position + 1) bodies).length := by omega
      simp [← add_assoc, hlength]
      intro _
      omega
    | none =>
      rw [Option.map_none, Option.toList_none, List.nil_append]
      constructor
      -- records from the next position on would have to begin at this one
      · intro hend
        have hrecords : numbered (position + 1) bodies = [] := by
          have hbegin : ∀ record ∈ numbered (position + 1) bodies, position < record.position :=
            fun record hrecord => Int.lt_of_add_one_le (mem_numbered hrecord).1
          have hfull := eq_numbered_of_pairwise (pairwise_numbered (position + 1) bodies)
            fun record hrecord => ⟨(hbegin record hrecord).le, hend record hrecord⟩
          cases hcase : numbered (position + 1) bodies with
          | nil => rfl
          | cons first rest =>
            rw [hcase] at hfull hbegin
            have hfirst := (eq_numbered_iff _ position).mp hfull 0 first rfl
            have := hbegin first List.mem_cons_self
            omega
        rw [hrecords]
        exact ⟨fun body hbody _ => numbered_eq_nil_iff.mp hrecords body hbody,
          List.forall_mem_nil _⟩
      · rintro ⟨hnone, -⟩
        have hrecords : numbered (position + 1) bodies = [] :=
          numbered_eq_nil_iff.mpr fun body hbody => hnone body hbody rfl
        rw [hrecords]
        exact List.forall_mem_nil _

theorem map_body_numbered (position : Int) (bodies : List (RecordBody α)) :
    (numbered position (bodies.map some)).map (·.body) = bodies := by
  induction bodies generalizing position with
  | nil => rfl
  | cons body bodies ih =>
    rw [List.map_cons, numbered_cons, List.map_append, ih]
    rfl

theorem length_numbered (position : Int) (bodies : List (RecordBody α)) :
    (numbered position (bodies.map some)).length = bodies.length := by
  rw [← List.length_map (f := Record.body), map_body_numbered]

/-- A removal leaves the records alone exactly when they all stand in front of its position. -/
theorem map_shift_filter_eq_self_iff (position : Int) (records : List (Record α)) :
    (records.filter (·.position ≠ position)).map (Record.shift position) = records ↔
      ∀ record ∈ records, record.position < position := by
  constructor
  · intro h
    have hlength : (records.filter (·.position ≠ position)).length = records.length := by
      have := congrArg List.length h
      rwa [List.length_map] at this
    have hkept := List.length_filter_eq_length_iff.mp hlength
    rw [List.filter_eq_self.mpr hkept] at h
    have hshift := List.map_inj_left.mp (h.trans (List.map_id records).symm)
    intro record hrecord
    have hne : record.position ≠ position := of_decide_eq_true (hkept record hrecord)
    have hsame := congrArg Record.position (hshift record hrecord)
    rw [Record.shift_eq] at hsame
    split_ifs at hsame with hbehind
    · simp at hsame
    · omega
  · intro h
    have hkept : records.filter (·.position ≠ position) = records :=
      List.filter_eq_self.mpr fun record hrecord => decide_eq_true (h record hrecord).ne
    have hshift : ∀ record ∈ records, record.shift position = record := fun record hrecord =>
      if_neg (h record hrecord).le.not_gt
    rw [hkept, List.map_congr_left hshift, List.map_id']

namespace Index

/-- The positions of the records grow strictly, from zero on at the least. -/
structure Ordered (index : Index α) : Prop where
  pairwise : (index.records.map (·.position)).Pairwise (· < ·)
  nonneg : ∀ record ∈ index.records, 0 ≤ record.position

/-- The records have the positions from zero on, in order and without a gap. -/
def Gapless (index : Index α) : Prop :=
  ∀ (i : Nat) (record : Record α), index.records[i]? = some record → record.position = i

variable {index next longer : Index α}

theorem gapless_iff :
    index.Gapless ↔
      ∃ bodies : List (RecordBody α), index.records = numbered 0 (bodies.map some) := by
  have hnumbered : index.Gapless ↔
      index.records = numbered 0 (index.records.map fun record => some record.body) := by
    rw [eq_numbered_iff]
    simp only [Gapless, zero_add]
  rw [hnumbered]
  constructor
  · intro h
    refine ⟨index.records.map (·.body), ?_⟩
    rwa [List.map_map]
  · rintro ⟨bodies, h⟩
    have hbodies : index.records.map (·.body) = bodies := by rw [h, map_body_numbered]
    have hsome : index.records.map (fun record => some record.body) = bodies.map some := by
      rw [← hbodies, List.map_map]
      rfl
    rwa [hsome]

theorem Gapless.ordered (h : index.Gapless) : index.Ordered := by
  obtain ⟨bodies, hbodies⟩ := gapless_iff.mp h
  constructor
  · rw [hbodies]
    exact pairwise_numbered 0 (bodies.map some)
  · intro record hrecord
    rw [hbodies] at hrecord
    exact (mem_numbered hrecord).1

theorem Gapless.lt_size (h : index.Gapless) :
    ∀ record ∈ index.records, record.position < index.size := by
  intro record hrecord
  obtain ⟨i, hi⟩ := List.mem_iff_getElem?.mp hrecord
  obtain ⟨hlt, -⟩ := List.getElem?_eq_some_iff.mp hi
  rw [h i record hi]
  exact Int.ofNat_lt.mpr hlt

theorem Ordered.gapless_iff (h : index.Ordered) :
    index.Gapless ↔ ∀ record ∈ index.records, record.position < index.size := by
  refine ⟨Gapless.lt_size, fun hlt => ?_⟩
  have hrange : ∀ record ∈ index.records,
      0 ≤ record.position ∧ record.position < 0 + (index.records.length : Int) := by
    intro record hrecord
    rw [zero_add]
    exact ⟨h.nonneg record hrecord, hlt record hrecord⟩
  have hnumbered := eq_numbered_of_pairwise h.pairwise hrange
  refine Index.gapless_iff.mpr ⟨index.records.map (·.body), ?_⟩
  rwa [List.map_map]

/-! ### Removing -/

theorem Gapless.removeAt (h : index.Gapless) {position : Int}
    (hremove : index.removeAt position = .ok next) : next.Gapless := by
  obtain ⟨bodies, hbodies⟩ := Index.gapless_iff.mp h
  unfold Index.removeAt at hremove
  split_ifs at hremove with hnegative
  obtain rfl := Except.ok.inj hremove
  obtain ⟨i, rfl⟩ := Int.eq_ofNat_of_zero_le (not_lt.mp hnegative)
  by_cases hi : i < bodies.length
  · refine Index.gapless_iff.mpr ⟨bodies.eraseIdx i, ?_⟩
    have herase := numbered_eraseIdx 0 (bodies.map some) (i := i) (by rwa [List.length_map])
    rw [zero_add, ← hbodies, List.eraseIdx_map] at herase
    exact herase
  -- no record stands that far on
  · refine Index.gapless_iff.mpr ⟨bodies, ?_⟩
    rw [← hbodies]
    refine (map_shift_filter_eq_self_iff (i : Int) index.records).mpr fun record hrecord => ?_
    have hsize : index.size = bodies.length := by
      rw [size, hbodies, length_numbered]
    have := h.lt_size record hrecord
    omega

/-! ### Adding -/

variable [Weighting α]

/-- An addition puts one record behind the others, or none. -/
theorem exists_of_add_eq_ok {doc : Value} {position : Int}
    (h : index.add doc position = .ok longer) :
    ∃ body : Option (RecordBody α),
      longer.records = index.records ++ (body.map (Record.mk position)).toList := by
  rw [add_eq, map_eq_ok_iff] at h
  obtain ⟨added, hadded, rfl⟩ := h
  unfold additions at hadded
  split_ifs at hadded
  · obtain rfl := Except.ok.inj hadded
    refine ⟨index.textBody? doc, ?_⟩
    rw [textRecord?_eq]
    rfl
  · obtain ⟨record, hrecord, rfl⟩ := map_eq_ok_iff.mp hadded
    obtain ⟨body, -, rfl⟩ := (fieldsRecord_eq_ok_iff index doc position record).mp hrecord
    exact ⟨some body, rfl⟩

theorem Gapless.add (h : index.Gapless) {doc : Value}
    (hadd : index.add doc index.size = .ok longer) : longer.Gapless := by
  obtain ⟨bodies, hbodies⟩ := Index.gapless_iff.mp h
  obtain ⟨body, hlonger⟩ := exists_of_add_eq_ok hadd
  refine Index.gapless_iff.mpr ⟨bodies ++ body.toList, ?_⟩
  have hsize : index.size = bodies.length := by
    rw [size, hbodies, length_numbered]
  rw [hlonger, List.map_append, numbered_append, ← hbodies, List.length_map, zero_add, hsize]
  cases body <;> rfl

/-- The positions still grow strictly after an addition exactly when nothing was added or all
records stand in front of their number. -/
theorem pairwise_add_iff {doc : Value} (hadd : index.add doc index.size = .ok longer) :
    (longer.records.map (·.position)).Pairwise (· < ·) ↔
      (index.records.map (·.position)).Pairwise (· < ·) ∧
        (longer.records = index.records ∨
          ∀ record ∈ index.records, record.position < index.size) := by
  obtain ⟨body, hlonger⟩ := exists_of_add_eq_ok hadd
  cases body with
  | none =>
    rw [Option.map_none, Option.toList_none, List.append_nil] at hlonger
    simp [hlonger]
  | some body =>
    have hgrown : longer.records ≠ index.records := by
      intro hsame
      rw [hlonger] at hsame
      simp at hsame
    rw [or_iff_right hgrown, hlonger, List.map_append, List.pairwise_append]
    simp

/-- **An addition can be undone exactly when all records stand in front of their number**, whether a
record was added or not. -/
theorem restored_iff {doc : Value} (hadd : index.add doc index.size = .ok longer) :
    (longer.removeAt index.size).map records = .ok index.records ↔
      ∀ record ∈ index.records, record.position < index.size := by
  obtain ⟨body, hlonger⟩ := exists_of_add_eq_ok hadd
  rw [← map_shift_filter_eq_self_iff]
  have hremoved : longer.records.filter (·.position ≠ (index.size : Int))
      = index.records.filter (·.position ≠ (index.size : Int)) := by
    rw [hlonger, List.filter_append]
    cases body <;> simp
  rw [Index.removeAt, if_neg (by omega), hremoved]
  exact ⟨Except.ok.inj, congrArg Except.ok⟩

/-! ### Runs -/

/-- The indexes that removals, and additions without a position, make of an index. -/
inductive Appended (first : Index α) : Index α → Prop
  | first : Appended first first
  | add {index next : Index α} (doc : Value) :
      Appended first index → index.add doc index.size = .ok next → Appended first next
  | removeAt {index next : Index α} (position : Int) :
      Appended first index → index.removeAt position = .ok next → Appended first next

/-- **Additions and removals leave no gap.** -/
theorem Appended.gapless {first : Index α} (h : Appended first index) (hfirst : first.Gapless) :
    index.Gapless := by
  induction h with
  | first => exact hfirst
  | add doc _ hadd ih => exact ih.add hadd
  | removeAt position _ hremove ih => exact ih.removeAt hremove

/-! ### Indexes of collections -/

section specs

variable {specs : List (KeySpec α)} {docs : List Value} {extract : Extractor}
  {normalize : Option (String → String)}

theorem ordered_of_ofSpecs (h : ofSpecs specs (.list docs) extract normalize = .ok index) :
    index.Ordered := by
  obtain ⟨keys, -, hbuild⟩ := bind_eq_ok_iff.mp h
  obtain ⟨bodies, htracks, -⟩ := tracks_of_build hbuild
  exact ⟨htracks.pairwise, fun record hrecord => (htracks.mem_records hrecord).1⟩

/-- **An index has no gap exactly when no document is left out in front of another one.**  In
collections of texts those are left out that show no text or a blank one, and in other collections
none is. -/
theorem gapless_ofSpecs_iff (h : ofSpecs specs (.list docs) extract normalize = .ok index) :
    index.Gapless ↔ (startsWithText docs = true → docs.Pairwise fun earlier later =>
      index.indexable? earlier = none → index.indexable? later = none) := by
  obtain ⟨keys, -, hbuild⟩ := bind_eq_ok_iff.mp h
  -- a gap in the records is a missing body in front of another one
  have hbodies : ∀ bodies, Tracks keys extract normalize docs bodies index →
      (index.Gapless ↔ bodies.Pairwise fun earlier later => earlier = none → later = none) := by
    intro bodies htracks
    rw [(ordered_of_ofSpecs h).gapless_iff, ← lt_length_numbered_iff 0 bodies, size,
      htracks.records_eq]
    simp only [zero_add]
  cases htext : startsWithText docs with
  | true =>
    obtain ⟨index', hindex', htracks⟩ := build_of_startsWithText keys extract normalize htext
    obtain rfl : index = index' := Except.ok.inj (hbuild.symm.trans hindex')
    rw [hbodies _ htracks, List.pairwise_map]
    simp only [textBody?, Option.map_eq_none_iff, htracks.alike.growsLike.indexable?,
      forall_const]
  | false =>
    obtain ⟨bodies, hfields, htracks⟩ :=
      (build_eq_ok_iff_of_not_startsWithText htext).1 index hbuild
    have hsome : ∀ body ∈ bodies, body ≠ none := by
      intro body hbody
      obtain ⟨doc, -, fields, -, rfl⟩ := exists_of_mem_forall₂ hfields hbody
      exact Option.some_ne_none _
    rw [hbodies bodies htracks]
    refine iff_of_true (List.pairwise_of_forall_mem_list ?_) fun hfalse => ?_
    · intro earlier hearlier later _ hnone
      exact absurd hnone (hsome earlier hearlier)
    · exact absurd hfalse Bool.false_ne_true

omit [Weighting α] in
/-- A document is indexed as the text that it shows. -/
theorem indexable?_searchText {doc : Value} (h : index.indexable? doc ≠ none) :
    index.indexable? (.text doc.searchText) = index.indexable? doc := by
  have hscalar : doc.isScalar = true := by
    by_contra hscalar
    exact h (if_neg hscalar)
  unfold Index.indexable?
  rw [if_pos hscalar]
  rfl

/-- An index with a gap has a text to which it would give a record. -/
theorem exists_indexable_of_not_gapless
    (h : ofSpecs specs (.list docs) extract normalize = .ok index) (hgap : ¬ index.Gapless) :
    ∃ text, index.indexable? (.text text) ≠ none := by
  obtain ⟨doc, hdoc⟩ : ∃ doc, index.indexable? doc ≠ none := by
    by_contra hnone
    rw [not_exists_not] at hnone
    exact hgap ((gapless_ofSpecs_iff h).mpr fun _ =>
      List.pairwise_of_forall fun _ later _ => hnone later)
  rw [← indexable?_searchText hdoc] at hdoc
  exact ⟨doc.searchText, hdoc⟩

/-- **The positions remain in order exactly when there is no gap**, whatever is added without a
position and removed, and only then removing what was added restores the records each time. -/
theorem appending_iff (h : ofSpecs specs (.list docs) extract normalize = .ok index) :
    (index.records.map (·.position)).Pairwise (· < ·) ∧
      (index.Gapless ↔ (startsWithText docs = true → docs.Pairwise fun earlier later =>
        index.indexable? earlier = none → index.indexable? later = none)) ∧
      ((∀ next, Appended index next → (next.records.map (·.position)).Pairwise (· < ·))
        ↔ index.Gapless) ∧
      ((∀ next doc longer, Appended index next → next.add doc next.size = .ok longer →
          (longer.removeAt next.size).map records = .ok next.records) ↔ index.Gapless) := by
  have hordered := ordered_of_ofSpecs h
  refine ⟨hordered.pairwise, gapless_ofSpecs_iff h, ⟨fun hruns => ?_, fun hgapless => ?_⟩,
    ⟨fun hruns => ?_, fun hgapless => ?_⟩⟩
  · by_contra hgap
    obtain ⟨text, htext⟩ := exists_indexable_of_not_gapless h hgap
    obtain ⟨indexed, hindexed⟩ := Option.ne_none_iff_exists'.mp htext
    have hadd : index.add (.text text) index.size
        = .ok (index.withRecords
          (index.records ++ (index.textRecord? (.text text) index.size).toList)) := rfl
    have hpairwise := hruns _ (Appended.first.add _ hadd)
    rcases ((pairwise_add_iff hadd).mp hpairwise).2 with hsame | hlt
    -- the text has a record, so something was added
    · rw [textRecord?, hindexed] at hsame
      simp [withRecords] at hsame
    · exact hgap (hordered.gapless_iff.mpr hlt)
  · intro next hnext
    exact (hnext.gapless hgapless).ordered.pairwise
  · have hadd : ∃ longer, index.add (.text "") index.size = .ok longer := ⟨_, rfl⟩
    obtain ⟨longer, hlonger⟩ := hadd
    exact hordered.gapless_iff.mpr
      ((restored_iff hlonger).mp (hruns index _ longer Appended.first hlonger))
  · intro next doc longer hnext hadd
    exact (restored_iff hadd).mpr (hnext.gapless hgapless).lt_size

end specs

/-- A blank text at the end of a collection leaves no gap. -/
theorem appending_behind_blank_text :
    ∃ index : Index Float,
      ofSpecs [] (.list [.text "kiwi", .text " "]) standardExtractor none = .ok index ∧
        ∀ next, Appended index next → (next.records.map (·.position)).Pairwise (· < ·) := by
  refine ⟨_, rfl, ?_⟩
  have h := @appending_iff Float _ _ [] [.text "kiwi", .text " "] standardExtractor none rfl
  refine h.2.2.1.mpr (h.2.1.mpr fun _ => ?_)
  decide

/-- Behind a blank text in front, the first document that is added gets a position that another
record has. -/
theorem appended_at_taken_position :
    ∃ index longer : Index Float,
      ofSpecs [] (.list [.text " ", .text "kiwi"]) standardExtractor none = .ok index ∧
        index.add (.text "fig") index.size = .ok longer ∧
        index.records.map (·.position) = [1] ∧ longer.records.map (·.position) = [1, 1] ∧
        (longer.removeAt index.size).map records = .ok [] :=
  ⟨_, _, rfl, rfl, rfl, rfl, rfl⟩

end Index

end FuzzySearch
