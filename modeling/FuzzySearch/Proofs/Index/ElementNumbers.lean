import FuzzySearch.Proofs.Engine.Matches
import FuzzySearch.Proofs.Index.FirstDocument
import FuzzySearch.Proofs.Value.Walk

/-!
# The numbers of elements

A text that comes from an element of a list is indexed with a number.  When one list is met along
the path of a key (`Value.MeetsOneList`), the texts of its elements are found first, and those that
were found are numbered; so the number of a text counts the elements with a text in front of its own
(`rank`, `mem_entriesOf_iff`).  It is the position of the element exactly if all of them have one.

`Index.elements_named_iff` says this of the record that a document has in an index, whether the
index was built or the document was added: the numbers name the right elements, in the index and in
the matches of a search, exactly if no element without a text stands in front of an indexed one.
-/

namespace FuzzySearch

/-! ### Counting what was found -/

section rank

variable {β γ : Type} (f : β → Option γ)

/-- The number of items in front of a position for which something is found. -/
def rank (items : List β) (p : Nat) : Nat :=
  (items.take p).countP fun item => (f item).isSome

variable {f} {items : List β}

@[simp] theorem rank_zero : rank f items 0 = 0 := rfl

theorem rank_cons_succ (item : β) (p : Nat) :
    rank f (item :: items) (p + 1) = rank f items p + if (f item).isSome then 1 else 0 := by
  rw [rank, List.take_succ_cons, List.countP_cons]
  rfl

theorem rank_mono {p q : Nat} (h : p ≤ q) : rank f items p ≤ rank f items q :=
  (List.take_prefix_take_left h).sublist.countP_le

/-- **What is found for the items of a list, one after the other**, is numbered by the items in front
for which something is found. -/
theorem getElem?_filterMap_iff {k : Nat} {t : γ} :
    (items.filterMap f)[k]? = some t ↔
      ∃ p item, items[p]? = some item ∧ f item = some t ∧ rank f items p = k := by
  induction items generalizing k with
  | nil => simp
  | cons first items ih =>
    constructor
    · intro h
      cases hfirst : f first with
      | none =>
        rw [List.filterMap_cons_none hfirst] at h
        obtain ⟨p, item, hitem, hf, hrank⟩ := ih.mp h
        refine ⟨p + 1, item, hitem, hf, ?_⟩
        rw [rank_cons_succ, hfirst, hrank]
        rfl
      | some y =>
        rw [List.filterMap_cons_some hfirst] at h
        cases k with
        | zero => exact ⟨0, first, rfl, hfirst.trans h, rfl⟩
        | succ k =>
          obtain ⟨p, item, hitem, hf, hrank⟩ := ih.mp h
          refine ⟨p + 1, item, hitem, hf, ?_⟩
          rw [rank_cons_succ, hfirst, hrank]
          rfl
    · rintro ⟨p, item, hitem, hf, rfl⟩
      cases p with
      | zero =>
        obtain rfl := Option.some.inj hitem
        rw [List.filterMap_cons_some hf]
        rfl
      | succ p =>
        rw [rank_cons_succ]
        cases hfirst : f first with
        | none =>
          rw [List.filterMap_cons_none hfirst]
          exact ih.mpr ⟨p, item, hitem, hf, rfl⟩
        | some y =>
          rw [List.filterMap_cons_some hfirst]
          exact ih.mpr ⟨p, item, hitem, hf, rfl⟩

theorem rank_of_forall {p : Nat} (hp : p ≤ items.length)
    (h : ∀ i item, i < p → items[i]? = some item → (f item).isSome) : rank f items p = p := by
  have hall : ∀ item ∈ items.take p, (f item).isSome = true := by
    intro item hitem
    obtain ⟨i, hi⟩ := List.mem_iff_getElem?.mp hitem
    rw [List.getElem?_take] at hi
    split_ifs at hi with hlt
    exact h i item hlt hi
  rw [rank, List.countP_eq_length.mpr hall, List.length_take_of_le hp]

theorem rank_lt_of_none {p i : Nat} {item : β} (hi : i < p) (hitem : items[i]? = some item)
    (hnone : f item = none) : rank f items p < p := by
  have hmem : item ∈ items.take p := by
    rw [List.mem_iff_getElem?]
    exact ⟨i, by rw [List.getElem?_take, if_pos hi, hitem]⟩
  have hlt : rank f items p < (items.take p).length := by
    refine lt_of_le_of_ne List.countP_le_length fun heq => ?_
    have := List.countP_eq_length.mp heq item hmem
    rw [hnone] at this
    cases this
  exact lt_of_lt_of_le hlt (List.length_take_le p items)

/-- **Counting what was found gives positions exactly if nothing is missing in front.**  Here `kept`
are the items that are asked for; each of them has to be found again under its number. -/
theorem rank_names_iff {kept : γ → Prop} :
    (∀ p item t, items[p]? = some item → f item = some t → kept t →
        ∃ named, items[rank f items p]? = some named ∧ f named = some t) ↔
      items.Pairwise fun item later => (∃ t, f later = some t ∧ kept t) → (f item).isSome := by
  rw [List.pairwise_iff_getElem]
  constructor
  · intro h
    suffices hsuff : ∀ j later t, items[j]? = some later → f later = some t → kept t →
        ∀ i item, i < j → items[i]? = some item → (f item).isSome by
      rintro i j hi hj hij ⟨t, ht, hkept⟩
      exact hsuff j _ t (List.getElem?_eq_getElem hj) ht hkept i _ hij
        (List.getElem?_eq_getElem hi)
    -- a number that is too small names an item in front, for which the statement holds already
    intro j
    induction j using Nat.strong_induction_on with
    | _ j ih =>
      intro later t hlater ht hkept i item hij hitem
      by_contra hmissing
      obtain ⟨named, hnamed, hsame⟩ := h j later t hlater ht hkept
      have hlt : rank f items j < j :=
        rank_lt_of_none hij hitem (Option.not_isSome_iff_eq_none.mp hmissing)
      have hfront := ih _ hlt named t hnamed hsame hkept
      have hall : ∀ i item, i < rank f items j + 1 → items[i]? = some item → (f item).isSome := by
        intro i item hi hitem
        rcases Nat.lt_succ_iff_lt_or_eq.mp hi with hi | rfl
        · exact hfront i item hi hitem
        · obtain rfl := Option.some.inj (hitem.symm.trans hnamed)
          rw [hsame]
          rfl
      have hlength := (List.getElem?_eq_some_iff.mp hnamed).1
      have hrank : rank f items (rank f items j + 1) = rank f items j + 1 :=
        rank_of_forall (Nat.succ_le_of_lt hlength) hall
      have hmono : rank f items (rank f items j + 1) ≤ rank f items j :=
        rank_mono (Nat.succ_le_of_lt hlt)
      omega
  · intro h p item t hitem ht hkept
    obtain ⟨hp, rfl⟩ := List.getElem?_eq_some_iff.mp hitem
    have hrank : rank f items p = p := by
      refine rank_of_forall hp.le fun i earlier hi hearlier => ?_
      obtain ⟨hlt, rfl⟩ := List.getElem?_eq_some_iff.mp hearlier
      exact h i p hlt hp hi ⟨t, ht, hkept⟩
    rw [hrank]
    exact ⟨_, hitem, ht⟩

end rank

/-! ### One list along a path -/

/-- The text that was found, if it is a single one. -/
def PathValue.text? : PathValue → Option String
  | single text => some text
  | _ => none

namespace Value

/-- The first list that stands under a name along a path, with the rest of the path. -/
def listAlong? (v : Value) : List String → Option (List Value × List String)
  | [] => none
  | name :: rest =>
    match v.child? name with
    | none => none
    | some child =>
      match child.items? with
      | some items => some (items, rest)
      | none => child.listAlong? rest

/-- One list is met along a path: these items, from each of which the rest of the path leads over no
further list. -/
structure MeetsOneList (v : Value) (path : List String) (items : List Value)
    (rest : List String) : Prop where
  listAlong?_eq : v.listAlong? path = some (items, rest)
  items?_eq : ∀ item ∈ items, item.items? = none
  crosses_eq : ∀ item ∈ items, item.crosses rest = false

/-- The text that a path leads to from an element. -/
def textAt? (item : Value) (rest : List String) : Option String := (valueAt item rest).text?

theorem walk_of_listAlong? {v : Value} {path rest : List String} {items : List Value}
    (h : v.listAlong? path = some (items, rest)) :
    v.walk path = items.flatMap (walk · rest) ∧ v.crosses path = true := by
  induction path generalizing v with
  | nil => cases h
  | cons name path ih =>
    rw [listAlong?] at h
    rw [walk_cons, crosses]
    cases hchild : v.child? name with
    | none => simp [hchild] at h
    | some child =>
      rw [hchild] at h
      cases hitems : child.items? with
      | some found =>
        simp only [hitems] at h
        obtain ⟨rfl, rfl⟩ := Prod.mk.inj (Option.some.inj h)
        simp [hitems]
      | none =>
        simp only [hitems] at h
        simpa [hitems] using ih h

/-- Without a list on the way an element leads to its text, or to none. -/
theorem walk_eq_toList {item : Value} {rest : List String} (hitems : item.items? = none)
    (hcrosses : item.crosses rest = false) : item.walk rest = (item.textAt? rest).toList := by
  have hlength : (item.walk rest).length ≤ 1 := by
    cases rest with
    | nil =>
      rw [walk_nil, hitems]
      split_ifs <;> simp
    | cons name rest => exact length_walk_le_one hcrosses
  rw [textAt?, valueAt_eq_pathValue, hcrosses]
  match hwalk : item.walk rest, hlength with
  | [], _ => rfl
  | [_], _ => rfl

/-- **The texts along a path that meets one list are those of its elements.** -/
theorem MeetsOneList.valueAt_eq {v : Value} {path rest : List String} {items : List Value}
    (h : v.MeetsOneList path items rest) :
    valueAt v path = .many (items.filterMap (·.textAt? rest)) := by
  obtain ⟨hwalk, hcrosses⟩ := walk_of_listAlong? h.listAlong?_eq
  have htexts : items.flatMap (walk · rest) = items.filterMap (·.textAt? rest) := by
    rw [List.filterMap_eq_flatMap_toList]
    refine List.flatMap_congr fun item hitem => ?_
    exact walk_eq_toList (h.items?_eq item hitem) (h.crosses_eq item hitem)
  rw [valueAt_eq_pathValue, hcrosses, hwalk, htexts]
  rfl

end Value

/-! ### Numbered texts -/

/-- A text that carries the position of an element with this text. -/
def NamesElement {α : Type} (items : List Value) (rest : List String) (entry : IndexedText α) :
    Prop :=
  ∃ (p : Nat) (item : Value), entry.nested = some (p : Int) ∧ items[p]? = some item ∧
    item.textAt? rest = some entry.text

namespace Index

variable {α : Type}

/-- The texts of a list are leaves, each at its position. -/
theorem mem_leavesFrom_map_text {texts : List String} {position : Int} {leaf : Int × Value} :
    leaf ∈ leavesFrom position (texts.map .text) ↔
      ∃ (k : Nat) (t : String), texts[k]? = some t ∧ leaf = (position + k, .text t) := by
  induction texts generalizing position with
  | nil => simp [leavesFrom]
  | cons first texts ih =>
    have hleaf : leavesOf position (.text first) = [(position, .text first)] := by simp [leavesOf]
    rw [List.map_cons, leavesFrom, hleaf, List.singleton_append, List.mem_cons, ih]
    constructor
    · rintro (rfl | ⟨k, t, hk, rfl⟩)
      · exact ⟨0, first, rfl, by simp⟩
      · exact ⟨k + 1, t, hk, by rw [Nat.cast_succ, add_assoc, add_comm (1 : Int)]⟩
    · rintro ⟨k, t, hk, rfl⟩
      cases k with
      | zero =>
        obtain rfl := Option.some.inj hk
        exact Or.inl (by simp)
      | succ k => exact Or.inr ⟨k, t, hk, by rw [Nat.cast_succ, add_assoc, add_comm (1 : Int)]⟩

variable [Weighting α] {index : Index α}

/-- The entry of a list of texts. -/
def entriesOf (index : Index α) (texts : List String) : List (IndexedText α) :=
  (leavesFrom 0 (texts.map .text)).filterMap fun (position, leaf) =>
    (index.indexable? leaf).map fun text => indexed text (some position)

omit [Weighting α] in
theorem indexable?_text (h : index.normalize = none) (t : String) :
    index.indexable? (.text t) = if Text.isBlank t.toList then none else some t := by
  rw [indexable?, h]
  rfl

/-- **The texts of elements are numbered by the elements with a text in front of them**, and blank
ones are left out. -/
theorem mem_entriesOf_iff (h : index.normalize = none) {items : List Value} {rest : List String}
    {entry : IndexedText α} :
    entry ∈ index.entriesOf (items.filterMap (·.textAt? rest)) ↔
      ∃ p item text, items[p]? = some item ∧ item.textAt? rest = some text ∧
        Text.isBlank text.toList = false ∧
          entry = indexed text (some (rank (·.textAt? rest) items p : Int)) := by
  simp only [entriesOf, List.mem_filterMap, mem_leavesFrom_map_text, Option.map_eq_some_iff]
  constructor
  · rintro ⟨_, ⟨k, t, ht, rfl⟩, text, htext, rfl⟩
    rw [indexable?_text h, Option.ite_none_left_eq_some, Bool.not_eq_true,
      Option.some.injEq] at htext
    obtain ⟨hblank, rfl⟩ := htext
    obtain ⟨p, item, hitem, hfound, rfl⟩ := getElem?_filterMap_iff.mp ht
    exact ⟨p, item, t, hitem, hfound, hblank, by rw [zero_add]⟩
  · rintro ⟨p, item, text, hitem, hfound, hblank, rfl⟩
    refine ⟨_, ⟨_, text, getElem?_filterMap_iff.mpr ⟨p, item, hitem, hfound, rfl⟩, rfl⟩, text, ?_, ?_⟩
    · rw [indexable?_text h, hblank]
      rfl
    · rw [zero_add]

/-- The entry of a document under a key is made of what is found along the path of the key. -/
theorem entry?_of_fieldsFrom {doc : Value} {first : Int} {keys : List (Key α)}
    {fields : List (Int × IndexedField α)} (h : index.fieldsFrom doc first keys = .ok fields)
    {number : Nat} {key : Key α} (hkey : keys[number]? = some key) :
    ∃ v, index.extract doc key.path = .ok v ∧
      entry? fields (first + number) = index.fieldEntry? v := by
  induction keys generalizing first fields number with
  | nil => cases hkey
  | cons key' keys ih =>
    obtain ⟨v, hv, h⟩ := bind_eq_ok_iff.mp h
    obtain ⟨others, hothers, h⟩ := bind_eq_ok_iff.mp h
    -- the entries of the other keys carry greater numbers
    have hlater : ∀ entry ∈ others, first < entry.1 := by
      intro entry hentry
      have := (numbers_of_fieldsFrom hothers).2 entry hentry
      omega
    cases number with
    | zero =>
      obtain rfl := Option.some.inj hkey
      refine ⟨v, hv, ?_⟩
      rw [Nat.cast_zero, add_zero]
      split at h
      · rename_i entry hentry
        obtain rfl := pure_eq_ok_iff.mp h
        rw [hentry]
        simp [Index.entry?]
      · rename_i hentry
        obtain rfl := pure_eq_ok_iff.mp h
        rw [hentry, entry?, Option.map_eq_none_iff, List.find?_eq_none]
        intro entry hmem
        rw [beq_iff_eq]
        exact (hlater entry hmem).ne'
    | succ number =>
      obtain ⟨w, hw, hentry⟩ := ih hothers hkey
      refine ⟨w, hw, ?_⟩
      rw [Nat.cast_succ, add_comm (number : Int), ← add_assoc, ← hentry]
      split at h
      · obtain rfl := pure_eq_ok_iff.mp h
        rw [Index.entry?, Index.entry?, List.find?_cons_of_neg]
        rw [beq_iff_eq]
        show ¬first = first + 1 + number
        omega
      · obtain rfl := pure_eq_ok_iff.mp h
        rfl

/-! ### Documents that were indexed -/

/-- The record of a document in an index that was just built of a collection, or just added to, with
the standard extractor and without a change of texts. -/
inductive Filed (doc : Value) (record : Record α) : Index α → Prop
  | built {specs : List (KeySpec α)} {sources : Value} {asText : Bool} {docs : List Value} {k : Nat}
      {index : Index α} :
      ofSpecs specs sources standardExtractor none = .ok index →
      documents sources = .ok (asText, docs) → docs[k]? = some doc →
      record ∈ index.records → record.position = k → Filed doc record index
  | added {position : Int} {index next : Index α} :
      index.extract = standardExtractor → index.normalize = none →
      index.add doc position = .ok next → next.records = index.records ++ [record] →
      Filed doc record next

/-- A record with fields stands for the document at its position in the collection. -/
theorem fieldsFrom_of_mem_fill {next : Index α} (hfill : fill index = (next, none))
    (hempty : index.records = []) {record : Record α} (hrecord : record ∈ next.records)
    {fields : List (Int × IndexedField α)} (hbody : record.body = .fields fields) :
    ∃ asText docs, ∃ k : Nat, ∃ doc, documents index.sources = .ok (asText, docs) ∧
      docs[k]? = some doc ∧ record.position = k ∧ index.fieldsFrom doc 0 index.keys = .ok fields := by
  have hcreated : ({ index with created := true, records := [] } : Index α).GrowsLike index :=
    ⟨rfl, rfl, rfl⟩
  unfold Index.fill at hfill
  split_ifs at hfill
  · obtain rfl := congrArg Prod.fst hfill
    rw [hempty] at hrecord
    exact absurd hrecord List.not_mem_nil
  · simp only [hempty, List.nil_append] at hfill
    split at hfill
    · exact absurd (congrArg Prod.snd hfill) (Option.some_ne_none _)
    · -- texts are indexed as texts
      obtain rfl := congrArg Prod.fst hfill
      obtain ⟨⟨doc, k⟩, -, hmade⟩ := List.mem_filterMap.mp hrecord
      rw [textRecord?] at hmade
      obtain ⟨text, -, rfl⟩ := Option.map_eq_some_iff.mp hmade
      cases hbody
    · rename_i docs hdocs
      obtain ⟨hnext, hfailure⟩ := Prod.mk.inj hfill
      obtain ⟨bodies, hbodies, hmade⟩ :=
        (addFieldsFrom_eq_ok_iff _ 0 [] docs _).mp (Prod.ext rfl hfailure)
      have hnumbered : next.records = numbered 0 bodies := by
        rw [← hnext]
        exact hmade
      obtain ⟨k, hposition, hk⟩ := mem_numbered_iff.mp (hnumbered ▸ hrecord)
      obtain ⟨hlt, hget⟩ := List.getElem?_eq_some_iff.mp hk
      obtain ⟨fields', hfields, hsome⟩ := hbodies.get (hbodies.length_eq ▸ hlt) hlt
      refine ⟨false, docs, k, _, hdocs, List.getElem?_eq_getElem (hbodies.length_eq ▸ hlt), ?_, ?_⟩
      · rw [hposition, zero_add]
      · rw [List.get_eq_getElem, hget, hbody] at hsome
        obtain rfl := RecordBody.fields.inj (Option.some.inj hsome)
        rw [← hcreated.fieldsFrom _ 0 rfl]
        exact hfields

/-- The fields that a document has in an index are those that are found in it. -/
theorem Filed.fieldsFrom_eq {doc : Value} {record : Record α} (h : Filed doc record index)
    {fields : List (Int × IndexedField α)} (hbody : record.body = .fields fields) :
    index.extract = standardExtractor ∧ index.normalize = none ∧
      index.fieldsFrom doc 0 index.keys = .ok fields := by
  cases h with
  | @built specs sources asText docs k _ hbuilt hdocs hdoc hrecord hposition =>
    obtain ⟨keys, -, hbuild⟩ := bind_eq_ok_iff.mp hbuilt
    unfold build at hbuild
    simp only at hbuild
    split at hbuild
    · rename_i filled hfill
      obtain rfl := Except.ok.inj hbuild
      have halike := (of_fill_eq_none hfill).1
      obtain ⟨asText', docs', k', doc', hdocs', hdoc', hposition', hfields⟩ :=
        fieldsFrom_of_mem_fill hfill rfl hrecord hbody
      obtain ⟨-, rfl⟩ := Prod.mk.inj (Except.ok.inj (hdocs.symm.trans hdocs'))
      obtain rfl : k = k' := Int.ofNat.inj (hposition.symm.trans hposition')
      obtain rfl : doc = doc' := Option.some.inj (hdoc.symm.trans hdoc')
      refine ⟨halike.extract_eq, halike.normalize_eq, ?_⟩
      rw [halike.growsLike.fieldsFrom doc 0 halike.growsLike.paths_eq]
      exact hfields
    · cases hbuild
  | @added position before _ hextract hnormalize hadd hrecords =>
    rw [add_eq, map_eq_ok_iff] at hadd
    obtain ⟨added, hadded, rfl⟩ := hadd
    obtain rfl : added = [record] := List.append_cancel_left hrecords
    refine ⟨hextract, hnormalize, ?_⟩
    rcases (of_mem_additions hadded List.mem_cons_self).2 with htext | ⟨fields', hfields, hsome⟩
    · obtain ⟨text, -, hmade⟩ := Option.map_eq_some_iff.mp htext.symm
      rw [hbody] at hmade
      cases hmade
    · rw [hbody] at hsome
      obtain rfl := RecordBody.fields.inj (Option.some.inj hsome)
      have halike : (before.withRecords (before.records ++ [record])).GrowsLike before :=
        ⟨rfl, rfl, rfl⟩
      rw [halike.fieldsFrom doc 0 rfl]
      exact hfields

omit [Weighting α] in
theorem documents_of_not_startsWithText {docs : List Value} (h : startsWithText docs = false) :
    documents (.list docs) = .ok (false, docs) := by
  cases docs with
  | nil => rfl
  | cons first rest => cases first <;> first | rfl | exact Bool.noConfusion h

/-- In a collection of something else than texts each document has such a record. -/
theorem filed_of_built {specs : List (KeySpec α)} {docs : List Value}
    (hbuilt : ofSpecs specs (.list docs) standardExtractor none = .ok index)
    (hdocs : startsWithText docs = false) {k : Nat} {doc : Value} (hdoc : docs[k]? = some doc) :
    ∃ fields, Filed doc ⟨k, .fields fields⟩ index := by
  obtain ⟨keys, -, hbuild⟩ := bind_eq_ok_iff.mp hbuilt
  obtain ⟨bodies, hbodies, htracks⟩ :=
    (build_eq_ok_iff_of_not_startsWithText hdocs).1 index hbuild
  obtain ⟨hlt, rfl⟩ := List.getElem?_eq_some_iff.mp hdoc
  have hlt' : k < bodies.length := htracks.length_eq ▸ hlt
  obtain ⟨fields, -, hsome⟩ := hbodies.get hlt hlt'
  have hrecord : (⟨k, .fields fields⟩ : Record α) ∈ index.records := by
    rw [htracks.records_eq, mem_numbered_iff]
    exact ⟨k, (zero_add _).symm, List.getElem?_eq_some_iff.mpr ⟨hlt', hsome⟩⟩
  exact ⟨fields, .built hbuilt (documents_of_not_startsWithText hdocs) hdoc hrecord rfl⟩

/-- A document that is no text and is added has such a record. -/
theorem filed_of_added {doc : Value} (hdoc : doc.isText = false)
    (hextract : index.extract = standardExtractor) (hnormalize : index.normalize = none)
    (position : Int) :
    ∃ next fields, index.add doc position = .ok next ∧
      Filed doc ⟨position, .fields fields⟩ next := by
  have htotal : ∀ doc path, ∃ v, index.extract doc path = .ok v := fun doc path =>
    ⟨_, congrFun (congrFun hextract doc) path⟩
  obtain ⟨fields, hfields⟩ := exists_fieldsFrom htotal doc 0 index.keys
  have hrecord : index.fieldsRecord doc position = .ok ⟨position, .fields fields⟩ :=
    bind_eq_ok_iff.mpr ⟨fields, hfields, rfl⟩
  have hadd : index.add doc position
      = .ok (index.withRecords (index.records ++ [⟨position, .fields fields⟩])) := by
    rw [add_eq, additions, hdoc, hrecord]
    rfl
  exact ⟨_, fields, hadd, .added hextract hnormalize hadd rfl⟩

/-! ### The elements that are named -/

/-- **The numbers of an entry name its elements exactly if no element without a text stands in front
of one that is indexed.**  When a document meets one list along the path of a key, what is stored
under the key are the texts of its elements that are no blanks, each numbered by the elements with a
text in front of it; and the matches of a search carry the texts and numbers of the entry. -/
theorem elements_named_iff {doc : Value} {record : Record α} (hfiled : Filed doc record index)
    {fields : List (Int × IndexedField α)} (hbody : record.body = .fields fields) {number : Nat}
    {key : Key α} (hkey : index.keys[number]? = some key) {items : List Value}
    {rest : List String} (hlist : doc.MeetsOneList key.path items rest) :
    ∃ entries, entry? fields number = some (.many entries) ∧
      (∀ entry, entry ∈ entries ↔
        ∃ p item text, items[p]? = some item ∧ item.textAt? rest = some text ∧
          Text.isBlank text.toList = false ∧
            entry = indexed text (some (rank (·.textAt? rest) items p : Int))) ∧
      (∀ shown matcher found reported,
        found ∈ Engine.entryMatches shown (Index.entry? fields number) matcher →
        found.reported? = some reported →
          ∃ entry ∈ entries, reported.text = entry.text ∧ reported.nested = entry.nested) ∧
      ((∀ entry ∈ entries, NamesElement items rest entry) ↔
        items.Pairwise fun item later =>
          (∃ text, later.textAt? rest = some text ∧ Text.isBlank text.toList = false) →
            (item.textAt? rest).isSome) := by
  obtain ⟨hextract, hnormalize, hfields⟩ := hfiled.fieldsFrom_eq hbody
  obtain ⟨v, hv, hentry⟩ := entry?_of_fieldsFrom hfields hkey
  have hv : v = (PathValue.many (items.filterMap (·.textAt? rest))).toValue := by
    rw [hextract, standardExtractor, hlist.valueAt_eq] at hv
    exact (Except.ok.inj hv).symm
  have hmany : entry? fields number
      = some (.many (index.entriesOf (items.filterMap (·.textAt? rest)))) := by
    rw [← zero_add (number : Int), hentry, hv]
    rfl
  refine ⟨_, hmany, fun entry => mem_entriesOf_iff hnormalize, ?_, ?_⟩
  · intro shown matcher found reported hfound hreported
    rw [hmany] at hfound
    obtain ⟨field, ⟨⟩, _, -, entry, hmem, -, rfl⟩ := Engine.mem_entryMatches_iff.mp hfound
    unfold TextMatch.reported? at hreported
    split_ifs at hreported
    obtain rfl := Option.some.inj hreported
    obtain ⟨p, item, text, -, -, -, rfl⟩ := (mem_entriesOf_iff hnormalize).mp hmem
    refine ⟨_, hmem, rfl, ?_⟩
    simp [indexed]
    omega
  · rw [← rank_names_iff]
    constructor
    · intro h p item text hitem htext hblank
      obtain ⟨q, named, hq, hnamed, hsame⟩ :=
        h _ ((mem_entriesOf_iff hnormalize).mpr ⟨p, item, text, hitem, htext, hblank, rfl⟩)
      obtain rfl : rank (·.textAt? rest) items p = q := Int.ofNat.inj (Option.some.inj hq)
      exact ⟨named, hnamed, hsame⟩
    · intro h entry hentry
      obtain ⟨p, item, text, hitem, htext, hblank, rfl⟩ := (mem_entriesOf_iff hnormalize).mp hentry
      obtain ⟨named, hnamed, hsame⟩ := h p item text hitem htext hblank
      exact ⟨_, named, rfl, hnamed, hsame⟩

/-- One text under the only key makes one entry. -/
theorem fieldsFrom_singleton (hextract : index.extract = standardExtractor)
    (hnormalize : index.normalize = none) {doc : Value} {key : Key α} {text : String}
    (hvalue : valueAt doc key.path = .many [text]) (hblank : Text.isBlank text.toList = false) :
    index.fieldsFrom doc 0 [key] = .ok [(0, .many [indexed text (some 0)])] := by
  have hv : index.extract doc key.path = .ok (.list [.text text]) := by
    rw [hextract, standardExtractor, hvalue]
    rfl
  have hentry : index.fieldEntry? (.list [.text text]) = some (.many [indexed text (some 0)]) := by
    simp [Index.fieldEntry?, leavesFrom, leavesOf, indexable?_text hnormalize, hblank]
  simp only [fieldsFrom, hv, bind_eq_ok_iff]
  exact ⟨_, rfl, [], rfl, by rw [hentry]; rfl⟩

/-- Behind an element with a text a null does no harm. -/
theorem element_named_before_null :
    let doc : Value := .mapping [("tags", .list [.text "x", .null])]
    let key : Key Float := ⟨["tags"], .text "tags", ScoreNumber.one, .text "tags"⟩
    let record : Record Float := ⟨0, .fields [(0, .many [indexed "x" (some 0)])]⟩
    let index : Index Float := (blank [key] standardExtractor none).withRecords [record]
    Filed doc record index ∧
      (∃ built, ofSpecs [.described key.source] (.list [doc]) standardExtractor none = .ok built ∧
        Filed doc record built) ∧
      doc.MeetsOneList key.path [.text "x", .null] [] ∧
      NamesElement [.text "x", .null] [] (indexed "x" (some 0) : IndexedText Float) := by
  intro doc key record index
  have hlist : doc.MeetsOneList key.path [.text "x", .null] [] :=
    ⟨rfl, by simp [Value.items?], fun item hitem => rfl⟩
  have hvalue : valueAt doc key.path = .many ["x"] := by cbv
  have hfields : (blank [key] standardExtractor none).fieldsFrom doc 0 [key] = .ok _ :=
    fieldsFrom_singleton rfl rfl hvalue (by decide)
  have hadd : (blank [key] standardExtractor none).add doc 0 = .ok index :=
    bind_eq_ok_iff.mpr ⟨record, bind_eq_ok_iff.mpr ⟨_, hfields, rfl⟩, rfl⟩
  have hfiled : Filed doc record index := by
    obtain ⟨next, fields, hnext, hfiled⟩ :=
      @filed_of_added Float _ (blank [key] standardExtractor none) doc rfl rfl rfl 0
    obtain rfl : index = next := Except.ok.inj (hadd.symm.trans hnext)
    obtain rfl := Except.ok.inj (hfields.symm.trans (hfiled.fieldsFrom_eq rfl).2.2)
    exact hfiled
  refine ⟨hfiled, ?_, hlist, ?_⟩
  · obtain ⟨built, hbuild⟩ := exists_build [key] none doc []
    have hbuilt : ofSpecs [.described key.source] (.list [doc]) standardExtractor none
        = .ok built := bind_eq_ok_iff.mpr ⟨[key], rfl, hbuild⟩
    obtain ⟨fields, hfiled⟩ := filed_of_built hbuilt rfl (k := 0) rfl
    obtain ⟨hextract, hnormalize, hfields⟩ := hfiled.fieldsFrom_eq rfl
    obtain ⟨bodies, htracks, -⟩ := tracks_of_build hbuild
    have hkeys : built.keys = [key] := htracks.alike.keys_eq
    rw [hkeys, fieldsFrom_singleton hextract hnormalize hvalue (by decide)] at hfields
    obtain rfl := Except.ok.inj hfields
    exact ⟨built, hbuilt, hfiled⟩
  have hkey : index.keys[0]? = some key := rfl
  obtain ⟨entries, hentries, -, -, hnamed⟩ := elements_named_iff hfiled rfl hkey hlist
  obtain rfl : [indexed "x" (some 0)] = entries :=
    IndexedField.many.inj (Option.some.inj hentries)
  refine hnamed.mpr (List.pairwise_pair.mpr ?_) _ List.mem_cons_self
  rintro ⟨text, htext, -⟩
  have hnone : Value.null.textAt? [] = none := by cbv
  cases hnone.symm.trans htext

/-- A null in front of an element gives the text the number of the null. -/
theorem null_named_for_element :
    let doc : Value := .mapping [("tags", .list [.null, .text "x"])]
    let key : Key Float := ⟨["tags"], .text "tags", ScoreNumber.one, .text "tags"⟩
    doc.MeetsOneList key.path [.null, .text "x"] [] ∧
      ∃ index, ofSpecs [.described key.source] (.list [doc]) standardExtractor none = .ok index ∧
        index.keys = [key] ∧
        index.records = [⟨0, .fields [(0, .many [indexed "x" (some 0)])]⟩] ∧
        ¬NamesElement [.null, .text "x"] [] (indexed "x" (some 0) : IndexedText Float) := by
  intro doc key
  have hvalue : valueAt doc key.path = .many ["x"] := by cbv
  have hfields : (sourced [key] standardExtractor none [doc]).fieldsFrom doc 0 [key] = .ok _ :=
    fieldsFrom_singleton rfl rfl hvalue (by decide)
  have hlist : doc.MeetsOneList key.path [.null, .text "x"] [] :=
    ⟨rfl, by simp [Value.items?], fun item hitem => rfl⟩
  refine ⟨hlist, _, bind_eq_ok_iff.mpr ⟨[key], rfl, (build_cons_eq_ok_iff rfl).mpr ⟨_, ?_, rfl⟩⟩,
    rfl, rfl, ?_⟩
  · exact (addFieldsFrom_eq_ok_iff ..).mpr ⟨[some (.fields _)], .cons ⟨_, hfields, rfl⟩ .nil, rfl⟩
  · rintro ⟨p, item, hp, hitem, htext⟩
    obtain rfl : 0 = p := Int.ofNat.inj (Option.some.inj hp)
    obtain rfl := Option.some.inj hitem
    have hnone : Value.null.textAt? [] = none := by cbv
    cases hnone.symm.trans htext

end Index

end FuzzySearch
