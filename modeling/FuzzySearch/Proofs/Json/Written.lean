import FuzzySearch.Proofs.Json.RoundTrip
import FuzzySearch.Value.Size

/-!
# Written texts can be read

Whatever value is written, its text spells some value (`exists_spells_of_writeAt`): a tuple comes
back as a list, a number that is not finite as null, and a mapping that has a name twice with the
last value of it.  Texts come back as they are, also under the names of a mapping
(`exists_read?_of_write`).
-/

namespace FuzzySearch.Json

/-- What is read instead of a value: texts stay what they are. -/
def ReadsAs (v w : Value) : Prop := ∀ s, v = .text s → w = .text s

theorem readsAs_of_ne {v : Value} (h : ∀ s, v ≠ .text s) (w : Value) : ReadsAs v w :=
  fun s hs => absurd hs (h s)

/-! ### Lists and entries -/

/-- If every item is written as a text that spells something, a list of texts that are written for
items spells something for each of them. -/
theorem exists_spelled_items {level : Nat} {items : List Value} {parts : List String}
    (hitems : ∀ item ∈ items, ∀ s, writeAt level item = .ok s →
      ∃ w, Spells level s.toList w ∧ ReadsAs item w)
    (h : writeItems level items = .ok parts) :
    ∃ spelled : List Value, spelled.length = items.length ∧
      List.Forall₂ (fun w part => Spells level part w) spelled (parts.map String.toList) := by
  rw [writeItems_eq, mapM_eq_ok_iff] at h
  induction h with
  | nil => exact ⟨[], rfl, .nil⟩
  | @cons item part items parts hpart _ ih =>
    obtain ⟨hitem, hitems⟩ := List.forall_mem_cons.mp hitems
    obtain ⟨w, hw, -⟩ := hitem part hpart
    obtain ⟨spelled, hlength, hspelled⟩ := ih hitems
    exact ⟨w :: spelled, congrArg Nat.succ hlength, .cons hw hspelled⟩

/-- The same for the entries of a mapping, which keep their names. -/
theorem exists_spelled_entries {level : Nat} {entries : List (String × Value)}
    {parts : List String}
    (hentries : ∀ entry ∈ entries, ∀ s, writeAt level entry.2 = .ok s →
      ∃ w, Spells level s.toList w ∧ ReadsAs entry.2 w)
    (h : writeEntries level entries = .ok parts) :
    ∃ spelled,
      List.Forall₂ (fun entry named : String × Value =>
        named.1 = entry.1 ∧ ReadsAs entry.2 named.2) entries spelled ∧
      List.Forall₂ (fun (named : String × Value) part => ∃ text, part = entryText named.1 text ∧
        Spells level text named.2) spelled (parts.map String.toList) := by
  rw [writeEntries_eq, mapM_eq_ok_iff] at h
  induction h with
  | nil => exact ⟨[], .nil, .nil⟩
  | @cons entry part entries parts hpart _ ih =>
    obtain ⟨hentry, hentries⟩ := List.forall_mem_cons.mp hentries
    obtain ⟨s, hs, rfl⟩ := map_eq_ok_iff.mp hpart
    obtain ⟨w, hw, hreads⟩ := hentry s hs
    obtain ⟨spelled, hnamed, hspelled⟩ := ih hentries
    refine ⟨(entry.1, w) :: spelled, .cons ⟨rfl, hreads⟩ hnamed, .cons ⟨s.toList, ?_, hw⟩ hspelled⟩
    rw [String.toList_append, String.toList_append]
    rfl

/-! ### Values -/

section nested

variable {level : Nat} (hlevel : level ≤ deepestWritten) {s : String}

include hlevel

theorem exists_spells_list {items : List Value}
    (hitems : ∀ item ∈ items, ∀ s, level + 1 ≤ deepestWritten → writeAt (level + 1) item = .ok s →
      ∃ w, Spells (level + 1) s.toList w ∧ ReadsAs item w)
    (h : writeAt level (.list items) = .ok s) : ∃ w, Spells level s.toList w := by
  have hdeepest : level < deepest := lt_of_le_of_lt hlevel (by decide)
  rw [writeAt] at h
  split_ifs at h with hempty hdeep
  · obtain rfl := Except.ok.inj h
    exact ⟨_, spells_empty_list hdeepest⟩
  · obtain ⟨parts, hparts, h⟩ := bind_eq_ok_iff.mp h
    obtain rfl := pure_eq_ok_iff.mp h
    obtain ⟨spelled, hlength, hspelled⟩ := exists_spelled_items
      (fun item hitem s => hitems item hitem s (by omega)) hparts
    have hne : spelled ≠ [] := by
      rintro rfl
      exact hempty (List.isEmpty_iff_length_eq_zero.mpr hlength.symm)
    refine ⟨.list spelled, ?_⟩
    rw [toList_bracketed]
    exact spells_list hne hdeepest hspelled

theorem exists_spells_mapping {entries : List (String × Value)}
    (hentries : ∀ entry ∈ entries, ∀ s, level + 1 ≤ deepestWritten →
      writeAt (level + 1) entry.2 = .ok s →
        ∃ w, Spells (level + 1) s.toList w ∧ ReadsAs entry.2 w)
    (h : writeAt level (.mapping entries) = .ok s) :
    ∃ spelled, List.Forall₂ (fun entry named : String × Value =>
        named.1 = entry.1 ∧ ReadsAs entry.2 named.2) entries spelled ∧
      Spells level s.toList (.mapping (insertEntries [] spelled)) := by
  have hdeepest : level < deepest := lt_of_le_of_lt hlevel (by decide)
  rw [writeAt] at h
  split_ifs at h with hdeep
  obtain ⟨parts, hparts, h⟩ := bind_eq_ok_iff.mp h
  obtain rfl := pure_eq_ok_iff.mp h
  obtain ⟨spelled, hnamed, hspelled⟩ := exists_spelled_entries
    (fun entry hentry s => hentries entry hentry s (by omega)) hparts
  refine ⟨spelled, hnamed, ?_⟩
  rw [toList_bracketed]
  exact spells_mapping hdeepest hspelled

end nested

/-- **What is written spells a value**, and a text spells itself. -/
theorem exists_spells_of_writeAt {level : Nat} {v : Value} {s : String}
    (hlevel : level ≤ deepestWritten) (h : writeAt level v = .ok s) :
    ∃ w, Spells level s.toList w ∧ ReadsAs v w := by
  -- what stands inside a list or mapping is smaller than it
  induction hsize : v.size using Nat.strong_induction_on generalizing level v s with
  | _ size ih =>
  have hinside : ∀ w : Value, w.size < v.size → ∀ s, level + 1 ≤ deepestWritten →
      writeAt (level + 1) w = .ok s → ∃ w', Spells (level + 1) s.toList w' ∧ ReadsAs w w' :=
    fun w hw s hlevel h => ih w.size (hsize ▸ hw) hlevel h rfl
  cases v with
  | null =>
    obtain rfl := Except.ok.inj h
    exact ⟨_, spells_scalar level (List.all_iff_forall_prop.mp (by decide)) rfl,
      readsAs_of_ne (by simp) .null⟩
  | bool b =>
    obtain rfl := Except.ok.inj h
    refine ⟨.bool b, ?_, readsAs_of_ne (by simp) _⟩
    cases b <;> exact spells_scalar level (List.all_iff_forall_prop.mp (by decide)) rfl
  | int n =>
    rw [writeAt] at h
    split_ifs at h with hn
    obtain rfl := Except.ok.inj h
    exact ⟨_, spells_scalar level (wordChar_intText n) (scalar?_intText hn),
      readsAs_of_ne (by simp) _⟩
  | float x =>
    rw [writeAt] at h
    obtain rfl := Except.ok.inj h
    split_ifs with hx
    · exact ⟨.null, spells_scalar level (List.all_iff_forall_prop.mp (by decide)) rfl,
        readsAs_of_ne (by simp) _⟩
    · have hfinite := Bool.eq_false_iff.mpr hx
      exact ⟨_, spells_scalar level (wordChar_text hfinite) (scalar?_text hfinite),
        readsAs_of_ne (by simp) _⟩
  | text t =>
    obtain rfl := Except.ok.inj h
    exact ⟨.text t, ⟨_, (closes_quoted t).scans, delivers_text level t⟩, fun _ => id⟩
  | list items =>
    obtain ⟨w, hw⟩ := exists_spells_list hlevel
      (fun item hitem => hinside item (Nat.lt_one_add_iff.mpr (Value.size_le_sizes hitem))) h
    exact ⟨w, hw, readsAs_of_ne (by simp) w⟩
  | tuple items =>
    have hlist : writeAt level (.list items) = .ok s := by
      rw [← h, writeAt, writeAt]
    obtain ⟨w, hw⟩ := exists_spells_list hlevel
      (fun item hitem => hinside item (Nat.lt_one_add_iff.mpr (Value.size_le_sizes hitem))) hlist
    exact ⟨w, hw, readsAs_of_ne (by simp) w⟩
  | mapping entries =>
    obtain ⟨spelled, -, hspelled⟩ := exists_spells_mapping hlevel (fun entry hentry =>
      hinside entry.2 (Nat.lt_one_add_iff.mpr (Value.size_le_entrySizes hentry))) h
    exact ⟨_, hspelled, readsAs_of_ne (by simp) _⟩
  | object | set | path | octets | failure => cases h

/-- **A mapping with distinct names that is written is read as one with the same texts.** -/
theorem exists_read?_of_write {entries : List (String × Value)} {s : String}
    (hnodup : (entries.map (·.1)).Nodup) (h : write (.mapping entries) = .ok s) :
    ∃ found, read? s = some (.mapping found) ∧
      ∀ name t, (name, .text t) ∈ entries → lookup? name found = some (.text t) := by
  obtain ⟨spelled, hnamed, hspelled⟩ := exists_spells_mapping (Nat.zero_le _)
    (fun entry _ s hlevel h => exists_spells_of_writeAt hlevel h) h
  refine ⟨_, read?_of_spells hspelled, fun name t hmem => ?_⟩
  have hnames : spelled.map (·.1) = entries.map (·.1) := by
    rw [← List.forall₂_eq_eq_eq, List.forall₂_map_left_iff, List.forall₂_map_right_iff]
    exact hnamed.flip.imp fun named entry hname => hname.1
  obtain ⟨⟨n, w⟩, hspelledMem, hname, hreads⟩ := exists_of_mem_forall₂ hnamed.flip hmem
  obtain rfl : n = name := hname
  obtain rfl : w = .text t := hreads t rfl
  exact lookup?_insertEntries (by rwa [hnames]) hspelledMem

end FuzzySearch.Json
