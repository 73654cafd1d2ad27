import FuzzySearch.Json.Reading
import FuzzySearch.Proofs.Calls
import FuzzySearch.Proofs.Decimal.Finite
import Mathlib.Tactic.SplitIfs

/-!
# What JSON texts describe

The value of a JSON text is made of nulls, truth values, numbers, texts, lists and mappings; its
integers fit in a machine word, and its other numbers are not infinite (`datum_of_read?`).  Tokens
hold such values only (`Scan.Sound`), and so does whatever is open while they are taken one by one
(`Reader.Sound`).
-/

namespace FuzzySearch.Json

/-- A value that a JSON text can describe. -/
inductive Datum : Value → Prop where
  | null : Datum .null
  | bool (b : Bool) : Datum (.bool b)
  | int {n : Int} (h : isMachineInteger n = true) : Datum (.int n)
  | float {x : Float} (h : x.isInf = false) : Datum (.float x)
  | text (s : String) : Datum (.text s)
  | list {items : List Value} (h : ∀ item ∈ items, Datum item) : Datum (.list items)
  | mapping {entries : List (String × Value)} (h : ∀ entry ∈ entries, Datum entry.2) :
      Datum (.mapping entries)

theorem Datum.of_lookup? {entries : List (String × Value)} (h : ∀ entry ∈ entries, Datum entry.2)
    {name : String} {v : Value} (hv : lookup? name entries = some v) : Datum v := by
  obtain ⟨entry, hentry, rfl⟩ := Option.map_eq_some_iff.mp hv
  exact h entry (List.mem_of_find?_eq_some hentry)

theorem forall_mem_insertEntry {entries : List (String × Value)}
    (h : ∀ entry ∈ entries, Datum entry.2) (name : String) {v : Value} (hv : Datum v) :
    ∀ entry ∈ insertEntry name v entries, Datum entry.2 := by
  induction entries with
  | nil => exact List.forall_mem_singleton.mpr hv
  | cons first rest ih =>
    rw [List.forall_mem_cons] at h
    unfold insertEntry
    split_ifs
    · exact List.forall_mem_cons.mpr ⟨hv, h.2⟩
    · exact List.forall_mem_cons.mpr ⟨h.1, ih h.2⟩

/-! ### Tokens -/

/-- A token whose value, if it has one, is one that JSON describes. -/
def Token.Sound : Token → Prop
  | .scalar v => Datum v
  | _ => True

theorem datum_of_finite? {negative : Bool} {size : Float} {v : Value}
    (h : finite? negative size = some v) : Datum v := by
  unfold finite? at h
  by_cases hinf : size.isInf = true
  · rw [if_pos hinf] at h
    cases h
  · rw [if_neg hinf] at h
    obtain rfl := Option.some.inj h
    have hsize : size.isInf = false := Bool.eq_false_iff.mpr hinf
    cases negative with
    | false => exact .float hsize
    | true => exact .float ((Decimal.isInf_neg size).trans hsize)

theorem datum_of_number? {cs : List Char} {v : Value} (h : number? cs = some v) : Datum v := by
  unfold number? at h
  simp only [Option.bind_eq_bind, Option.bind_eq_some_iff] at h
  obtain ⟨⟨whole, rest⟩, -, ⟨places, tail⟩, -, ⟨exponent, final⟩, -, h⟩ := h
  simp only at h
  split_ifs at h with hfinal hrest hnegative hrange hrange
  · obtain rfl := Option.some.inj h
    exact .int hrange
  · exact datum_of_finite? h
  · obtain rfl := Option.some.inj h
    exact .int hrange
  · exact datum_of_finite? h
  · exact datum_of_finite? h

theorem datum_of_scalar? {cs : List Char} {v : Value} (h : scalar? cs = some v) : Datum v := by
  unfold scalar? at h
  split_ifs at h
  · exact Option.some.inj h ▸ .null
  · exact Option.some.inj h ▸ .bool true
  · exact Option.some.inj h ▸ .bool false
  · exact datum_of_number? h

/-- A scan that has made sound tokens only. -/
def Scan.Sound (scan : Scan) : Prop := ∀ token ∈ scan.made, token.Sound

namespace Scan

variable {scan after : Scan}

theorem Sound.endWord (h : scan.Sound) (hend : scan.endWord = some after) : after.Sound := by
  unfold Scan.endWord at hend
  split at hend
  · exact Option.some.inj hend ▸ h
  · obtain ⟨v, hv, rfl⟩ := Option.map_eq_some_iff.mp hend
    exact List.forall_mem_cons.mpr ⟨datum_of_scalar? hv, h⟩
  · cases hend

theorem sound_of_mark? {c : Char} {token : Token} (h : mark? c = some token) : token.Sound := by
  unfold mark? at h
  split_ifs at h
  all_goals
    obtain rfl := Option.some.inj h
    trivial

theorem Sound.stepOutside (h : scan.Sound) {c : Char} (hstep : scan.stepOutside c = some after) :
    after.Sound := by
  unfold Scan.stepOutside at hstep
  split_ifs at hstep
  · exact h.endWord hstep
  · obtain ⟨ended, hended, rfl⟩ := Option.map_eq_some_iff.mp hstep
    have hsound : ended.Sound := h.endWord hended
    exact hsound
  · split at hstep
    · rename_i token htoken
      obtain ⟨ended, hended, rfl⟩ := Option.map_eq_some_iff.mp hstep
      exact List.forall_mem_cons.mpr ⟨sound_of_mark? htoken, h.endWord hended⟩
    · split at hstep
      all_goals exact Option.some.inj hstep ▸ h

/-- One more character keeps a scan sound. -/
theorem Sound.step (h : scan.Sound) {c : Char} (hstep : scan.step c = some after) :
    after.Sound := by
  unfold Scan.step at hstep
  split at hstep
  · exact Option.some.inj hstep ▸ h
  · split_ifs at hstep
    · obtain ⟨s, -, rfl⟩ := Option.map_eq_some_iff.mp hstep
      exact List.forall_mem_cons.mpr ⟨trivial, h⟩
    · exact Option.some.inj hstep ▸ h
  · exact h.stepOutside hstep

end Scan

/-- **The tokens of a text are sound.** -/
theorem sound_of_tokens? {cs : List Char} {tokens : List Token} (h : tokens? cs = some tokens) :
    ∀ token ∈ tokens, token.Sound := by
  obtain ⟨scan, hscan, h⟩ := Option.bind_eq_some_iff.mp h
  obtain ⟨ended, hended, h⟩ := Option.bind_eq_some_iff.mp h
  obtain rfl := Option.some.inj h
  have hstart : Scan.Sound ⟨[], .between⟩ := List.forall_mem_nil _
  have hsound : scan.Sound := invariant_of_foldlM (fun _ _ _ _ hs hstep => hs.step hstep) hstart hscan
  intro token htoken
  exact hsound.endWord hended token (List.mem_reverse.mp htoken)

/-! ### Values -/

/-- A frame that holds such values only. -/
def Frame.Sound : Frame → Prop
  | .list backwards => ∀ item ∈ backwards, Datum item
  | .mapping entries => ∀ entry ∈ entries, Datum entry.2
  | .entry entries _ => ∀ entry ∈ entries, Datum entry.2

/-- If nothing is expected any more, the value is there. -/
def Expected.Sound : Expected → Prop
  | .nothing v => Datum v
  | _ => True

/-- A state of reading that holds such values only. -/
structure Reader.Sound (reader : Reader) : Prop where
  frames : ∀ frame ∈ reader.frames, frame.Sound
  expected : reader.expected.Sound

namespace Reader

variable {reader after : Reader}

theorem sound_deliver {v : Value} (hv : Datum v) {frames : List Frame}
    (h : ∀ frame ∈ frames, frame.Sound) : (deliver v frames).Sound := by
  unfold deliver
  split
  · rename_i backwards frames
    rw [List.forall_mem_cons] at h
    have hitems : (Frame.list (v :: backwards)).Sound := List.forall_mem_cons.mpr ⟨hv, h.1⟩
    exact ⟨List.forall_mem_cons.mpr ⟨hitems, h.2⟩, trivial⟩
  · rename_i entries name frames
    rw [List.forall_mem_cons] at h
    have hentries : (Frame.mapping (insertEntry name v entries)).Sound :=
      forall_mem_insertEntry h.1 name hv
    exact ⟨List.forall_mem_cons.mpr ⟨hentries, h.2⟩, trivial⟩
  · exact ⟨h, hv⟩

theorem Sound.enter (h : reader.Sound) {frame : Frame} (hframe : frame.Sound) {expected : Expected}
    (hexpected : expected.Sound) (henter : reader.enter frame expected = some after) :
    after.Sound := by
  unfold Reader.enter at henter
  split_ifs at henter
  obtain rfl := Option.some.inj henter
  exact ⟨List.forall_mem_cons.mpr ⟨hframe, h.frames⟩, hexpected⟩

theorem Sound.beginValue (h : reader.Sound) {token : Token} (htoken : token.Sound)
    (hbegin : reader.beginValue token = some after) : after.Sound := by
  unfold Reader.beginValue at hbegin
  split at hbegin
  · have hlist : (Frame.list []).Sound := List.forall_mem_nil _
    have hexpected : Expected.valueOrEnd.Sound := trivial
    exact h.enter hlist hexpected hbegin
  · have hmapping : (Frame.mapping []).Sound := List.forall_mem_nil _
    have hexpected : Expected.nameOrEnd.Sound := trivial
    exact h.enter hmapping hexpected hbegin
  · exact Option.some.inj hbegin ▸ sound_deliver (.text _) h.frames
  · exact Option.some.inj hbegin ▸ sound_deliver htoken h.frames
  · cases hbegin

theorem Sound.close (h : reader.Sound) {token : Token} (hclose : reader.close token = some after) :
    after.Sound := by
  obtain ⟨frames, expected⟩ := reader
  have hframes : ∀ frame ∈ frames, frame.Sound := h.frames
  unfold Reader.close at hclose
  split at hclose
  · split at hclose
    · obtain rfl := Option.some.inj hclose
      rename_i heq
      rw [show frames = _ from heq, List.forall_mem_cons] at hframes
      exact sound_deliver (.list fun item hitem => hframes.1 item (List.mem_reverse.mp hitem))
        hframes.2
    · cases hclose
  · split at hclose
    · obtain rfl := Option.some.inj hclose
      rename_i heq
      rw [show frames = _ from heq, List.forall_mem_cons] at hframes
      exact sound_deliver (.mapping hframes.1) hframes.2
    · cases hclose
  · cases hclose

theorem Sound.next (h : reader.Sound) (hnext : reader.next = some after) : after.Sound := by
  unfold Reader.next at hnext
  split at hnext
  · exact Option.some.inj hnext ▸ ⟨h.frames, trivial⟩
  · exact Option.some.inj hnext ▸ ⟨h.frames, trivial⟩
  · cases hnext

theorem Sound.beginEntry (h : reader.Sound) {name : String}
    (hbegin : reader.beginEntry name = some after) : after.Sound := by
  obtain ⟨frames, expected⟩ := reader
  have hframes : ∀ frame ∈ frames, frame.Sound := h.frames
  unfold Reader.beginEntry at hbegin
  split at hbegin
  · obtain rfl := Option.some.inj hbegin
    rename_i heq
    rw [show frames = _ from heq, List.forall_mem_cons] at hframes
    exact ⟨List.forall_mem_cons.mpr hframes, trivial⟩
  · cases hbegin

/-- One more token keeps a state of reading sound. -/
theorem Sound.step (h : reader.Sound) {token : Token} (htoken : token.Sound)
    (hstep : reader.step token = some after) : after.Sound := by
  unfold Reader.step at hstep
  split at hstep
  · exact h.beginValue htoken hstep
  · exact h.close hstep
  · exact h.beginValue htoken hstep
  · exact h.beginEntry hstep
  · exact h.beginEntry hstep
  · exact h.close hstep
  · exact Option.some.inj hstep ▸ ⟨h.frames, trivial⟩
  · exact h.next hstep
  · exact h.close hstep
  · cases hstep

end Reader

/-- **The value of a JSON text.** -/
theorem datum_of_read? {s : String} {v : Value} (h : read? s = some v) : Datum v := by
  obtain ⟨tokens, htokens, h⟩ := Option.bind_eq_some_iff.mp h
  obtain ⟨reader, hreader, h⟩ := Option.bind_eq_some_iff.mp h
  have hstart : Reader.Sound ⟨[], .value⟩ := ⟨List.forall_mem_nil _, trivial⟩
  have hsound : reader.Sound := invariant_of_foldlM
    (fun _ token htoken _ hs hstep => hs.step (sound_of_tokens? htokens token htoken) hstep)
    hstart hreader
  split at h
  · rename_i w heq
    obtain rfl := Option.some.inj h
    have hvalue : reader.expected.Sound := hsound.expected
    rw [heq] at hvalue
    exact hvalue
  · cases h

end FuzzySearch.Json
