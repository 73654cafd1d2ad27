import FuzzySearch.Log.Entry
import FuzzySearch.Proofs.Json.Written

/-!
# What a line of a log tells

The values of extra attributes that are redacted have no influence on the line of an entry, unless
one of them is called for the message (`jsonLine_of_differInRedacted`).  An entry has a line if its
own fields and its other extra values can be written (`exists_jsonLine`), and then every other extra
text that is visible is read in the line under its own name, shortened if it is long
(`exists_read?_of_jsonLine`).  `logged_line` puts these together; `untold_and_told` shows what
becomes of the entries that it leaves out.
-/

namespace FuzzySearch.Log

open Text (lowerString)

/-! ### Names that are redacted -/

/-- A name is redacted if it is one of the given names but for letter case, or one of the usual ones
if none are given. -/
def Redacts (given : List String) (name : String) : Prop :=
  if given = [] then lowerString name ∈ usualRedacted
  else ∃ key ∈ given, lowerString key = lowerString name

theorem contains_redactedNames (given : List String) (name : String) :
    (redactedNames given).contains (lowerString name) = true ↔ Redacts given name := by
  unfold redactedNames Redacts
  rw [List.contains_iff_mem]
  by_cases hgiven : given = []
  · subst hgiven
    rfl
  · rw [if_neg (mt List.isEmpty_iff.mp hgiven), if_neg hgiven, List.mem_map]

variable {given : List String}

theorem extraField_of_redacts {name : String} (h : Redacts given name) (v : Value) :
    extraField (redactedNames given) name v = .text redactedText :=
  if_pos ((contains_redactedNames given name).mpr h)

theorem extraField_text {name : String} (h : ¬ Redacts given name) (s : String) :
    extraField (redactedNames given) name (.text s) = .text (shortened fieldLimit s) :=
  if_neg (mt (contains_redactedNames given name).mp h)

/-! ### Texts that are cut off -/

theorem shortened_of_le {limit : Nat} {s : String} (h : s.length ≤ limit) :
    shortened limit s = s := if_pos h

theorem shortened_of_lt {limit : Nat} {s : String} (h : limit < s.length) :
    shortened limit s = String.ofList (s.toList.take limit ++ ['.', '.', '.']) :=
  if_neg (Nat.not_le.mpr h)

/-! ### Entries that differ in redacted values -/

/-- Two entries that are alike but for the values of extra attributes that are redacted. -/
structure DifferInRedacted (given : List String) (entry other : Entry) : Prop where
  rest : other = { entry with extra := other.extra }
  extra : List.Forall₂ (fun named named' : String × Value =>
    named.1 = named'.1 ∧ (named.2 = named'.2 ∨ Redacts given named.1)) entry.extra other.extra

/-- A redacted value is called for the message of an entry. -/
def Entry.CallsRedacted (given : List String) (entry : Entry) : Prop :=
  Redacts given "getMessage" ∧
    ∃ maker, lookup? "getMessage" entry.extra = some maker ∧ (entry.called maker).isSome = true

theorem shownExtras_cons (redacted : List String) (named : String × Value)
    (extra : List (String × Value)) :
    shownExtras redacted (named :: extra) =
      if isVisible named.1 then
        (named.1, extraField redacted named.1 named.2) :: shownExtras redacted extra
      else shownExtras redacted extra := by
  unfold shownExtras
  rw [List.filter_cons]
  split_ifs <;> rfl

/-- The extra attributes are shown without their redacted values. -/
theorem shownExtras_congr {extra extra' : List (String × Value)}
    (h : List.Forall₂ (fun named named' : String × Value =>
      named.1 = named'.1 ∧ (named.2 = named'.2 ∨ Redacts given named.1)) extra extra') :
    shownExtras (redactedNames given) extra = shownExtras (redactedNames given) extra' := by
  induction h with
  | nil => rfl
  | @cons named named' extra extra' hnamed _ ih =>
    obtain ⟨hname, hvalue⟩ := hnamed
    have hfield : extraField (redactedNames given) named.1 named.2
        = extraField (redactedNames given) named'.1 named'.2 := by
      rw [← hname]
      rcases hvalue with hvalue | hredacts
      · rw [hvalue]
      · rw [extraField_of_redacts hredacts, extraField_of_redacts hredacts]
    rw [shownExtras_cons, shownExtras_cons, hfield, hname, ih]

/-- Extra attributes that differ in redacted values have the same names. -/
theorem lookup?_extra {extra extra' : List (String × Value)}
    (h : List.Forall₂ (fun named named' : String × Value =>
      named.1 = named'.1 ∧ (named.2 = named'.2 ∨ Redacts given named.1)) extra extra')
    (name : String) :
    lookup? name extra = none ∧ lookup? name extra' = none ∨
      ∃ v v', lookup? name extra = some v ∧ lookup? name extra' = some v' ∧
        (v = v' ∨ Redacts given name) := by
  induction h with
  | nil => exact .inl ⟨rfl, rfl⟩
  | @cons named named' extra extra' hnamed _ ih =>
    obtain ⟨hname, hvalue⟩ := hnamed
    unfold lookup? at ih ⊢
    rw [List.find?_cons, List.find?_cons, ← hname]
    by_cases heq : named.1 = name
    · rw [beq_iff_eq.mpr heq]
      exact .inr ⟨named.2, named'.2, rfl, rfl, heq ▸ hvalue⟩
    · rw [beq_eq_false_iff_ne.mpr heq]
      exact ih

/-- Entries that differ in redacted values have the same message, if it is not made by calling one
of them. -/
theorem message_of_differInRedacted {entry other : Entry} (h : DifferInRedacted given entry other)
    (hentry : ¬ entry.CallsRedacted given) (hother : ¬ other.CallsRedacted given) :
    other.message = entry.message := by
  obtain ⟨extra, rfl⟩ : ∃ extra, other = { entry with extra := extra } := ⟨_, h.rest⟩
  unfold Entry.message
  rcases lookup?_extra h.extra "getMessage" with ⟨hnone, hnone'⟩ | ⟨v, v', hv, hv', hvalue⟩
  · rw [hnone, hnone']
  · rw [hv, hv']
    rcases hvalue with rfl | hredacts
    · rfl
    · have hv : entry.called v = none :=
        Option.not_isSome_iff_eq_none.mp fun hcalled => hentry ⟨hredacts, v, hv, hcalled⟩
      have hv' : entry.called v' = none :=
        Option.not_isSome_iff_eq_none.mp fun hcalled => hother ⟨hredacts, v', hv', hcalled⟩
      simp only [hv, hv']

/-- **Redacted values have no influence on a line**, nor on whether there is one, as long as the
message is not made by calling one of them. -/
theorem jsonLine_of_differInRedacted {entry other : Entry}
    (h : DifferInRedacted given entry other) (hentry : ¬ entry.CallsRedacted given)
    (hother : ¬ other.CallsRedacted given) :
    entry.jsonLine (redactedNames given) = other.jsonLine (redactedNames given) := by
  have hown : other.ownFields = entry.ownFields := by
    unfold Entry.ownFields
    rw [message_of_differInRedacted h hentry hother, h.rest]
  unfold Entry.jsonLine Entry.fields
  rw [hown, shownExtras_congr h.extra]

/-! ### Fields of an entry -/

theorem nodup_ownFields {entry : Entry} {own : List (String × Value)}
    (h : entry.ownFields = .ok own) : (own.map (·.1)).Nodup := by
  obtain ⟨moment, -, h⟩ := bind_eq_ok_iff.mp h
  obtain ⟨message, -, h⟩ := bind_eq_ok_iff.mp h
  obtain ⟨component, -, h⟩ := bind_eq_ok_iff.mp h
  obtain ⟨exception, -, h⟩ := bind_eq_ok_iff.mp h
  obtain rfl := pure_eq_ok_iff.mp h
  cases component <;> cases exception <;>
    simp only [Option.toList, List.map_cons, List.map_nil, List.cons_append, List.nil_append] <;>
    decide

theorem fields_eq_ok_iff {redacted : List String} {entry : Entry} {fields : List (String × Value)} :
    entry.fields redacted = .ok fields ↔
      ∃ own, entry.ownFields = .ok own ∧
        insertEntries own (shownExtras redacted entry.extra) = fields := by
  unfold Entry.fields
  rw [bind_eq_ok_iff]
  exact exists_congr fun own => and_congr_right fun _ => pure_eq_ok_iff

theorem nodup_shownExtras (redacted : List String) {extra : List (String × Value)}
    (h : (extra.map (·.1)).Nodup) : ((shownExtras redacted extra).map (·.1)).Nodup := by
  unfold shownExtras
  rw [List.map_map]
  exact h.sublist (List.filter_sublist.map _)

/-- An extra text that is visible and not redacted is shown, shortened if it is long. -/
theorem mem_shownExtras {extra : List (String × Value)} {name s : String}
    (hmem : (name, .text s) ∈ extra) (hvisible : isVisible name = true)
    (hredacts : ¬ Redacts given name) :
    (name, .text (shortened fieldLimit s)) ∈ shownExtras (redactedNames given) extra := by
  unfold shownExtras
  rw [List.mem_map]
  refine ⟨(name, .text s), List.mem_filter.mpr ⟨hmem, hvisible⟩, ?_⟩
  exact congrArg (Prod.mk name) (extraField_text hredacts s)

theorem shownEntries_eq (entries : List (String × Value)) :
    shownEntries entries = entries.map fun entry => (entry.1, shown entry.2) := by
  induction entries with
  | nil => rfl
  | cons entry entries ih =>
    rw [shownEntries, ih]
    rfl

/-! ### Writing a line -/

/-- A value that can be written as a field of a line. -/
def Writable (v : Value) : Prop := ∃ s, Json.writeAt 1 (shown v) = .ok s

theorem writable_text (s : String) : Writable (.text s) := ⟨_, rfl⟩

/-- The own fields of an entry are texts, but for its level. -/
theorem writable_ownFields {entry : Entry} {own : List (String × Value)}
    (h : entry.ownFields = .ok own) (hlevel : Writable entry.level) :
    ∀ field ∈ own, Writable field.2 := by
  obtain ⟨moment, -, h⟩ := bind_eq_ok_iff.mp h
  obtain ⟨message, -, h⟩ := bind_eq_ok_iff.mp h
  obtain ⟨component, hcomponent, h⟩ := bind_eq_ok_iff.mp h
  obtain ⟨exception, -, h⟩ := bind_eq_ok_iff.mp h
  obtain rfl := pure_eq_ok_iff.mp h
  have hlogger : Writable entry.logger := by
    cases hlogger : entry.logger with
    | text s => exact writable_text s
    | _ =>
      rw [hlogger] at hcomponent
      cases hcomponent
  have htexts : ∀ (name : String) (part : Option String),
      ∀ field ∈ part.toList.map fun s => (name, Value.text s), Writable field.2 := by
    intro name part field hfield
    obtain ⟨s, -, rfl⟩ := List.mem_map.mp hfield
    exact writable_text s
  simp only [List.forall_mem_append, List.forall_mem_cons]
  exact ⟨⟨⟨writable_text _, hlevel, hlogger, writable_text _, List.forall_mem_nil _⟩,
    htexts _ component⟩, htexts _ exception⟩

/-- Whatever is redacted can be written. -/
theorem writable_extraField {name : String} {v : Value}
    (h : ¬ Redacts given name → Writable v) :
    Writable (extraField (redactedNames given) name v) := by
  by_cases hredacts : Redacts given name
  · rw [extraField_of_redacts hredacts]
    exact writable_text _
  · unfold extraField
    rw [if_neg (mt (contains_redactedNames given name).mp hredacts)]
    split
    · exact writable_text _
    · exact h hredacts

/-- **An entry has a line**, if its level and the extra values that are not redacted can be
written. -/
theorem exists_jsonLine {entry : Entry} {own : List (String × Value)}
    (hown : entry.ownFields = .ok own) (hlevel : Writable entry.level)
    (hextra : ∀ named ∈ entry.extra, isVisible named.1 = true → ¬ Redacts given named.1 →
      Writable named.2) :
    ∃ line, entry.jsonLine (redactedNames given) = .ok line := by
  have hfields : ∀ field ∈ insertEntries own (shownExtras (redactedNames given) entry.extra),
      Writable field.2 := by
    intro field hfield
    rcases mem_insertEntries hfield with hfield | hfield
    · exact writable_ownFields hown hlevel field hfield
    · obtain ⟨named, hnamed, rfl⟩ := List.mem_map.mp hfield
      obtain ⟨hnamed, hvisible⟩ := List.mem_filter.mp hnamed
      exact writable_extraField (hextra named hnamed hvisible)
  have hparts : ∀ field ∈ shownEntries (insertEntries own
      (shownExtras (redactedNames given) entry.extra)), ∃ part,
        (Json.writeAt 1 field.2).map (fun part => Json.quoted field.1 ++ ":" ++ part)
          = .ok part := by
    intro field hfield
    rw [shownEntries_eq] at hfield
    obtain ⟨made, hmade, rfl⟩ := List.mem_map.mp hfield
    obtain ⟨s, hs⟩ := hfields made hmade
    exact ⟨_, map_eq_ok_iff.mpr ⟨s, hs, rfl⟩⟩
  obtain ⟨parts, hparts⟩ := exists_mapM_eq_ok hparts
  unfold Entry.jsonLine
  rw [fields_eq_ok_iff.mpr ⟨own, hown, rfl⟩, ok_bind, shown, Json.write, Json.writeAt,
    if_neg (by decide), Json.writeEntries_eq, hparts]
  exact ⟨_, rfl⟩

/-! ### Reading a line -/

/-- **A line is read as a mapping that has every extra text** that is visible and not redacted under
its own name. -/
theorem exists_read?_of_jsonLine {entry : Entry} {line : String}
    (hline : entry.jsonLine (redactedNames given) = .ok line)
    (hnodup : (entry.extra.map (·.1)).Nodup) :
    ∃ found, Json.read? line = some (.mapping found) ∧
      ∀ name s, (name, .text s) ∈ entry.extra → isVisible name = true → ¬ Redacts given name →
        lookup? name found = some (.text (shortened fieldLimit s)) := by
  obtain ⟨fields, hfields, hwrite⟩ := bind_eq_ok_iff.mp hline
  obtain ⟨own, hown, rfl⟩ := fields_eq_ok_iff.mp hfields
  have hnames : ((shownEntries (insertEntries own
      (shownExtras (redactedNames given) entry.extra))).map (·.1)).Nodup := by
    rw [shownEntries_eq, List.map_map]
    exact nodup_insertEntries (nodup_ownFields hown)
  obtain ⟨found, hread, hfound⟩ := Json.exists_read?_of_write hnames hwrite
  refine ⟨found, hread, fun name s hmem hvisible hredacts => hfound name _ ?_⟩
  have hfield : (name, .text (shortened fieldLimit s)) ∈ insertEntries own
      (shownExtras (redactedNames given) entry.extra) :=
    mem_of_lookup? (lookup?_insertEntries (nodup_shownExtras _ hnodup)
      (mem_shownExtras hmem hvisible hredacts))
  rw [shownEntries_eq, List.mem_map]
  exact ⟨_, hfield, rfl⟩

/-- **What a line of a log tells.**  It does not tell the values of extra attributes that are
redacted: entries that differ in these only have the same line, or fail alike, as long as no
redacted value is called for the message.  An entry has a line if its own fields and its other
values can be written; the line is read as a mapping, in which every visible extra text that is not
redacted stands under its own name, cut off behind 500 characters. -/
theorem logged_line (given : List String) (entry : Entry) :
    (∀ other, DifferInRedacted given entry other →
      ¬ entry.CallsRedacted given → ¬ other.CallsRedacted given →
      entry.jsonLine (redactedNames given) = other.jsonLine (redactedNames given)) ∧
    (∀ own, entry.ownFields = .ok own → Writable entry.level →
      (∀ named ∈ entry.extra, isVisible named.1 = true → ¬ Redacts given named.1 →
        Writable named.2) →
      ∃ line, entry.jsonLine (redactedNames given) = .ok line) ∧
    ((entry.extra.map (·.1)).Nodup → ∀ line, entry.jsonLine (redactedNames given) = .ok line →
      ∃ found, Json.read? line = some (.mapping found) ∧
        ∀ name s, (name, .text s) ∈ entry.extra →
          name ∉ standardNames → name.toList.head? ≠ some '_' → ¬ Redacts given name →
            (s.length ≤ 500 → lookup? name found = some (.text s)) ∧
            (500 < s.length → lookup? name found
              = some (.text (String.ofList (s.toList.take 500 ++ ['.', '.', '.']))))) := by
  refine ⟨fun other hdiffer hentry hother => jsonLine_of_differInRedacted hdiffer hentry hother,
    fun own hown hlevel hextra => exists_jsonLine hown hlevel hextra,
    fun hnodup line hline => ?_⟩
  obtain ⟨found, hread, hfound⟩ := exists_read?_of_jsonLine hline hnodup
  refine ⟨found, hread, fun name s hmem hstandard hprivate hredacts => ?_⟩
  have hvisible : isVisible name = true := by
    unfold isVisible
    rw [Bool.and_eq_true, Bool.not_eq_true', ← Bool.not_eq_true, List.contains_iff_mem,
      bne_iff_ne]
    exact ⟨hstandard, hprivate⟩
  rw [hfound name s hmem hvisible hredacts]
  refine ⟨fun hle => ?_, fun hlt => ?_⟩
  · rw [@shortened_of_le fieldLimit s hle]
  · rw [@shortened_of_lt fieldLimit s hlt]
    rfl

/-- An entry of some extra attributes. -/
def Entry.ofExtra (extra : List (String × Value))
    (called : Value → Option (Except SearchError String)) : Entry :=
  ⟨.int 0, .text "INFO", .text "app", .text "hi", .tuple [], .ok none, extra, called⟩

/-- With the name `Token` given, an entry tells its user and not its token. -/
theorem logged_line_token :
    let entry (token : Value) : Entry :=
      .ofExtra [("TOKEN", token), ("user", .text "ann")] fun _ => none
    ∃ line found, (entry (.text "abc")).jsonLine (redactedNames ["Token"]) = .ok line ∧
      (entry (.int 5)).jsonLine (redactedNames ["Token"]) = .ok line ∧
      Json.read? line = some (.mapping found) ∧ lookup? "user" found = some (.text "ann") := by
  intro entry
  have htoken : Redacts ["Token"] "TOKEN" := by
    unfold Redacts
    decide
  have huser : ¬ Redacts ["Token"] "user" := by
    unfold Redacts
    decide
  have hcalls : ∀ token, ¬ (entry token).CallsRedacted ["Token"] := by
    rintro token ⟨-, maker, -, hcalled⟩
    cases hcalled
  obtain ⟨hsame, hwritten, hread⟩ := logged_line ["Token"] (entry (.text "abc"))
  have hwritable : ∀ named ∈ (entry (.text "abc")).extra, isVisible named.1 = true →
      ¬ Redacts ["Token"] named.1 → Writable named.2 := by
    intro named hnamed _ _
    rcases List.mem_pair.mp hnamed with rfl | rfl <;> exact writable_text _
  obtain ⟨line, hline⟩ := hwritten _ rfl (writable_text "INFO") hwritable
  obtain ⟨found, hfound, htexts⟩ := hread (by decide) line hline
  refine ⟨line, found, hline, ?_, hfound, ?_⟩
  · have hdiffer : DifferInRedacted ["Token"] (entry (.text "abc")) (entry (.int 5)) :=
      ⟨rfl, .cons ⟨rfl, .inr htoken⟩ (.cons ⟨rfl, .inl rfl⟩ .nil)⟩
    rw [← hline, hsame (entry (.int 5)) hdiffer (hcalls _) (hcalls _)]
  · exact (htexts "user" "ann" (by simp [entry, Entry.ofExtra]) (by decide) (by decide) huser).1
      (by decide)

/-- **An extra text is not told beside a value that cannot be written**, nor beside one that hides
the message and cannot be called; and a redacted value that is called is told. -/
theorem untold_and_told :
    let user : String × Value := ("user", .text "ann")
    let called : Value → Option (Except SearchError String)
      | .object attributes => (lookup? "answer" attributes).map fun v => .ok v.plain
      | _ => none
    let secret (answer : String) : Entry :=
      .ofExtra [("getMessage", .object [("answer", .text answer)])] called
    (Entry.ofExtra [user, ("count", .int (2 ^ 70))] called).jsonLine (redactedNames [])
      = .error .wrongKind ∧
    (Entry.ofExtra [user, ("getMessage", .text "x")] called).jsonLine (redactedNames [])
      = .error .wrongKind ∧
    DifferInRedacted ["getMessage"] (secret "a") (secret "b") ∧
    (secret "a").jsonLine (redactedNames ["getMessage"])
      ≠ (secret "b").jsonLine (redactedNames ["getMessage"]) := by
  intro user called secret
  have hredacts : Redacts ["getMessage"] "getMessage" := by
    unfold Redacts
    decide
  exact ⟨by decide +kernel, rfl, ⟨rfl, .cons ⟨rfl, .inr hredacts⟩ .nil⟩, by decide +kernel⟩

end FuzzySearch.Log
