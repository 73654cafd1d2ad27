import FuzzySearch.Json.Reading
import FuzzySearch.Proofs.Calls
import FuzzySearch.Proofs.Json.Floats
import FuzzySearch.Proofs.Json.Texts
import FuzzySearch.Proofs.Value.Entries

/-!
# Values written as JSON and read back

A value of nulls, truth values, texts, integers of a machine word, floating-point numbers that are
neither infinite nor no numbers, lists and mappings with distinct names is written and read back, if
it is not nested too deep (`read?_write`).  A text spells a value (`Spells`) when its scan makes
tokens (`Scans`) that are taken for this value wherever a value may come (`Delivers`); whether a
number or word has come to its end is seen at the mark behind it (`Scans.mark`).
-/

namespace FuzzySearch.Json

/-! ### Values that are read back -/

/-- A value that can be written and read back, with so many levels of lists and mappings at most. -/
inductive Storable : Nat → Value → Prop where
  | null (levels : Nat) : Storable levels .null
  | bool (levels : Nat) (b : Bool) : Storable levels (.bool b)
  | int (levels : Nat) {n : Int} (h : isMachineInteger n = true) : Storable levels (.int n)
  | float (levels : Nat) {x : Float} (h : (x.isNaN || x.isInf) = false) : Storable levels (.float x)
  | text (levels : Nat) (s : String) : Storable levels (.text s)
  | list {levels : Nat} {items : List Value} (h : ∀ item ∈ items, Storable levels item) :
      Storable (levels + 1) (.list items)
  | mapping {levels : Nat} {entries : List (String × Value)}
      (hnodup : (entries.map (·.1)).Nodup) (h : ∀ entry ∈ entries, Storable levels entry.2) :
      Storable (levels + 1) (.mapping entries)

/-! ### Scans of written texts -/

/-- The scan of a text makes some tokens, once its last word has come to an end. -/
def Scans (cs : List Char) (tokens : List Token) : Prop :=
  ∀ made, ∃ scan, cs.foldlM Scan.step ⟨made, .between⟩ = some scan ∧
    scan.endWord = some ⟨tokens.reverse ++ made, .between⟩

/-- The scan of a text makes some tokens, and no word is left open. -/
def Closes (cs : List Char) (tokens : List Token) : Prop :=
  ∀ made, cs.foldlM Scan.step ⟨made, .between⟩ = some ⟨tokens.reverse ++ made, .between⟩

variable {cs cs' : List Char} {tokens tokens' : List Token}

theorem Closes.scans (h : Closes cs tokens) : Scans cs tokens := fun made => ⟨_, h made, rfl⟩

theorem Closes.append (h : Closes cs tokens) (h' : Scans cs' tokens') :
    Scans (cs ++ cs') (tokens ++ tokens') := by
  intro made
  obtain ⟨scan, hscan, hend⟩ := h' (tokens.reverse ++ made)
  refine ⟨scan, ?_, ?_⟩
  · rw [List.foldlM_append, h made]
    exact hscan
  · rw [hend, List.reverse_append, List.append_assoc]

/-- **A mark ends the word before it.** -/
theorem Scans.mark (h : Scans cs tokens) {c : Char} {token : Token} (hc : mark? c = some token) :
    Closes (cs ++ [c]) (tokens ++ [token]) := by
  intro made
  obtain ⟨scan, hscan, hend⟩ := h made
  have hne : ∀ d, mark? d = none → c ≠ d := by
    rintro d hd rfl
    rw [hd] at hc
    cases hc
  have hspace : isSpace c = false := by
    simp [isSpace, hne ' ' rfl, hne '\t' rfl, hne '\n' rfl, hne '\r' rfl]
  have hstep : scan.step c = scan.stepOutside c := by
    unfold Scan.endWord at hend
    unfold Scan.step
    cases hplace : scan.place with
    | text backwards escaped =>
      rw [hplace] at hend
      cases hend
    | between | word backwards => rfl
  have hmark : scan.step c = some ⟨token :: (tokens.reverse ++ made), .between⟩ := by
    rw [hstep, Scan.stepOutside, if_neg (by simp [hspace]), if_neg (hne '"' rfl)]
    simp only [hc, hend, Option.map_some]
  rw [List.foldlM_append, hscan]
  show ([c].foldlM Scan.step scan : Option Scan) = _
  rw [List.foldlM_cons, hmark, List.reverse_append]
  rfl

theorem closes_mark {c : Char} {token : Token} (hc : mark? c = some token) : Closes [c] [token] := by
  have hempty : Scans [] [] := fun made => ⟨_, rfl, rfl⟩
  exact hempty.mark hc

theorem closes_quoted (s : String) : Closes (quoted s).toList [.text s] :=
  fun made => scan_quoted made s

/-- Characters of a word are taken together. -/
theorem scan_word (made : List Token) {cs : List Char} (hcs : ∀ c ∈ cs, WordChar c)
    (backwards : List Char) :
    cs.foldlM Scan.step ⟨made, .word backwards⟩ = some ⟨made, .word (cs.reverse ++ backwards)⟩ := by
  induction cs generalizing backwards with
  | nil => rfl
  | cons c cs ih =>
    obtain ⟨hc, hcs⟩ := List.forall_mem_cons.mp hcs
    have hstep : Scan.step ⟨made, .word backwards⟩ c = some ⟨made, .word (c :: backwards)⟩ := by
      show Scan.stepOutside _ _ = _
      rw [Scan.stepOutside, if_neg (by simp [hc.not_space]), if_neg hc.ne_quote]
      simp only [hc.not_mark]
    rw [List.foldlM_cons, hstep]
    show cs.foldlM Scan.step _ = _
    rw [ih hcs, List.reverse_cons, List.append_assoc, List.singleton_append]

theorem scans_scalar {cs : List Char} {v : Value} (hcs : ∀ c ∈ cs, WordChar c)
    (hv : scalar? cs = some v) : Scans cs [.scalar v] := by
  intro made
  have hne : cs ≠ [] := by
    rintro rfl
    cases hv
  obtain ⟨c, rest, rfl⟩ := List.exists_cons_of_ne_nil hne
  obtain ⟨hc, hrest⟩ := List.forall_mem_cons.mp hcs
  have hstep : Scan.step ⟨made, .between⟩ c = some ⟨made, .word [c]⟩ := by
    show Scan.stepOutside _ _ = _
    rw [Scan.stepOutside, if_neg (by simp [hc.not_space]), if_neg hc.ne_quote]
    simp only [hc.not_mark]
  refine ⟨⟨made, .word (rest.reverse ++ [c])⟩, ?_, ?_⟩
  · rw [List.foldlM_cons, hstep]
    exact scan_word made hrest [c]
  · have hword : (rest.reverse ++ [c]).reverse = c :: rest := by simp
    show (scalar? (rest.reverse ++ [c]).reverse).map _ = _
    rw [hword, hv]
    rfl

/-! ### Tokens of a value -/

/-- A value may come next. -/
def Expected.TakesValue : Expected → Prop
  | .value | .valueOrEnd => True
  | _ => False

/-- Some tokens are taken for a value, inside `level` lists and mappings at most. -/
def Delivers (level : Nat) (tokens : List Token) (v : Value) : Prop :=
  ∀ frames : List Frame, frames.length ≤ level → ∀ expected : Expected, expected.TakesValue →
    tokens.foldlM Reader.step ⟨frames, expected⟩ = some (Reader.deliver v frames)

/-- A text that is read as a value, inside `level` lists and mappings at most. -/
def Spells (level : Nat) (cs : List Char) (v : Value) : Prop :=
  ∃ tokens, Scans cs tokens ∧ Delivers level tokens v

theorem step_of_takesValue {frames : List Frame} {expected : Expected} (h : expected.TakesValue)
    {token : Token} (htoken : token ≠ .closeList) :
    Reader.step ⟨frames, expected⟩ token = Reader.beginValue ⟨frames, expected⟩ token := by
  cases expected with
  | value => rfl
  | valueOrEnd =>
    cases token with
    | closeList => exact absurd rfl htoken
    | _ => rfl
  | _ => exact absurd h id

theorem delivers_text (level : Nat) (s : String) : Delivers level [.text s] (.text s) := by
  intro frames _ expected hexpected
  rw [List.foldlM_cons, step_of_takesValue hexpected (by simp)]
  rfl

theorem delivers_scalar (level : Nat) (v : Value) : Delivers level [.scalar v] v := by
  intro frames _ expected hexpected
  rw [List.foldlM_cons, step_of_takesValue hexpected (by simp)]
  rfl

theorem spells_scalar (level : Nat) {cs : List Char} {v : Value} (hcs : ∀ c ∈ cs, WordChar c)
    (hv : scalar? cs = some v) : Spells level cs v :=
  ⟨_, scans_scalar hcs hv, delivers_scalar level v⟩

/-! ### Lists -/

/-- Some tokens are taken for the items of a list that is open. -/
def DeliversItems (level : Nat) (tokens : List Token) (items : List Value) : Prop :=
  ∀ frames : List Frame, frames.length < level → ∀ expected : Expected, expected.TakesValue →
    ∀ backwards, tokens.foldlM Reader.step ⟨.list backwards :: frames, expected⟩
      = some ⟨.list (items.reverse ++ backwards) :: frames, .commaOrEnd⟩

variable {level : Nat}

/-- Texts that spell values, joined by commas, are taken for the items of a list. -/
theorem spells_items {items : List Value} {parts : List (List Char)} (hne : items ≠ [])
    (h : List.Forall₂ (fun item part => Spells level part item) items parts) :
    ∃ tokens, Scans ([','].intercalate parts) tokens ∧ DeliversItems level tokens items := by
  induction h with
  | nil => exact absurd rfl hne
  | @cons item part items parts hitem hitems ih =>
    obtain ⟨tokens, hscans, hdelivers⟩ := hitem
    have hfirst : ∀ frames : List Frame, frames.length < level → ∀ expected : Expected,
        expected.TakesValue → ∀ backwards,
          tokens.foldlM Reader.step ⟨.list backwards :: frames, expected⟩
            = some ⟨.list (item :: backwards) :: frames, .commaOrEnd⟩ :=
      fun frames hframes expected hexpected backwards =>
        hdelivers (.list backwards :: frames) hframes expected hexpected
    cases hitems with
    | nil =>
      rw [List.intercalate_singleton]
      exact ⟨tokens, hscans, hfirst⟩
    | @cons item' part' items parts hitem' hitems =>
      obtain ⟨others, hothers, hrest⟩ := ih (List.cons_ne_nil _ _)
      refine ⟨tokens ++ [.comma] ++ others, ?_, ?_⟩
      · rw [List.intercalate_cons_cons]
        exact (hscans.mark rfl).append hothers
      · intro frames hframes expected hexpected backwards
        rw [List.foldlM_append, List.foldlM_append, hfirst frames hframes expected hexpected]
        show others.foldlM Reader.step ⟨.list (item :: backwards) :: frames, .value⟩ = _
        rw [hrest frames hframes .value trivial]
        simp

theorem enter_eq {frames : List Frame} (h : frames.length < deepest) (frame : Frame)
    (expected expected' : Expected) :
    Reader.enter ⟨frames, expected⟩ frame expected' = some ⟨frame :: frames, expected'⟩ := if_pos h

theorem spells_empty_list (hlevel : level < deepest) : Spells level ['[', ']'] (.list []) := by
  have hopen : Closes ['['] [.openList] := closes_mark rfl
  have hclose : Closes [']'] [.closeList] := closes_mark rfl
  refine ⟨_, hopen.append hclose.scans, fun frames hframes expected hexpected => ?_⟩
  rw [List.singleton_append, List.foldlM_cons, step_of_takesValue hexpected (by simp),
    Reader.beginValue, enter_eq (by omega)]
  rfl

/-- **A list is spelled by its items between brackets.** -/
theorem spells_list {items : List Value} {parts : List (List Char)} (hne : items ≠ [])
    (hlevel : level < deepest)
    (h : List.Forall₂ (fun item part => Spells (level + 1) part item) items parts) :
    Spells level (['['] ++ ([','].intercalate parts ++ [']'])) (.list items) := by
  obtain ⟨tokens, hscans, hdelivers⟩ := spells_items hne h
  have hopen : Closes ['['] [.openList] := closes_mark rfl
  have hclosed : Scans ([','].intercalate parts ++ [']']) (tokens ++ [Token.closeList]) :=
    (hscans.mark rfl).scans
  refine ⟨_, hopen.append hclosed, ?_⟩
  intro frames hframes expected hexpected
  rw [List.singleton_append, List.foldlM_cons, step_of_takesValue hexpected (by simp),
    Reader.beginValue, enter_eq (by omega)]
  show (tokens ++ [Token.closeList]).foldlM Reader.step ⟨.list [] :: frames, .valueOrEnd⟩ = _
  rw [List.foldlM_append, hdelivers frames (by omega) .valueOrEnd trivial, List.append_nil]
  show some (Reader.deliver (.list items.reverse.reverse) frames) = _
  rw [List.reverse_reverse]

/-! ### Mappings -/

/-- A name may come next. -/
def Expected.TakesName : Expected → Prop
  | .name | .nameOrEnd => True
  | _ => False

/-- Some tokens are taken for the entries of a mapping that is open. -/
def DeliversEntries (level : Nat) (tokens : List Token) (entries : List (String × Value)) : Prop :=
  ∀ frames : List Frame, frames.length < level → ∀ expected : Expected, expected.TakesName →
    ∀ before : List (String × Value),
      tokens.foldlM Reader.step ⟨.mapping before :: frames, expected⟩
        = some ⟨.mapping (insertEntries before entries) :: frames, .commaOrEnd⟩

/-- The text of an entry. -/
def entryText (name : String) (part : List Char) : List Char :=
  (quoted name).toList ++ [':'] ++ part

theorem spells_entry {name : String} {v : Value} {part : List Char} (h : Spells level part v) :
    ∃ tokens, Scans (entryText name part) tokens ∧ DeliversEntries level tokens [(name, v)] := by
  obtain ⟨tokens, hscans, hdelivers⟩ := h
  refine ⟨_, ((closes_quoted name).scans.mark rfl).append hscans, ?_⟩
  intro frames hframes expected hexpected before
  have hname : Reader.step ⟨.mapping before :: frames, expected⟩ (.text name)
      = some ⟨.entry before name :: frames, .colon⟩ := by
    cases expected with
    | name | nameOrEnd => rfl
    | _ => exact absurd hexpected id
  rw [List.append_assoc, List.singleton_append, List.foldlM_cons, hname]
  show tokens.foldlM Reader.step ⟨.entry before name :: frames, .value⟩ = _
  exact hdelivers (.entry before name :: frames) hframes .value trivial

/-- Entries joined by commas are taken for those of a mapping. -/
theorem spells_entries {entries : List (String × Value)} {parts : List (List Char)}
    (hne : entries ≠ [])
    (h : List.Forall₂ (fun entry part => ∃ text, part = entryText entry.1 text ∧
      Spells level text entry.2) entries parts) :
    ∃ tokens, Scans ([','].intercalate parts) tokens ∧ DeliversEntries level tokens entries := by
  induction h with
  | nil => exact absurd rfl hne
  | @cons entry part entries parts hentry hentries ih =>
    obtain ⟨text, rfl, hspells⟩ := hentry
    obtain ⟨tokens, hscans, hfirst⟩ := @spells_entry level entry.1 entry.2 text hspells
    cases hentries with
    | nil =>
      rw [List.intercalate_singleton]
      exact ⟨tokens, hscans, hfirst⟩
    | cons hentry' hentries =>
      obtain ⟨others, hothers, hrest⟩ := ih (List.cons_ne_nil _ _)
      refine ⟨tokens ++ [.comma] ++ others, ?_, ?_⟩
      · rw [List.intercalate_cons_cons]
        exact (hscans.mark rfl).append hothers
      · intro frames hframes expected hexpected before
        rw [List.foldlM_append, List.foldlM_append,
          hfirst frames hframes expected hexpected before]
        show others.foldlM Reader.step
          ⟨.mapping (insertEntry entry.1 entry.2 before) :: frames, .name⟩ = _
        exact hrest frames hframes .name trivial _

theorem spells_empty_mapping (hlevel : level < deepest) :
    Spells level ['\x7b', '\x7d'] (.mapping []) := by
  have hopen : Closes ['\x7b'] [.openMapping] := closes_mark rfl
  have hclose : Closes ['\x7d'] [.closeMapping] := closes_mark rfl
  refine ⟨_, hopen.append hclose.scans, fun frames hframes expected hexpected => ?_⟩
  rw [List.singleton_append, List.foldlM_cons, step_of_takesValue hexpected (by simp),
    Reader.beginValue, enter_eq (by omega)]
  rfl

/-- **A mapping is spelled by its entries between braces**; the last entry of a name counts. -/
theorem spells_mapping {entries : List (String × Value)} {parts : List (List Char)}
    (hlevel : level < deepest)
    (h : List.Forall₂ (fun entry part => ∃ text, part = entryText entry.1 text ∧
      Spells (level + 1) text entry.2) entries parts) :
    Spells level (['\x7b'] ++ ([','].intercalate parts ++ ['\x7d']))
      (.mapping (insertEntries [] entries)) := by
  by_cases hne : entries = []
  · subst hne
    cases h
    exact spells_empty_mapping hlevel
  · obtain ⟨tokens, hscans, hdelivers⟩ := spells_entries hne h
    have hopen : Closes ['\x7b'] [.openMapping] := closes_mark rfl
    have hclosed : Scans ([','].intercalate parts ++ ['\x7d']) (tokens ++ [Token.closeMapping]) :=
      (hscans.mark rfl).scans
    refine ⟨_, hopen.append hclosed, ?_⟩
    intro frames hframes expected hexpected
    rw [List.singleton_append, List.foldlM_cons, step_of_takesValue hexpected (by simp),
      Reader.beginValue, enter_eq (by omega)]
    show (tokens ++ [Token.closeMapping]).foldlM Reader.step
      ⟨.mapping [] :: frames, .nameOrEnd⟩ = _
    rw [List.foldlM_append, hdelivers frames (by omega) .nameOrEnd trivial []]
    rfl

/-! ### Writing and reading -/

theorem writeItems_eq (level : Nat) (items : List Value) :
    writeItems level items = items.mapM (writeAt level) := by
  induction items with
  | nil => rfl
  | cons item rest ih => rw [writeItems, ih, List.mapM_cons]

theorem writeEntries_eq (level : Nat) (entries : List (String × Value)) :
    writeEntries level entries = entries.mapM fun entry =>
      (writeAt level entry.2).map fun part => quoted entry.1 ++ ":" ++ part := by
  induction entries with
  | nil => rfl
  | cons entry rest ih =>
    obtain ⟨name, v⟩ := entry
    rw [writeEntries, ih, List.mapM_cons]
    cases writeAt level v with
    | error e => rfl
    | ok part => rfl

theorem toList_bracketed (opening closing : String) (parts : List String) :
    (opening ++ listed parts ++ closing).toList
      = opening.toList ++ ([','].intercalate (parts.map String.toList) ++ closing.toList) := by
  rw [String.toList_append, String.toList_append, listed, String.toList_intercalate,
    List.append_assoc]
  rfl

theorem exists_writeAt_list {items : List Value} (hlevel : level < deepestWritten)
    (h : ∀ item ∈ items, ∃ s, writeAt (level + 1) item = .ok s ∧ Spells (level + 1) s.toList item) :
    ∃ s, writeAt level (.list items) = .ok s ∧ Spells level s.toList (.list items) := by
  have hdeepest : level < deepest := lt_of_lt_of_le hlevel (by decide)
  by_cases hne : items = []
  · rw [hne]
    exact ⟨"[]", rfl, spells_empty_list hdeepest⟩
  · obtain ⟨parts, hparts, hspells⟩ := exists_forall₂_of_mapM h
    refine ⟨"[" ++ listed parts ++ "]", ?_, ?_⟩
    · rw [writeAt, if_neg (by simpa using hne), if_neg (by omega), writeItems_eq, hparts]
      rfl
    · rw [toList_bracketed]
      exact spells_list hne hdeepest (List.forall₂_map_right_iff.mpr hspells)

theorem exists_writeAt_mapping {entries : List (String × Value)} (hlevel : level < deepestWritten)
    (hnodup : (entries.map (·.1)).Nodup)
    (h : ∀ entry ∈ entries, ∃ s, writeAt (level + 1) entry.2 = .ok s ∧
      Spells (level + 1) s.toList entry.2) :
    ∃ s, writeAt level (.mapping entries) = .ok s ∧ Spells level s.toList (.mapping entries) := by
  have hdeepest : level < deepest := lt_of_lt_of_le hlevel (by decide)
  have hwritten : ∀ entry ∈ entries, ∃ part : String,
      (writeAt (level + 1) entry.2).map (fun part => quoted entry.1 ++ ":" ++ part) = .ok part ∧
        ∃ text, part.toList = entryText entry.1 text ∧ Spells (level + 1) text entry.2 := by
    intro entry hentry
    obtain ⟨s, hs, hspells⟩ := h entry hentry
    refine ⟨quoted entry.1 ++ ":" ++ s, by rw [hs]; rfl, s.toList, ?_, hspells⟩
    rw [String.toList_append, String.toList_append]
    rfl
  obtain ⟨parts, hparts, hspells⟩ := exists_forall₂_of_mapM hwritten
  refine ⟨"\x7b" ++ listed parts ++ "\x7d", ?_, ?_⟩
  · rw [writeAt, if_neg (by omega), writeEntries_eq, hparts]
    rfl
  · have hentries : insertEntries [] entries = entries := insertEntries_of_nodup hnodup
    rw [toList_bracketed, ← hentries]
    exact spells_mapping hdeepest (List.forall₂_map_right_iff.mpr hspells)

/-- **A value that can be stored is written as a text that spells it.** -/
theorem Storable.spells {levels : Nat} {v : Value} (h : Storable levels v) :
    ∀ {level : Nat}, level + levels ≤ deepestWritten →
      ∃ s, writeAt level v = .ok s ∧ Spells level s.toList v := by
  induction h with
  | null =>
    exact fun {level} _ =>
      ⟨_, rfl, spells_scalar level (List.all_iff_forall_prop.mp (by decide)) rfl⟩
  | bool levels b =>
    intro level _
    refine ⟨_, rfl, ?_⟩
    cases b <;> exact spells_scalar level (List.all_iff_forall_prop.mp (by decide)) rfl
  | @int levels n h =>
    exact fun {level} _ =>
      ⟨_, if_pos h, spells_scalar level (wordChar_intText n) (scalar?_intText h)⟩
  | @float levels x h =>
    intro level _
    have htext : writeAt level (.float x) = .ok (layout.text x) := by
      rw [writeAt, if_neg (by rw [h]; exact Bool.false_ne_true)]
    exact ⟨_, htext, spells_scalar level (wordChar_text h) (scalar?_text h)⟩
  | text levels s =>
    exact fun {level} _ => ⟨_, rfl, _, (closes_quoted s).scans, delivers_text level s⟩
  | list _ ih =>
    exact fun hlevel => exists_writeAt_list (by omega) fun item hitem => ih item hitem (by omega)
  | mapping hnodup _ ih =>
    exact fun hlevel =>
      exists_writeAt_mapping (by omega) hnodup fun entry hentry => ih entry hentry (by omega)

/-- A text that spells a value is read as that value. -/
theorem read?_of_spells {s : String} {v : Value} (h : Spells 0 s.toList v) : read? s = some v := by
  obtain ⟨tokens, hscans, hdelivers⟩ := h
  obtain ⟨scan, hscan, hend⟩ := hscans []
  have htokens : tokens? s.toList = some tokens := by
    unfold tokens?
    rw [hscan]
    show (scan.endWord >>= fun scan => some scan.made.reverse) = _
    rw [hend]
    simp
  unfold read?
  rw [htokens]
  show (tokens.foldlM Reader.step ⟨[], .value⟩ >>= _) = some v
  rw [hdelivers [] (Nat.le_refl 0) .value trivial]
  rfl

/-- **A value is read back from the text that is written for it.** -/
theorem read?_write {levels : Nat} {v : Value} (h : Storable levels v)
    (hlevels : levels ≤ deepestWritten) : ∃ s, write v = .ok s ∧ read? s = some v := by
  obtain ⟨s, hs, hspells⟩ := @Storable.spells levels v h 0 (by omega)
  exact ⟨s, hs, read?_of_spells hspells⟩

end FuzzySearch.Json
