import FuzzySearch.Proofs.Bitap.Matching
import FuzzySearch.Proofs.Bitap.Threshold
import FuzzySearch.Proofs.EditScript

/-!
# What a search sees

A row looks only at a window of the text, so a search need not find a part of the text that is close
to the pattern: while it follows the letters from one to the other, it may run against the end of a
window.  Here an edit script stands for that way.  It is in view (`InView`) if each of its rests
begins in the window of the row of its errors, or has an error for each letter of the pattern, which
is counted without looking at the text.

* `seenFrom_of_testBit_rowBits`: a bit is set only if a script in view accounts for it.
* `Aligns.testBit_rowBits`: a script in view sets its bit in the row of its errors.
* `located_search_iff_seen`: so a search matches exactly if some script from the pattern is in view
  and passes the threshold.  Near the expected position that is so unless the part of the text has
  too many letters more than the pattern.
-/

namespace FuzzySearch.Bitap

open ScoreNumber Text

variable {p : Problem} {text pattern : List Char} {threshold : Rat}

/-! ### Windows and scripts in view -/

/-- A row of so many errors looks at a position: it looks as far as the pattern is long past each
position of the text where a match could pass the threshold. -/
def InWindow (p : Problem) (threshold : Rat) (errors position : Nat) : Prop :=
  p.findAll = true ∨
    ∃ q, p.expected ≤ q ∧ q ≤ p.masks.size ∧ (p.score errors q : Rat) ≤ threshold ∧
      position < q + p.length

/-- Each rest of a script begins in the window of its errors, or has an error for every letter that
it reads. -/
def InView (p : Problem) (threshold : Rat) (position : Nat) (script : List Edit) : Prop :=
  ∀ before rest, script = before ++ rest →
    (source rest).length ≤ cost rest ∨
      InWindow p threshold (cost rest) (position + (target before).length)

theorem InWindow.mono (hp : p.Proper) {threshold' : Rat} {errors errors' position : Nat}
    (h : InWindow p threshold errors position) (hle : threshold ≤ threshold')
    (herr : errors' ≤ errors) (hlen : errors ≤ p.length) :
    InWindow p threshold' errors' position := by
  refine h.imp_right ?_
  rintro ⟨q, hexpected, hsize, hscore, hlt⟩
  have hscore' := score_mono hp herr (herr.trans hlen) (Nat.le_refl (p.way q))
  exact ⟨q, hexpected, hsize, (hscore'.trans hscore).trans hle, hlt⟩

theorem InView.mono (hp : p.Proper) {threshold' : Rat} {position : Nat} {script : List Edit}
    (h : InView p threshold position script) (hle : threshold ≤ threshold')
    (hlen : cost script ≤ p.length) : InView p threshold' position script := by
  rintro before rest rfl
  refine (h before rest rfl).imp_right fun hwindow => hwindow.mono hp hle (Nat.le_refl _) ?_
  rw [cost_append] at hlen
  omega

theorem InView.head {position : Nat} {script : List Edit} (h : InView p threshold position script) :
    (source script).length ≤ cost script ∨ InWindow p threshold (cost script) position :=
  h [] script rfl

theorem inView_cons {position : Nat} {edit : Edit} {rest : List Edit} :
    InView p threshold position (edit :: rest) ↔
      ((source (edit :: rest)).length ≤ cost (edit :: rest) ∨
          InWindow p threshold (cost (edit :: rest)) position) ∧
        InView p threshold (position + edit.target.length) rest := by
  constructor
  · intro h
    refine ⟨h.head, ?_⟩
    rintro before rest' rfl
    have hrest := h (edit :: before) rest' rfl
    rwa [target_cons, List.length_append, ← Nat.add_assoc] at hrest
  · rintro ⟨hhead, hrest⟩ before rest' heq
    rcases List.cons_eq_append_iff.mp heq with ⟨rfl, rfl⟩ | ⟨before', rfl, rfl⟩
    · exact hhead
    · rw [target_cons, List.length_append, ← Nat.add_assoc]
      exact hrest before' rest' rfl

/-- A script that writes nothing is in view everywhere. -/
theorem inView_of_target_eq_nil {script : List Edit} (h : target script = []) (position : Nat) :
    InView p threshold position script := by
  rintro before rest rfl
  rw [target_append, List.append_eq_nil_iff] at h
  exact Or.inl (length_source_le_cost_of_target_eq_nil h.2)

/-! ### Alignments -/

/-- A script in view leads from some letters to what begins at a position of the text. -/
structure Aligns (p : Problem) (text : List Char) (threshold : Rat) (position : Nat)
    (letters : List Char) (script : List Edit) : Prop where
  source_eq : source script = letters
  target_prefix : target script <+: text.drop position
  inView : InView p threshold position script

theorem aligns_of_target_eq_nil {script : List Edit} (h : target script = []) (position : Nat) :
    Aligns p text threshold position (source script) script where
  source_eq := rfl
  target_prefix := h ▸ List.nil_prefix
  inView := inView_of_target_eq_nil h position

/-- One more step at the beginning of a script, in the window of its errors. -/
theorem Aligns.cons {position : Nat} {letters : List Char} {edit : Edit} {rest : List Edit}
    (h : Aligns p text threshold (position + edit.target.length) letters rest)
    (htarget : edit.target <+: text.drop position)
    (hwindow : InWindow p threshold (cost (edit :: rest)) position) :
    Aligns p text threshold position (edit.source ++ letters) (edit :: rest) where
  source_eq := by rw [source_cons, h.source_eq]
  target_prefix := by
    obtain ⟨tail, htail⟩ := htarget
    have hrest := h.target_prefix
    rw [← List.drop_drop, ← htail, List.drop_left] at hrest
    rw [target_cons, ← htail]
    exact (List.prefix_append_right_inj _).mpr hrest
  inView := inView_cons.mpr ⟨Or.inr hwindow, h.inView⟩

/-- **The first step of a script**: the letters agree and cost nothing, or an error is spent on the
letters of pattern and text, on the letter of the pattern, or on the letter of the text. -/
theorem Aligns.uncons {position : Nat} {a : Char} {letters : List Char} {edit : Edit}
    {rest : List Edit} (h : Aligns p text threshold position (a :: letters) (edit :: rest)) :
    cost (edit :: rest) = cost rest ∧ text[position]? = some a ∧
        Aligns p text threshold (position + 1) letters rest ∨
      cost (edit :: rest) = cost rest + 1 ∧
        (Aligns p text threshold (position + 1) letters rest ∨
          Aligns p text threshold position letters rest ∨
          Aligns p text threshold (position + 1) (a :: letters) rest) := by
  have hrest := (inView_cons.mp h.inView).2
  -- a letter that is written is the next of the text
  have hwritten : ∀ b : Char, [b] ++ target rest <+: text.drop position →
      text[position]? = some b ∧ target rest <+: text.drop (position + 1) := by
    rintro b ⟨tail, htail⟩
    rw [← List.head?_drop, ← List.tail_drop, ← htail]
    exact ⟨rfl, tail, rfl⟩
  obtain ⟨hsource, htarget, -⟩ := h
  rw [source_cons] at hsource
  rw [target_cons] at htarget
  rw [cost_cons]
  cases edit with
  | keep b =>
    obtain ⟨rfl, hletters⟩ := List.cons.inj hsource
    obtain ⟨hb, htarget⟩ := hwritten b htarget
    exact Or.inl ⟨Nat.zero_add _, hb, hletters, htarget, hrest⟩
  | replace a' b =>
    obtain ⟨-, hletters⟩ := List.cons.inj hsource
    exact Or.inr ⟨Nat.add_comm .., Or.inl ⟨hletters, (hwritten b htarget).2, hrest⟩⟩
  | delete a' =>
    obtain ⟨-, hletters⟩ := List.cons.inj hsource
    exact Or.inr ⟨Nat.add_comm .., Or.inr (Or.inl ⟨hletters, htarget, hrest⟩)⟩
  | insert b =>
    exact Or.inr ⟨Nat.add_comm .., Or.inr (Or.inr ⟨hsource, (hwritten b htarget).2, hrest⟩)⟩

/-! ### What accounts for a bit -/

/-- Some script in view leads from some letters to what begins at a position of the text. -/
def SeenFrom (p : Problem) (text : List Char) (threshold : Rat) (errors position : Nat)
    (letters : List Char) : Prop :=
  ∃ script, Aligns p text threshold position letters script ∧ cost script ≤ errors

section seenFrom

variable {errors position : Nat} {letters : List Char}

theorem seenFrom_of_length_le (h : letters.length ≤ errors) :
    SeenFrom p text threshold errors position letters := by
  have haligns := @aligns_of_target_eq_nil p text threshold _ (target_deletions letters) position
  rw [source_deletions] at haligns
  exact ⟨_, haligns, by rwa [cost_deletions]⟩

theorem SeenFrom.mono {errors' : Nat} (h : SeenFrom p text threshold errors position letters)
    (hle : errors ≤ errors') : SeenFrom p text threshold errors' position letters := by
  obtain ⟨script, haligns, hcost⟩ := h
  exact ⟨script, haligns, hcost.trans hle⟩

/-- Past the end of a text everything is seen alike. -/
theorem SeenFrom.of_length_le {position' : Nat}
    (h : SeenFrom p text threshold errors position letters) (hdrop : text.length ≤ position) :
    SeenFrom p text threshold errors position' letters := by
  obtain ⟨script, ⟨rfl, hprefix, -⟩, hcost⟩ := h
  rw [List.drop_eq_nil_of_le hdrop, List.prefix_nil] at hprefix
  exact ⟨script, aligns_of_target_eq_nil hprefix position', hcost⟩

theorem SeenFrom.step (hp : p.Proper) {errors' : Nat} (edit : Edit)
    (h : SeenFrom p text threshold errors (position + edit.target.length) letters)
    (htarget : edit.target <+: text.drop position) (hcost : edit.cost + errors ≤ errors')
    (hlen : errors' ≤ p.length) (hwindow : InWindow p threshold errors' position) :
    SeenFrom p text threshold errors' position (edit.source ++ letters) := by
  obtain ⟨script, haligns, hscript⟩ := h
  have hcosts : cost (edit :: script) ≤ errors' := by
    rw [cost_cons]
    omega
  exact ⟨edit :: script, haligns.cons htarget (hwindow.mono hp le_rfl hcosts hlen), hcosts⟩

/-- The next letter of a text begins what is left of it. -/
theorem prefix_drop_of_getElem? {b : Char} (h : text[position]? = some b) :
    [b] <+: text.drop position := by
  rw [drop_of_getElem? h]
  exact ⟨_, rfl⟩

/-- A letter of the pattern is exchanged, or deleted past the end of the text. -/
theorem SeenFrom.replace (hp : p.Proper) (a : Char)
    (h : SeenFrom p text threshold errors (position + 1) letters) (hlen : errors + 1 ≤ p.length)
    (hwindow : InWindow p threshold (errors + 1) position) :
    SeenFrom p text threshold (errors + 1) position (a :: letters) := by
  cases hb : text[position]? with
  | none =>
    have hend := Nat.le_succ_of_le (List.getElem?_eq_none_iff.mp hb)
    exact SeenFrom.step hp (.delete a) (h.of_length_le hend) List.nil_prefix (Nat.add_comm ..).le
      hlen hwindow
  | some b =>
    exact SeenFrom.step hp (.replace a b) h (prefix_drop_of_getElem? hb) (Nat.add_comm ..).le hlen
      hwindow

/-- A letter of the text is inserted, unless the text has ended. -/
theorem SeenFrom.insert (hp : p.Proper)
    (h : SeenFrom p text threshold errors (position + 1) letters) (hlen : errors + 1 ≤ p.length)
    (hwindow : InWindow p threshold (errors + 1) position) :
    SeenFrom p text threshold (errors + 1) position letters := by
  cases hb : text[position]? with
  | none =>
    have hend := Nat.le_succ_of_le (List.getElem?_eq_none_iff.mp hb)
    exact (h.of_length_le hend).mono (Nat.le_succ errors)
  | some b =>
    exact SeenFrom.step hp (.insert b) h (prefix_drop_of_getElem? hb) (Nat.add_comm ..).le hlen
      hwindow

end seenFrom

/-- Before row `errors`: each bit of the last row is accounted for. -/
def RowSeen (p : Problem) (text pattern : List Char) (threshold : Rat) (errors : Nat)
    (row : Nat → Nat) : Prop :=
  ∀ d, errors = d + 1 → ∀ i k, k < pattern.length → (row (i + 1)).testBit k = true →
    SeenFrom p text threshold d i (lastLetters pattern (k + 1))

variable {errors : Nat} {s : Progress Rat}

/-- A row is scanned only in its window. -/
theorem inWindow_of_lt_finish (hp : p.Proper) (h : Ready p errors s) {position : Nat}
    (hlt : position < finish p (rowReach p errors s)) :
    InWindow p s.best.threshold errors position := by
  unfold finish at hlt
  split_ifs at hlt with hall
  · exact Or.inl hall
  · have hexpected := hp.expected_le
    have hscore := (le_rowReach_iff hp h (rowReach_le h)).mp (Nat.le_refl _)
    refine Or.inr ⟨min (p.expected + rowReach p errors s) p.masks.size, by omega, by omega, ?_, hlt⟩
    refine (score_mono hp (Nat.le_refl errors) h.errors_le ?_).trans hscore
    rw [way_add]
    unfold Problem.way
    omega

/-- **A bit of the full row is accounted for** if those of the row before are. -/
theorem seenFrom_of_testBit_rowBits (hp : p.Reads text pattern) (hproper : p.Proper)
    (hready : Ready p errors s)
    (hlast : RowSeen p text pattern s.best.threshold errors fun i => s.row.getD i 0) {i k : Nat}
    (hk : k < pattern.length) (hbit : (rowBits p errors s (i + 1)).testBit k = true) :
    SeenFrom p text s.best.threshold errors i (lastLetters pattern (k + 1)) := by
  have hlen := hready.errors_le
  refine testBit_rowBits_induction p errors s pattern.length
    (motive := fun i k => SeenFrom p text s.best.threshold errors i (lastLetters pattern k))
    ?_ ?_ ?_ hk hbit
  · intro i k herr hk
    exact seenFrom_of_length_le (by rwa [length_lastLetters hk])
  -- the letters agree, and the other letters are found one character further on
  · intro i k hk hi hmask hrest
    obtain ⟨a, ha, hletters⟩ := lastLetters_succ hk
    obtain ⟨-, c, hc, hac⟩ := (hp.testBit_mask i k).mp hmask
    obtain rfl : a = c := Option.some.inj (ha.symm.trans hac)
    rw [hletters]
    exact SeenFrom.step hproper (.keep a) hrest (prefix_drop_of_getElem? hc)
      (Nat.zero_add errors).le hlen (inWindow_of_lt_finish hproper hready hi)
  -- an error is spent, and the rest was found in the row before
  · rintro i k d hk hi rfl hspent
    obtain ⟨a, -, hletters⟩ := lastLetters_succ hk
    have hwindow := inWindow_of_lt_finish hproper hready hi
    rw [hletters]
    rcases hspent with h | h | h
    · exact (hlast d rfl (i + 1) k (by omega) h).replace hproper a hlen hwindow
    · exact SeenFrom.step hproper (.delete a) (hlast d rfl i k (by omega) h) List.nil_prefix
        (Nat.add_comm ..).le hlen hwindow
    · rw [← hletters]
      exact (hlast d rfl (i + 1) (k + 1) hk h).insert hproper hlen hwindow

/-! ### Which bits are set -/

/-- Before row `errors`: a script in view with the errors of the last row sets its bit there, as far
as the row goes. -/
def RowSees (p : Problem) (text pattern : List Char) (threshold : Rat) (errors reach : Nat)
    (row : Nat → Nat) : Prop :=
  ∀ i k script, k < pattern.length → errors = cost script + 1 →
    Aligns p text threshold i (lastLetters pattern (k + 1)) script →
    p.expected < i + 1 + reach → i ≤ finish p reach → (row (i + 1)).testBit k = true

/-- A script that is not all errors begins in the text. -/
theorem Aligns.lt_length {i : Nat} {letters : List Char} {script : List Edit}
    (h : Aligns p text threshold i letters script) (hcost : cost script < letters.length) :
    i < text.length := by
  obtain ⟨rfl, htarget, -⟩ := h
  by_contra hle
  rw [List.drop_eq_nil_of_le (Nat.le_of_not_lt hle), List.prefix_nil] at htarget
  have := length_source_le_cost_of_target_eq_nil htarget
  omega

/-- A script in view that is not all errors begins in the row of its errors. -/
theorem Aligns.lt_finish (hp : p.Reads text pattern) {reach i : Nat} {letters : List Char}
    {script : List Edit} (h : Aligns p text threshold i letters script)
    (hreach : ∀ w, w ≤ p.span → (p.score (cost script) (p.expected + w) : Rat) ≤ threshold →
      w ≤ reach)
    (hcost : cost script < letters.length) : i < finish p reach := by
  have hsize := hp.size_masks
  have hi := h.lt_length hcost
  rcases h.inView.head with hle | hall | ⟨q, hexpected, hq, hscore, hlt⟩
  · rw [h.source_eq] at hle
    omega
  · rw [finish, if_pos hall, hsize]
    exact hi
  · have hw := hreach (q - p.expected) (by unfold Problem.span; omega)
      (by rwa [Nat.add_sub_cancel' hexpected])
    unfold finish
    split_ifs <;> omega

/-- **A script in view sets its bit in the full row of its errors.** -/
theorem Aligns.testBit_rowBits (hp : p.Reads text pattern) (hproper : p.Proper)
    (hready : Ready p errors s) (hthreshold : s.best.threshold = threshold)
    (hlow : LowBits p errors s)
    (hreach : ∀ d, errors = d + 1 → ∀ w, w ≤ p.span →
      (p.score d (p.expected + w) : Rat) ≤ threshold → w ≤ s.reach)
    (hlast : RowSees p text pattern threshold errors s.reach fun i => s.row.getD i 0)
    {i k : Nat} {script : List Edit} (hk : k < pattern.length) (hcost : errors = cost script)
    (h : Aligns p text threshold i (lastLetters pattern (k + 1)) script)
    (hleft : p.expected < i + 1 + rowReach p errors s)
    (hi : i ≤ finish p (rowReach p errors s)) :
    (rowBits p errors s (i + 1)).testBit k = true := by
  have hwider : rowReach p errors s ≤ s.reach := reach_le _ _
  -- along the script: its steps are the ways in which a cell gets its bits
  induction script generalizing i k with
  | nil =>
    have := congrArg List.length h.source_eq
    rw [length_lastLetters (by omega)] at this
    cases this
  | cons edit rest ih =>
    rcases Nat.lt_or_ge k errors with hlt | hspare
    -- an error for each letter needs no look at the text
    · exact testBit_rowBits_of_lt hlow hlt hleft hi
    · have hfinish : i < finish p (rowReach p errors s) := by
        refine h.lt_finish hp (fun w hw hscore => ?_) ?_
        · rw [le_rowReach_iff hproper hready hw, hthreshold, hcost]
          exact hscore
        · rw [length_lastLetters (by omega)]
          omega
      -- a rest that costs one error less was seen by the row before
      have hbefore : ∀ j k', k' < pattern.length → i ≤ j → errors = cost rest + 1 →
          cost rest ≤ k' → Aligns p text threshold j (lastLetters pattern (k' + 1)) rest →
          (s.row.getD (j + 1) 0).testBit k' = true := by
        intro j k' hk' hij herr hspare' hrest
        refine hlast j k' rest hk' herr hrest (by omega) (hrest.lt_finish hp (hreach _ herr) ?_).le
        rw [length_lastLetters (by omega)]
        omega
      obtain ⟨a, ha, hletters⟩ := lastLetters_succ hk
      rw [hletters] at h
      rcases h.uncons with ⟨hcost', hc, hrest⟩ | ⟨hcost', hspent⟩
      · refine testBit_rowBits_of_kept p errors s hfinish
          ((hp.testBit_mask i k).mpr ⟨hk, a, hc, ha⟩) ?_
        rintro k rfl
        exact ih (by omega) (by omega) hrest (by omega) (by omega)
      · apply testBit_rowBits_of_spent p errors s hfinish (by omega)
        rcases hspent with hrest | hrest | hrest
        · refine .inl ?_
          rintro k rfl
          exact hbefore (i + 1) k (by omega) (by omega) (by omega) (by omega) hrest
        · refine .inr (.inl ?_)
          rintro k rfl
          exact hbefore i k (by omega) (by omega) (by omega) (by omega) hrest
        · rw [← hletters] at hrest
          exact .inr (.inr (hbefore (i + 1) k hk (by omega) (by omega) (by omega) hrest))

/-! ### Runs -/

/-- Some script in view leads from a pattern to a part of the text, with fewer errors than the
pattern has letters, and passes a threshold. -/
def Seen (p : Problem) (text pattern : List Char) (threshold : Rat) : Prop :=
  ∃ script l, Aligns p text threshold l pattern script ∧ cost script < pattern.length ∧
    (p.score (cost script) l : Rat) ≤ threshold

/-- Before row `errors` of a run that has accepted nothing: the bits of the last row are those that
scripts in view account for. -/
structure Watchful (p : Problem) (text pattern : List Char) (threshold : Rat) (errors : Nat)
    (s : Progress Rat) : Prop extends Idle p threshold errors s where
  low : LowBits p errors s
  seen : RowSeen p text pattern threshold errors fun i => s.row.getD i 0
  sees : RowSees p text pattern threshold errors s.reach fun i => s.row.getD i 0

/-- A row that accepts nothing leaves the run watchful. -/
theorem Watchful.scanRow (hp : p.Reads text pattern) (hproper : p.Proper)
    (h : Watchful p text pattern threshold errors s) (herr : errors < p.length)
    (hpass : Passes p errors (hitAt p (rowBits p errors s)) (finish p (rowReach p errors s))
      (start p (rowReach p errors s)) s.best (rowOutcome p errors s))
    (hexpected : (p.score (errors + 1) p.expected : Rat) ≤ threshold) :
    Watchful p text pattern threshold (errors + 1) (scanRow p errors s) where
  toIdle := h.toIdle.scanRow hproper herr hpass hexpected
  low := h.low.scanRow hproper hpass
  seen d hd i k hk hbit := by
    obtain rfl : errors = d := by omega
    simp only [scanRow_getD] at hbit
    split_ifs at hbit
    · have hseen := h.seen
      rw [← h.threshold_eq] at hseen ⊢
      exact seenFrom_of_testBit_rowBits hp hproper h.ready hseen hk hbit
    · rw [Nat.zero_testBit] at hbit
      exact Bool.noConfusion hbit
  sees i k script hk hcost haligns hleft hi := by
    rw [scanRow_reach] at hleft hi
    have hstop := hpass.stop_eq hproper
    simp only [scanRow_getD]
    rw [if_pos (by omega)]
    exact haligns.testBit_rowBits hp hproper h.ready h.threshold_eq h.low h.le_reach h.sees hk
      (by omega) hleft hi

/-- What a watchful run accepts is seen. -/
theorem Watchful.seen_of_accepts (hp : p.Reads text pattern) (hproper : p.Proper)
    (h : Watchful p text pattern threshold errors s) (herr : errors < p.length) {l : Nat}
    (hl : Accepts p errors (hitAt p (rowBits p errors s)) (finish p (rowReach p errors s))
      (rowOutcome p errors s) l) : Seen p text pattern threshold := by
  have hlength := hp.length_eq
  have hbit := hl.hit
  rw [hitAt, hlength] at hbit
  have hseen := h.seen
  rw [← h.threshold_eq] at hseen ⊢
  obtain ⟨script, haligns, hcost⟩ :=
    seenFrom_of_testBit_rowBits hp hproper h.ready hseen (by omega) hbit
  rw [Nat.sub_add_cancel (by omega), lastLetters_length] at haligns
  refine ⟨script, l, haligns, by omega, ?_⟩
  calc (p.score (cost script) l : Rat)
      ≤ p.score errors l := score_mono hproper hcost (by omega) (Nat.le_refl _)
    _ = (Bitap.scanRow p errors s).best.threshold := by rw [scanRow_best, hl.threshold_eq]
    _ ≤ s.best.threshold := scanRow_threshold_le p errors s

/-- The row of the errors of a script in view accepts a match. -/
theorem Watchful.isSome_scanRow (hp : p.Reads text pattern) (hproper : p.Proper)
    {script : List Edit} {l : Nat} (h : Watchful p text pattern threshold (cost script) s)
    (haligns : Aligns p text threshold l pattern script) (hcost : cost script < pattern.length)
    (hscore : (p.score (cost script) l : Rat) ≤ threshold) :
    (Bitap.scanRow p (cost script) s).best.position.isSome = true := by
  have hlength := hp.length_eq
  have hl : l < p.masks.size := by
    rw [hp.size_masks]
    exact haligns.lt_length hcost
  refine h.toIdle.isSome_scanRow hproper hl hscore fun hway hfinish => ?_
  rw [hitAt, hlength]
  refine Aligns.testBit_rowBits hp hproper h.ready h.threshold_eq h.low h.le_reach h.sees
    (by omega) rfl ?_ ?_ hfinish.le
  · rwa [Nat.sub_add_cancel (by omega), lastLetters_length]
  · unfold Problem.way at hway
    omega

/-- **A run accepts a match exactly if one is seen.** -/
theorem isSome_scanRows_iff_seen (hp : p.Reads text pattern) (hproper : p.Proper)
    (h : Watchful p text pattern threshold 0 s) :
    (scanRows p p.length 0 s).best.position.isSome = true ↔ Seen p text pattern threshold := by
  have hwatchful : IdleInvariant p threshold (Watchful p text pattern threshold) :=
    ⟨fun _ _ h => h.toIdle, fun _ _ herr h => h.scanRow hp hproper herr⟩
  constructor
  · intro hsome
    obtain ⟨e, s, l, he, hs, hl⟩ := hwatchful.exists_accepts (Nat.zero_add _) h hsome
    exact hs.seen_of_accepts hp hproper he hl
  · rintro ⟨script, l, haligns, hcost, hscore⟩
    exact hwatchful.isSome_of_row hproper (by rwa [hp.length_eq]) hscore
      (fun _ hs => hs.isSome_scanRow hp hproper haligns hcost hscore) (Nat.zero_add _)
      (Nat.zero_le _) h

/-! ### Parts that are in view -/

/-- A script is in view if what it writes ends no later than the window of its errors. -/
theorem inView_of_target_length (hp : p.Proper) {errors l q : Nat} {script : List Edit}
    (hcost : cost script ≤ errors) (hlen : errors ≤ p.length)
    (hview : p.findAll = true ∨ p.expected ≤ q ∧ q ≤ p.masks.size ∧
      (p.score errors q : Rat) ≤ threshold ∧ l + (target script).length ≤ q + p.length) :
    InView p threshold l script := by
  rintro before rest rfl
  by_cases hrest : target rest = []
  · exact Or.inl (length_source_le_cost_of_target_eq_nil hrest)
  · refine Or.inr (hview.imp_right ?_)
    rintro ⟨hexpected, hq, hscore, hend⟩
    rw [cost_append] at hcost
    rw [target_append, List.length_append] at hend
    have hpos := List.length_pos_iff.mpr hrest
    refine ⟨q, hexpected, hq, (score_mono hp ?_ ?_ (Nat.le_refl _)).trans hscore, ?_⟩
    all_goals omega

/-- A part of the text that is close to the pattern is seen if it ends no later than the window of
its errors. -/
theorem seen_of_part (hp : p.Proper) (hlength : p.length = pattern.length) {e l q : Nat}
    {part : List Char} (hpart : part <+: text.drop l) (hdist : editDistance pattern part ≤ e)
    (he : e < pattern.length) (hscore : (p.score e l : Rat) ≤ threshold)
    (hview : p.findAll = true ∨ p.expected ≤ q ∧ q ≤ p.masks.size ∧
      (p.score e q : Rat) ≤ threshold ∧ l + part.length ≤ q + p.length) :
    Seen p text pattern threshold := by
  obtain ⟨script, rfl, rfl, hcost⟩ := editDistance_le_iff.mp hdist
  refine ⟨script, l, ⟨rfl, hpart, inView_of_target_length hp hcost (by omega) hview⟩, by omega, ?_⟩
  exact (score_mono hp hcost (by omega) (Nat.le_refl _)).trans hscore

/-- A part at the expected position is seen if it has more letters than the pattern only by a way
that could pass the threshold. -/
theorem seen_of_fitting (hp : p.Proper) (hread : p.Reads text pattern) {e w : Nat}
    {part : List Char} (hpart : part <+: text.drop p.expected)
    (hdist : editDistance pattern part ≤ e) (he : e < pattern.length)
    (hw : part.length ≤ pattern.length + w)
    (hscore : (p.score e (p.expected + w) : Rat) ≤ threshold) :
    Seen p text pattern threshold := by
  have hlength := hread.length_eq
  have hsize := hread.size_masks
  have hexpected := hp.expected_le
  have hend := hpart.length_le
  rw [List.length_drop] at hend
  -- nearer positions score no more
  have hnear : ∀ i, p.way i ≤ w → (p.score e i : Rat) ≤ threshold := fun i hi =>
    (score_mono hp (Nat.le_refl e) (by omega) (by rwa [way_add])).trans hscore
  refine seen_of_part (q := min (p.expected + w) p.masks.size) hp hlength hpart hdist he
    (hnear _ ?_) (Or.inr ⟨by omega, by omega, hnear _ ?_, by omega⟩)
  all_goals
    unfold Problem.way
    omega

/-! ### Searches -/

section

variable {c : Criteria Rat}

theorem watchful_initial (hpattern : pattern ≠ []) (hdistance : 0 ≤ c.distance)
    (hthreshold : 0 ≤ c.threshold) :
    Watchful (problem text pattern c) text pattern (exactThreshold text pattern c) 0
      (initial text pattern c) where
  toIdle := idle_initial hpattern hdistance hthreshold
  low d hd := absurd hd.symm (Nat.succ_ne_zero d)
  seen d hd := absurd hd.symm (Nat.succ_ne_zero d)
  sees _ _ _ _ hcost := absurd hcost.symm (Nat.succ_ne_zero _)

/-- The exact occurrence that lowered the threshold is seen. -/
theorem seen_exactThreshold (hpattern : pattern ≠ []) (hdistance : 0 ≤ c.distance)
    (h : Seen (problem text pattern c) text pattern c.threshold) :
    Seen (problem text pattern c) text pattern (exactThreshold text pattern c) := by
  rcases exactThreshold_eq text pattern c with heq | ⟨i, hi, hprefix, heq⟩
  · rwa [heq]
  · have hproper := problem_proper text hpattern hdistance
    have hsize := size_masks_problem text pattern c
    have hexpected := hproper.expected_le
    refine seen_of_part (q := max i (problem text pattern c).expected) hproper rfl hprefix
      (editDistance_self pattern).le (List.length_pos_iff.mpr hpattern) heq.ge (Or.inr ?_)
    refine ⟨Nat.le_max_right _ _, by omega, ?_, Nat.add_le_add_right (Nat.le_max_left _ _) _⟩
    rw [heq]
    refine score_mono hproper (Nat.le_refl 0) (Nat.zero_le _) ?_
    unfold Problem.way
    omega

/-- **A search accepts a match exactly if one is seen.** -/
theorem isSome_final_iff_seen (hpattern : pattern ≠ []) (hdistance : 0 ≤ c.distance)
    (hthreshold : 0 ≤ c.threshold) :
    (final text pattern c).best.position.isSome = true ↔
      Seen (problem text pattern c) text pattern c.threshold := by
  have hproper := problem_proper text hpattern hdistance
  rw [final, isSome_scanRows_iff_seen (problem_reads text pattern c) hproper
    (watchful_initial hpattern hdistance hthreshold)]
  constructor
  · rintro ⟨script, l, ⟨hsource, htarget, hview⟩, hcost, hscore⟩
    have hview' := hview.mono hproper exactThreshold_le hcost.le
    exact ⟨script, l, ⟨hsource, htarget, hview'⟩, hcost, hscore.trans exactThreshold_le⟩
  · exact seen_exactThreshold hpattern hdistance

end

/-- The score at some way behind the expected position. -/
theorem score_behind_expected (text pattern : List Char) (c : Criteria Rat) (errors w : Nat) :
    ((problem text pattern c).score errors ((problem text pattern c).expected + w) : Rat)
      = score pattern.length ⟨c.location, c.distance, c.ignoreLocation⟩ errors (c.location + w) := by
  have hway : ∀ x : Int, (x - (x + (w : Int))).natAbs = w := fun x => by omega
  simp only [Problem.score, score, Nat.cast_add, hway]
  rfl

/-- A part that begins at the expected position of a text that goes on as far. -/
theorem expected_of_editDistance_lt {text pattern part : List Char} (c : Criteria Rat)
    (hpart : part <+: text.drop c.location.toNat)
    (hdist : editDistance pattern part < pattern.length) :
    (problem text pattern c).expected = c.location.toNat := by
  have hlt : c.location.toNat < text.length := by
    by_contra hle
    rw [List.drop_eq_nil_of_le (Nat.le_of_not_lt hle), List.prefix_nil] at hpart
    rw [hpart, editDistance_nil_right] at hdist
    exact Nat.lt_irrefl _ hdist
  show (max 0 (min c.location (text.length : Int))).toNat = c.location.toNat
  omega

/-- **A search reports a match exactly if one is seen.**  A part that begins at the expected position
and is within some distance of the pattern is seen if the whole text is scanned, if it has no more
letters than the pattern, or if it has more only by a way that could pass the threshold with those
errors. -/
theorem search_iff_seen (text : List Char) {pattern : List Char} {c : Criteria Rat}
    (hpattern : pattern ≠ []) (hword : pattern.length ≤ wordSize) (hdistance : 0 ≤ c.distance)
    (hthreshold : 0 ≤ c.threshold) (hleast : c.minMatchLength = 1) :
    ∃ result, search text pattern c = .ok result ∧
      (result.isMatch = true ↔ Seen (problem text pattern c) text pattern c.threshold) ∧
      ∀ (e : Nat) (part : List Char), e < pattern.length →
        part <+: text.drop c.location.toNat → editDistance pattern part ≤ e →
        (e : Rat) / pattern.length ≤ c.threshold →
        (c.findAll = true ∨ part.length ≤ pattern.length ∨
          ∃ w : Nat, part.length ≤ pattern.length + w ∧
            (score pattern.length ⟨c.location, c.distance, c.ignoreLocation⟩ e (c.location + w)
              : Rat) ≤ c.threshold) →
        result.isMatch = true := by
  have hproper := problem_proper text hpattern hdistance
  have hseen : (locate text pattern c).isMatch = true ↔
      Seen (problem text pattern c) text pattern c.threshold := by
    rw [isMatch_locate text pattern hleast.le]
    exact isSome_final_iff_seen hpattern hdistance hthreshold
  refine ⟨locate text pattern c, ?_, hseen, fun e part he hpart hdist hscore hfits => ?_⟩
  · rw [search, if_neg (Nat.not_lt.mpr hword), if_neg hpattern]
  · have hexpected := expected_of_editDistance_lt c hpart (hdist.trans_lt he)
    rw [← hexpected] at hpart
    have hscore' : ((problem text pattern c).score e (problem text pattern c).expected : Rat)
        ≤ c.threshold := by
      rw [score_expected]
      exact hscore
    refine hseen.mpr ?_
    rcases hfits with hall | hfits
    · exact seen_of_part (q := 0) hproper rfl hpart hdist he hscore' (Or.inl hall)
    · obtain ⟨w, hw, hscorew⟩ : ∃ w, part.length ≤ pattern.length + w ∧
          ((problem text pattern c).score e ((problem text pattern c).expected + w) : Rat)
            ≤ c.threshold := by
        rcases hfits with hle | ⟨w, hw, hscorew⟩
        · exact ⟨0, hle, hscore'⟩
        · exact ⟨w, hw, by rwa [score_behind_expected]⟩
      exact seen_of_fitting hproper (problem_reads text pattern c) hpart hdist he hw hscorew

/-- One letter too many is one error, and the window of one error is one letter longer than the
pattern. -/
theorem search_iff_seen_inserted_letter :
    ∃ result, search "zabcd".toList "abcd".toList
        (⟨0, 2, 3 / 4, false, 1, false, false⟩ : Criteria Rat) = .ok result ∧
      result.isMatch = true := by
  obtain ⟨result, hresult, -, hpart⟩ := @search_iff_seen "zabcd".toList "abcd".toList
    ⟨0, 2, 3 / 4, false, 1, false, false⟩ (by decide) (by decide) (by decide) (by norm_num) rfl
  exact ⟨result, hresult, hpart 1 "zabcd".toList (by decide) (by decide) (by decide +kernel)
    (by decide +kernel) (Or.inr (Or.inr ⟨1, by decide, by decide +kernel⟩))⟩

/-- The same letter is out of view without a distance, although an error is worth no more than the
threshold and the match begins where it is expected.  It is found when the whole text is scanned. -/
theorem inserted_letter_out_of_view :
    let c : Criteria Rat := ⟨0, 0, 1 / 4, false, 1, false, false⟩
    editDistance "abcd".toList "zabcd".toList = 1 ∧ (1 : Rat) / "abcd".toList.length ≤ c.threshold ∧
      (locate "zabcd".toList "abcd".toList c).isMatch = false ∧
      (locate "zabcd".toList "abcd".toList { c with findAll := true }).isMatch = true := by
  decide +kernel

end FuzzySearch.Bitap
