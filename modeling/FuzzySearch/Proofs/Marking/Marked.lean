import FuzzySearch.Marking.Marked
import FuzzySearch.Proofs.Marking.Merge

/-!
# Where marks stand

`annotate` writes a text out character by character, each with something before it and something
after it.  A highlighted text is one that has an opening mark where a run of covered positions
begins, a closing mark where one ends, and nothing else (`highlight_eq_annotate`).  The proof goes
through the merged spans one by one: what stands before the first one is written as it is, its own
characters get a mark at either end (`annotate_run`), and since the position behind it is not
covered, the rest is marked as if it began there (`marksAt_behind`).
-/

namespace FuzzySearch

/-! ### Annotated texts -/

/-- A text from position `i` on, with something written before and after each character.  The
characters stand there once each and in their order. -/
def annotate (before after : Int → List Char) : (i : Int) → List Char → List Char
  | _, [] => []
  | i, c :: rest => before i ++ c :: (after i ++ annotate before after (i + 1) rest)

section

variable {before after before' after' : Int → List Char}

theorem annotate_append (i : Int) (front back : List Char) :
    annotate before after i (front ++ back) =
      annotate before after i front ++ annotate before after (i + front.length) back := by
  induction front generalizing i with
  | nil => simp [annotate]
  | cons c front ih =>
    have hpos : i + 1 + front.length = i + (c :: front).length := by
      rw [List.length_cons]
      omega
    rw [List.cons_append, annotate, annotate, ih, hpos]
    simp

/-- Only what is written at the positions of the text counts. -/
theorem annotate_congr {i : Int} {text : List Char}
    (h : ∀ j, i ≤ j → j < i + text.length → before j = before' j ∧ after j = after' j) :
    annotate before after i text = annotate before' after' i text := by
  induction text generalizing i with
  | nil => rfl
  | cons c rest ih =>
    rw [List.length_cons] at h
    obtain ⟨hbefore, hafter⟩ := h i (by omega) (by omega)
    rw [annotate, annotate, hbefore, hafter, ih]
    intro j hle hlt
    exact h j (by omega) (by omega)

/-- Without what is written between them, the characters are the text. -/
theorem annotate_nil (i : Int) (text : List Char) :
    annotate (fun _ => []) (fun _ => []) i text = text := by
  induction text generalizing i with
  | nil => rfl
  | cons c rest ih => simp [annotate, ih]

/-- A text is written as it is where nothing comes before or after a character. -/
theorem annotate_blank {i : Int} {text : List Char}
    (h : ∀ j, i ≤ j → j < i + text.length → before j = [] ∧ after j = []) :
    annotate before after i text = text := by
  rw [annotate_congr h, annotate_nil]

/-- Inside a run nothing is written between two characters. -/
theorem annotate_run {i : Int} {run : List Char} (hrun : run ≠ [])
    (hbefore : ∀ j, i < j → j < i + run.length → before j = [])
    (hafter : ∀ j, i ≤ j → j + 1 < i + run.length → after j = []) :
    annotate before after i run = before i ++ run ++ after (i + run.length - 1) := by
  induction run generalizing i with
  | nil => exact absurd rfl hrun
  | cons c rest ih =>
    cases rest with
    | nil => simp [annotate]
    | cons d rest =>
      have hlength : ((c :: d :: rest).length : Int) = (d :: rest).length + 1 := by simp
      rw [hlength] at hbefore hafter
      have hpos : 0 < ((d :: rest).length : Int) := by simp
      have hrest := @ih (i + 1) (by simp) (fun j hlt hle => hbefore j (by omega) (by omega))
        (fun j hle hlt => hafter j (by omega) (by omega))
      have hlast : i + 1 + ((d :: rest).length : Int) - 1 = i + ((d :: rest).length + 1) - 1 := by
        omega
      rw [annotate, hrest, hafter i (by omega) (by omega), hbefore (i + 1) (by omega) (by omega),
        hlength, hlast]
      simp

end

/-! ### Marks -/

/-- The opening mark, where a run of positions begins. -/
def openingAt (style : MarkStyle) (C : Int → Prop) [DecidablePred C] (i : Int) : List Char :=
  if C i ∧ ¬ C (i - 1) then style.opening else []

/-- The closing mark, where a run of positions ends. -/
def closingAt (style : MarkStyle) (C : Int → Prop) [DecidablePred C] (i : Int) : List Char :=
  if C i ∧ ¬ C (i + 1) then style.closing else []

section

variable (style : MarkStyle) {C D : Int → Prop} [DecidablePred C] [DecidablePred D] {i : Int}

theorem openingAt_congr (h : C i ↔ D i) (hbefore : C (i - 1) ↔ D (i - 1)) :
    openingAt style C i = openingAt style D i := by
  simp only [openingAt, h, hbefore]

theorem closingAt_congr (h : C i ↔ D i) (hbehind : C (i + 1) ↔ D (i + 1)) :
    closingAt style C i = closingAt style D i := by
  simp only [closingAt, h, hbehind]

theorem openingAt_of_not (h : ¬ C i) : openingAt style C i = [] := if_neg fun hopen => h hopen.1

theorem closingAt_of_not (h : ¬ C i) : closingAt style C i = [] := if_neg fun hclose => h hclose.1

end

section

variable {style : MarkStyle} {s : Span} {spans : List Span} {i : Int}

/-- Behind the first of some separated spans, runs begin and end as if it were not there. -/
theorem marksAt_behind (h : Separated (s :: spans)) (hi : s.last < i) :
    openingAt style (Covered (s :: spans)) i = openingAt style (Covered spans) i ∧
      closingAt style (Covered (s :: spans)) i = closingAt style (Covered spans) i := by
  have hsame : ∀ {j}, s.last < j → (Covered (s :: spans) j ↔ Covered spans j) := by
    intro j hj
    rw [h.covered_tail_iff, and_iff_left hj]
  refine ⟨?_, closingAt_congr style (hsame hi) (hsame (by omega))⟩
  by_cases hnext : i = s.last + 1
  · have hbare : ¬ Covered (s :: spans) i := by
      rw [hnext]
      exact h.not_covered_behind (by simp)
    rw [openingAt_of_not style hbare, openingAt_of_not style fun hi' => hbare ((hsame hi).mpr hi')]
  · exact openingAt_congr style (hsame hi) (hsame (by omega))

/-- Nothing is marked before the first of some separated spans. -/
theorem annotate_before_first (h : Separated (s :: spans)) {text : List Char}
    (htext : i + text.length ≤ s.first) :
    annotate (openingAt style (Covered (s :: spans))) (closingAt style (Covered (s :: spans)))
      i text = text := by
  apply annotate_blank
  intro j _ hlt
  have hbare : ¬ Covered (s :: spans) j := by
    intro hcovered
    have := h.first_le_of_covered hcovered
    omega
  exact ⟨openingAt_of_not style hbare, closingAt_of_not style hbare⟩

/-- The first of some separated spans is a run of its own. -/
theorem annotate_first (h : Separated (s :: spans)) {run : List Char}
    (hrun : (run.length : Int) = s.last + 1 - s.first) :
    annotate (openingAt style (Covered (s :: spans))) (closingAt style (Covered (s :: spans)))
      s.first run = style.opening ++ run ++ style.closing := by
  have hs := h.proper s (by simp)
  have hcovered : ∀ j, s.first ≤ j → j ≤ s.last → Covered (s :: spans) j :=
    fun j hfirst hlast => covered_cons.mpr (Or.inl ⟨hfirst, hlast⟩)
  have hopening : openingAt style (Covered (s :: spans)) s.first = style.opening := by
    apply if_pos
    refine ⟨hcovered s.first (by omega) hs, ?_⟩
    intro hbefore
    have := h.first_le_of_covered hbefore
    omega
  have hclosing : closingAt style (Covered (s :: spans)) (s.first + run.length - 1) =
      style.closing := by
    rw [hrun, show s.first + (s.last + 1 - s.first) - 1 = s.last by omega]
    exact if_pos ⟨hcovered s.last hs (by omega), h.not_covered_behind (by simp)⟩
  rw [annotate_run, hopening, hclosing]
  · rintro rfl
    simp at hrun
    omega
  · intro j hlt hle
    exact if_neg fun hopen => hopen.2 (hcovered (j - 1) (by omega) (by omega))
  · intro j hle hlt
    exact if_neg fun hclose => hclose.2 (hcovered (j + 1) (by omega) (by omega))

end

/-! ### Highlighted texts -/

/-- A text that a span lies in is what stands before the span, at it and behind it. -/
theorem exists_parts {i : Int} {s : Span} {text : List Char} (hfirst : i ≤ s.first)
    (hs : s.first ≤ s.last) (hlast : s.last < i + text.length) :
    ∃ before run behind, text = before ++ (run ++ behind) ∧
      (before.length : Int) = s.first - i ∧ (run.length : Int) = s.last + 1 - s.first := by
  have hparts : text = text.take (s.first - i).toNat ++ text.drop (s.first - i).toNat :=
    (List.take_append_drop ..).symm
  rw [← List.take_append_drop (s.last + 1 - s.first).toNat (text.drop _)] at hparts
  refine ⟨_, _, _, hparts, ?_, ?_⟩
  · rw [List.length_take]
    omega
  · rw [List.length_take, List.length_drop]
    omega

/-- The first span is marked, and the others are looked for behind it. -/
theorem markFrom_parts (style : MarkStyle) {i : Int} {s : Span} (spans : List Span)
    {before run behind : List Char} (hbefore : (before.length : Int) = s.first - i)
    (hrun : (run.length : Int) = s.last + 1 - s.first) :
    markFrom style i (s :: spans) (before ++ (run ++ behind)) =
      before ++ (style.opening ++ run ++ style.closing ++
        markFrom style (s.last + 1) spans behind) := by
  have htake : (s.first - i).toNat = before.length := by omega
  have hsize : (s.last + 1 - s.first).toNat = run.length := by omega
  simp [markFrom, htake, hsize, ← List.drop_drop]

/-- **Separated spans are marked where the runs of covered positions begin and end.** -/
theorem markFrom_eq_annotate (style : MarkStyle) {spans : List Span} (h : Separated spans)
    {i : Int} {text : List Char} (hinside : ∀ s ∈ spans, i ≤ s.first ∧ s.last < i + text.length) :
    markFrom style i spans text =
      annotate (openingAt style (Covered spans)) (closingAt style (Covered spans)) i text := by
  induction spans generalizing i text with
  | nil =>
    rw [markFrom, annotate_blank]
    intro j _ _
    exact ⟨openingAt_of_not style (not_covered_nil j), closingAt_of_not style (not_covered_nil j)⟩
  | cons s spans ih =>
    obtain ⟨hs, hbehind, hspans⟩ := separated_cons_iff.mp h
    obtain ⟨hfirst, hlast⟩ := hinside s (by simp)
    obtain ⟨before, run, behind, rfl, hbefore, hrun⟩ := exists_parts hfirst hs hlast
    simp only [List.length_append, Int.natCast_add] at hinside
    have hrest : annotate (openingAt style (Covered (s :: spans)))
        (closingAt style (Covered (s :: spans))) (s.last + 1) behind =
          markFrom style (s.last + 1) spans behind := by
      rw [ih hspans]
      · apply annotate_congr
        intro j hle _
        exact marksAt_behind h (by omega)
      · intro t ht
        have := hbehind t ht
        have := (hinside t (by simp [ht])).2
        omega
    rw [markFrom_parts style spans hbefore hrun, annotate_append, annotate_append,
      annotate_before_first h (by omega), hbefore, hrun, show i + (s.first - i) = s.first by omega,
      annotate_first h hrun, show s.first + (s.last + 1 - s.first) = s.last + 1 by omega, hrest]

/-- The highlighted text with the marks of a known style. -/
theorem highlight_of_ofName {name : String} {style : MarkStyle}
    (hstyle : MarkStyle.ofName name = .ok style) (text : String) (spans : List Span) :
    highlight text spans name = .ok (String.ofList (marked style text.toList spans)) := by
  rw [highlight, hstyle]
  rfl

/-- **Highlighting marks exactly the runs of covered positions.**  Whatever the spans are, the
highlighted text is the text with an opening mark directly before each covered position that has
none before it, a closing mark directly after each that has none after it, and nothing else. -/
theorem highlight_eq_annotate {text : String} (htext : text ≠ "") {name : String}
    {style : MarkStyle} (hstyle : MarkStyle.ofName name = .ok style) (spans : List Span) :
    highlight text spans name = .ok (String.ofList
      (annotate (openingAt style (CoveredIn text.toList.length spans))
        (closingAt style (CoveredIn text.toList.length spans)) 0 text.toList)) := by
  have hsize : 0 < text.toList.length := by
    rw [List.length_pos_iff]
    intro h
    exact htext (String.toList_eq_nil_iff.mp h)
  have hinside : ∀ s ∈ clipSpans text.toList.length spans,
      0 ≤ s.first ∧ s.last < 0 + text.toList.length := by
    intro s hs
    obtain ⟨hfirst, -, hlast⟩ := inside_of_mem_clipSpans hsize hs
    exact ⟨hfirst, by omega⟩
  rw [highlight_of_ofName hstyle, marked,
    markFrom_eq_annotate style (separated_clipSpans hsize) hinside]
  congr 2
  apply annotate_congr
  intro i _ _
  exact ⟨openingAt_congr style covered_clipSpans covered_clipSpans,
    closingAt_congr style covered_clipSpans covered_clipSpans⟩

/-- Spans that overlap, touch, are inverted or reach over an end of the text. -/
theorem highlight_eq_annotate_unordered_spans :
    let spans : List Span := [⟨4, 9⟩, ⟨1, 1⟩, ⟨2, 0⟩, ⟨-5, 0⟩, ⟨7, 20⟩]
    "kiwi pie" ≠ "" ∧ MarkStyle.ofName "plain" = .ok .plain ∧
      highlight "kiwi pie" spans "plain" = .ok (String.ofList
        (annotate (openingAt .plain (CoveredIn 8 spans)) (closingAt .plain (CoveredIn 8 spans)) 0
          "kiwi pie".toList)) ∧
      highlight "kiwi pie" spans "plain" = .ok "[[ki]]wi[[ pie]]" := by
  intro spans
  have htext : "kiwi pie" ≠ "" := by decide
  have hstyle : MarkStyle.ofName "plain" = .ok .plain := rfl
  have hmarked := highlight_eq_annotate htext hstyle spans
  refine ⟨htext, hstyle, hmarked, ?_⟩
  rw [hmarked]
  decide +kernel

end FuzzySearch
