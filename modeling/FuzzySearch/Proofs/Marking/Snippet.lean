import FuzzySearch.Marking.Snippet
import FuzzySearch.Proofs.Marking.Marked

/-!
# What a snippet shows

The window of a snippet is laid around the middle of the first matched run, pushed back into the
text, and then cut off at words; cutting never goes into the run (`window_spec`).  So a window is
never larger than what is allowed (`window_bounds`), and it begins before a run that would fit or
with it (`window_holds_init`).

It does not always reach to the end of such a run.  Both the middle of the run and half of the size
are rounded down, and if the run is as long as the window and this is even, then the window begins
one position before the run and ends in front of its last character, which is lost
(`last_lt_window_iff`, `window_loses_last_letter`).
-/

namespace FuzzySearch

/-! ### Looking for a character -/

namespace Text

variable {c : Char} {text : List Char} {low high k : Nat}

theorem firstIn?_bounds (h : firstIn? c text low high = some k) :
    low ≤ k ∧ k < high ∧ k < text.length := by
  obtain ⟨ahead, hahead, rfl⟩ := Option.map_eq_some_iff.mp h
  obtain ⟨hlt, -⟩ := List.idxOf?_eq_some_iff.mp hahead
  rw [List.length_drop, List.length_take] at hlt
  omega

theorem lastIn?_bounds (h : lastIn? c text low high = some k) :
    low ≤ k ∧ k < high ∧ k < text.length := by
  obtain ⟨back, hback, rfl⟩ := Option.map_eq_some_iff.mp h
  obtain ⟨hlt, -⟩ := List.idxOf?_eq_some_iff.mp hback
  simp only [List.length_reverse, List.length_drop, List.length_take] at hlt ⊢
  omega

end Text

namespace Snippet

/-! ### Words at the ends -/

theorem place_of_nonneg {i : Int} (hi : 0 ≤ i) (size : Nat) : place size i = min i.toNat size :=
  if_neg (not_lt.mpr hi)

/-- A word is cut off at the beginning of a window, but not behind the limit. -/
theorem afterWord_bounds (text : List Char) {start limit : Int} (hstart : 0 ≤ start)
    (hlimit : 0 ≤ limit) :
    start ≤ afterWord text start limit ∧ afterWord text start limit ≤ max start limit := by
  unfold afterWord
  simp only [place_of_nonneg hstart, place_of_nonneg hlimit]
  split
  · rename_i k hfound
    have := Text.firstIn?_bounds hfound
    omega
  · omega

/-- A word is cut off at the end of a window, but not before the limit. -/
theorem beforeWord_bounds (text : List Char) {limit stop : Int} (hlimit : 0 ≤ limit)
    (hstop : 0 ≤ stop) :
    min stop limit ≤ beforeWord text limit stop ∧ beforeWord text limit stop ≤ stop := by
  unfold beforeWord
  simp only [place_of_nonneg hlimit, place_of_nonneg hstop]
  split
  · rename_i k hfound
    have := Text.lastIn?_bounds hfound
    omega
  · omega

/-! ### Windows -/

/-- Where a window begins as long as no words are cut off: half of the size before the middle of the
run, but not so late that the window reaches over the end of the text, and not before the text. -/
def firstStart (size : Nat) (run : Span) (maxChars : Int) : Int :=
  max 0 (min ((run.first + run.last) / 2 - maxChars / 2) (size - maxChars))

section

variable {text : List Char} {run : Span} {maxChars : Int}

/-- The window of a text that is too long to be shown as a whole. -/
theorem window_of_lt (run : Span) (hlong : maxChars < text.length) :
    window text run maxChars =
      let start := firstStart text.length run maxChars
      let stop := start + maxChars
      (if 0 < start then afterWord text start run.first else start,
        if stop < text.length then beforeWord text (run.last + 1) stop else stop) := by
  have htwo : (0 : Int) ≤ 2 := by decide
  have hstop : min (text.length : Int)
      (max 0 ((run.first + run.last).fdiv 2 - maxChars.fdiv 2) + maxChars) =
        firstStart text.length run maxChars + maxChars := by
    rw [firstStart, Int.fdiv_eq_ediv_of_nonneg _ htwo, Int.fdiv_eq_ediv_of_nonneg _ htwo]
    omega
  have hstart : max 0 (firstStart text.length run maxChars + maxChars - maxChars) =
      firstStart text.length run maxChars := by
    unfold firstStart
    omega
  simp only [window, if_neg (not_le.mpr hlong), hstop, hstart]

/-- **Cutting off words takes something from either end of a window, but nothing of the run.** -/
theorem window_spec (hrun : run.Inside text.length) (hmax : 1 ≤ maxChars) :
    let start := firstStart text.length run maxChars
    let stop := min (text.length : Int) (start + maxChars)
    (start ≤ (window text run maxChars).1 ∧ (window text run maxChars).1 ≤ max start run.first) ∧
      min stop (run.last + 1) ≤ (window text run maxChars).2 ∧
      (window text run maxChars).2 ≤ stop := by
  intro start stop
  obtain ⟨hfirst, hrun, hlast⟩ := hrun
  have hstart : 0 ≤ start := le_max_left ..
  by_cases hlong : maxChars < text.length
  · have hstop : stop = start + maxChars := by
      apply min_eq_right
      simp only [start, firstStart]
      omega
    have hafter := afterWord_bounds text hstart hfirst
    have hbefore := beforeWord_bounds text (show 0 ≤ run.last + 1 by omega)
      (show 0 ≤ start + maxChars by omega)
    rw [window_of_lt run hlong, hstop]
    constructor
    · show start ≤ (if _ then _ else _) ∧ (if _ then _ else _) ≤ max start run.first
      split_ifs
      · exact hafter
      · exact ⟨le_rfl, le_max_left ..⟩
    · show min _ (run.last + 1) ≤ (if _ then _ else _) ∧ (if _ then _ else _) ≤ start + maxChars
      split_ifs
      · exact hbefore
      · exact ⟨min_le_left .., le_rfl⟩
  · rw [not_lt] at hlong
    have hwhole : window text run maxChars = (0, (text.length : Int)) := if_pos hlong
    have hzero : start = 0 := by
      simp only [start, firstStart]
      omega
    rw [hwhole, hzero]
    simp only [stop, hzero]
    omega

/-- **A window is no larger than what is allowed**, and it is a part of the text. -/
theorem window_bounds (hrun : run.Inside text.length) (hmax : 1 ≤ maxChars) :
    0 ≤ (window text run maxChars).1 ∧
      (window text run maxChars).1 ≤ (window text run maxChars).2 ∧
      (window text run maxChars).2 ≤ text.length ∧
      (window text run maxChars).2 - (window text run maxChars).1 ≤ maxChars := by
  obtain ⟨⟨hstart, hstart'⟩, hstop, hstop'⟩ := window_spec hrun hmax
  obtain ⟨hfirst, hrun, hlast⟩ := hrun
  unfold firstStart at *
  omega

/-- A run that fits is shown from its beginning, and to its end but for its last letter. -/
theorem window_holds_init (hrun : run.Inside text.length) (hmax : 1 ≤ maxChars)
    (hfits : run.last + 1 - run.first ≤ maxChars) :
    (window text run maxChars).1 ≤ run.first ∧ run.last ≤ (window text run maxChars).2 := by
  obtain ⟨⟨-, hstart⟩, hstop, -⟩ := window_spec hrun hmax
  obtain ⟨hfirst, hrun, hlast⟩ := hrun
  unfold firstStart at *
  omega

/-- **The last letter of a run that fits is shown** unless the run is as long as the window, this is
even, and there is text left out and text before the run. -/
theorem last_lt_window_iff (hrun : run.Inside text.length) (hmax : 1 ≤ maxChars)
    (hfits : run.last + 1 - run.first ≤ maxChars) :
    run.last < (window text run maxChars).2 ↔
      ¬ (maxChars < text.length ∧ 0 < run.first ∧ run.last + 1 - run.first = maxChars ∧
        maxChars % 2 = 0) := by
  obtain ⟨-, hstop, hstop'⟩ := window_spec hrun hmax
  obtain ⟨hfirst, hrun, hlast⟩ := hrun
  unfold firstStart at *
  omega

theorem length_part {start stop : Int} (hstart : 0 ≤ start) (hle : start ≤ stop)
    (hstop : stop ≤ text.length) : ((part text start stop).length : Int) = stop - start := by
  rw [part, place_of_nonneg hstart, place_of_nonneg (hstart.trans hle), List.length_drop,
    List.length_take]
  omega

end

end Snippet

/-! ### Snippets -/

open Snippet

/-- A snippet with a matched run is the highlighted window, blanks at its ends not counted. -/
theorem snippet_of_clipSpans {text : String} {spans : List Span} {run : Span} {runs : List Span}
    (hruns : clipSpans text.toList.length spans = run :: runs) (htext : text.toList ≠ [])
    (maxChars : Int) {name : String} {style : MarkStyle}
    (hstyle : MarkStyle.ofName name = .ok style) :
    let w := window text.toList run maxChars
    snippet text spans maxChars name = .ok (String.ofList (Text.strip
      (marked style (part text.toList w.1 w.2) (visible w.1 w.2 (run :: runs))))) := by
  have hletters : text.toList.isEmpty = false := List.isEmpty_eq_false_iff.mpr htext
  simp only [snippet, hletters, hruns, hstyle]
  rfl

/-- **A snippet shows the first matched run as far as its size allows, but for one letter.**  What
is highlighted is the window around the first run after merging and clipping.  It is a part of the
text of at most `maxChars` characters.  A run that fits is shown from its beginning to its last
letter or the one before; and the last letter is lost exactly if the run has `maxChars` characters,
an even number, in a longer text that does not begin with it. -/
theorem snippet_window {text : String} {spans : List Span}
    (hcovered : ∃ i, CoveredIn text.toList.length spans i) {maxChars : Int} (hmax : 1 ≤ maxChars)
    {name : String} {style : MarkStyle} (hstyle : MarkStyle.ofName name = .ok style) :
    ∃ run runs, clipSpans text.toList.length spans = run :: runs ∧
      let w := window text.toList run maxChars
      let shown := part text.toList w.1 w.2
      snippet text spans maxChars name =
          .ok (String.ofList (Text.strip (marked style shown (visible w.1 w.2 (run :: runs))))) ∧
        (0 ≤ w.1 ∧ w.1 ≤ w.2 ∧ w.2 ≤ text.toList.length) ∧ (shown.length : Int) ≤ maxChars ∧
        (run.last + 1 - run.first ≤ maxChars →
          w.1 ≤ run.first ∧ run.last ≤ w.2 ∧
          (run.last < w.2 ↔ ¬ (maxChars < text.toList.length ∧ 0 < run.first ∧
            run.last + 1 - run.first = maxChars ∧ maxChars % 2 = 0))) := by
  obtain ⟨i, hi⟩ := hcovered
  have hsize : 0 < text.toList.length := by
    have := hi.1
    omega
  obtain ⟨run, runs, hruns⟩ : ∃ run runs, clipSpans text.toList.length spans = run :: runs := by
    apply List.exists_cons_of_ne_nil
    intro hnone
    apply not_covered_nil i
    rw [← hnone, covered_clipSpans]
    exact hi
  have hrun : run.Inside text.toList.length :=
    inside_of_mem_clipSpans hsize (hruns ▸ List.mem_cons_self ..)
  obtain ⟨hstart, hle, hstop, hallowed⟩ := window_bounds hrun hmax
  have hsnippet := snippet_of_clipSpans hruns (List.length_pos_iff.mp hsize) maxChars hstyle
  refine ⟨run, runs, hruns, hsnippet, ⟨hstart, hle, hstop⟩, ?_, ?_⟩
  · rw [length_part hstart hle hstop]
    exact hallowed
  · intro hfits
    obtain ⟨hfirst, hlast⟩ := window_holds_init hrun hmax hfits
    exact ⟨hfirst, hlast, last_lt_window_iff hrun hmax hfits⟩

/-- A run of five letters in a window of five. -/
theorem snippet_window_odd_size :
    (∃ i, CoveredIn "a kiwis".toList.length [⟨2, 6⟩] i) ∧ (1 : Int) ≤ 5 ∧
      MarkStyle.ofName "plain" = .ok .plain ∧
      clipSpans "a kiwis".toList.length [⟨2, 6⟩] = [⟨2, 6⟩] ∧
      (6 : Int) < (window "a kiwis".toList ⟨2, 6⟩ 5).2 ∧
      snippet "a kiwis" [⟨2, 6⟩] 5 "plain" = .ok "[[kiwis]]" := by
  have hcovered : ∃ i, CoveredIn "a kiwis".toList.length [⟨2, 6⟩] i := ⟨2, by decide⟩
  have hstyle : MarkStyle.ofName "plain" = .ok .plain := rfl
  have hclip : clipSpans "a kiwis".toList.length [⟨2, 6⟩] = [⟨2, 6⟩] := by decide +kernel
  obtain ⟨run, runs, hruns, hsnippet, -, -, hshown⟩ :=
    snippet_window hcovered (show (1 : Int) ≤ 5 by decide) hstyle
  obtain ⟨rfl, rfl⟩ := List.cons.inj (hclip.symm.trans hruns)
  obtain ⟨-, -, hlast⟩ := hshown (by decide)
  refine ⟨hcovered, by decide, hstyle, hclip, hlast.mpr (by decide), ?_⟩
  rw [hsnippet]
  decide +kernel

/-- A run of four letters would fit a window of four, but its last letter is lost. -/
theorem window_loses_last_letter :
    clipSpans "a kiwi".toList.length [⟨2, 5⟩] = [⟨2, 5⟩] ∧ (5 : Int) + 1 - 2 ≤ 4 ∧
      window "a kiwi".toList ⟨2, 5⟩ 4 = (2, 5) ∧
      ¬ (5 : Int) < (window "a kiwi".toList ⟨2, 5⟩ 4).2 ∧
      snippet "a kiwi" [⟨2, 5⟩] 4 "plain" = .ok "[[kiw]]" := by
  decide +kernel

end FuzzySearch
