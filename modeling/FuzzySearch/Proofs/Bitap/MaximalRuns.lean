import FuzzySearch.Bitap.Runs
import FuzzySearch.Proofs.Span
import Mathlib.Data.Nat.Find

/-!
# Maximal runs of marks

`runs` finds the maximal runs of marked positions that are long enough, and nothing else
(`mem_runs_iff`); it finds them in order, and no two of them touch (`separated_runs`).  Both come
from what a scan has found when it is at a position (`FoundFrom`), and together they say which list
`runs` is (`eq_runs_iff`).  As every marked position lies in a maximal run (`exists_maximalRun`),
marks that stand side by side and are many enough lie in one run that is found
(`exists_run_of_block`).
-/

namespace FuzzySearch.Bitap

/-- A position at which there is a mark.  There is none before the first and behind the last. -/
def IsMarked (marks : List Bool) (i : Int) : Prop := 0 ≤ i ∧ marks[i.toNat]? = some true

/-- Marked positions side by side, with no mark next to them. -/
structure MaximalRun (marks : List Bool) (s : Span) : Prop where
  proper : s.first ≤ s.last
  marked : ∀ i, s.covers i → IsMarked marks i
  before : ¬ IsMarked marks (s.first - 1)
  behind : ¬ IsMarked marks (s.last + 1)

variable {marks : List Bool}

@[simp] theorem isMarked_natCast (i : Nat) : IsMarked marks i ↔ marks[i]? = some true := by
  simp [IsMarked]

theorem not_isMarked_neg_one : ¬ IsMarked marks (-1) := fun h => by
  have := h.1
  omega

theorem IsMarked.lt_length {i : Int} (h : IsMarked marks i) : i < marks.length := by
  obtain ⟨hnonneg, hmark⟩ := h
  obtain ⟨hlt, -⟩ := List.getElem?_eq_some_iff.mp hmark
  omega

/-! ### Maximal runs -/

namespace MaximalRun

variable {s t : Span} {i : Int}

theorem isMarked_first (h : MaximalRun marks s) : IsMarked marks s.first :=
  h.marked _ ⟨Int.le_refl _, h.proper⟩

/-- A maximal run begins no later than one that shares a position with it. -/
theorem first_le (hs : MaximalRun marks s) (ht : MaximalRun marks t) (hi : s.covers i)
    (hi' : t.covers i) : s.first ≤ t.first := by
  by_contra hlt
  -- otherwise the position before `s` is one of those of `t`
  have := hi.1
  have := hi'.2
  exact hs.before (ht.marked _ ⟨by omega, by omega⟩)

theorem last_le (hs : MaximalRun marks s) (ht : MaximalRun marks t) (hi : s.covers i)
    (hi' : t.covers i) : t.last ≤ s.last := by
  by_contra hlt
  have := hi.2
  have := hi'.1
  exact hs.behind (ht.marked _ ⟨by omega, by omega⟩)

/-- Two maximal runs with a common position are the same. -/
theorem unique (hs : MaximalRun marks s) (ht : MaximalRun marks t) (hi : s.covers i)
    (hi' : t.covers i) : s = t := by
  have hfirst := Int.le_antisymm (hs.first_le ht hi hi') (ht.first_le hs hi' hi)
  have hlast := Int.le_antisymm (ht.last_le hs hi' hi) (hs.last_le ht hi hi')
  cases s
  cases t
  simp_all

/-- A maximal run does not end inside marks that stand side by side. -/
theorem covers_of_block (h : MaximalRun marks s) {j : Int} (hi : s.covers i)
    (hblock : ∀ k, i ≤ k → k ≤ j → IsMarked marks k) (hj : i ≤ j) : s.covers j := by
  have := hi.1
  refine ⟨by omega, ?_⟩
  by_contra hlt
  have := hi.2
  exact h.behind (hblock _ (by omega) (by omega))

end MaximalRun

/-- What holds at first and fails at some time has a last time before it fails. -/
theorem exists_last_of_exists_not {p : Nat → Prop} (hzero : p 0) (hfails : ∃ n, ¬ p n) :
    ∃ n, (∀ k, k ≤ n → p k) ∧ ¬ p (n + 1) := by
  classical
  obtain ⟨n, hn⟩ : ∃ n, Nat.find hfails = n + 1 := by
    refine Nat.exists_eq_succ_of_ne_zero fun hfirst => ?_
    have hspec := Nat.find_spec hfails
    rw [hfirst] at hspec
    exact hspec hzero
  refine ⟨n, fun k hk => not_not.mp (Nat.find_min hfails (by omega)), ?_⟩
  rw [← hn]
  exact Nat.find_spec hfails

/-- **Every mark lies in a maximal run.** -/
theorem exists_maximalRun {i : Int} (h : IsMarked marks i) :
    ∃ s, MaximalRun marks s ∧ s.covers i := by
  have hnonneg := h.1
  -- the run reaches to the nearest gap on either side
  obtain ⟨right, hright, hbehind⟩ :
      ∃ n : Nat, (∀ k : Nat, k ≤ n → IsMarked marks (i + k)) ∧
        ¬ IsMarked marks (i + (n + 1 : Nat)) := by
    refine exists_last_of_exists_not (by simpa using h) ⟨marks.length, fun hmark => ?_⟩
    have := hmark.lt_length
    omega
  obtain ⟨left, hleft, hbefore⟩ :
      ∃ n : Nat, (∀ k : Nat, k ≤ n → IsMarked marks (i - k)) ∧
        ¬ IsMarked marks (i - (n + 1 : Nat)) := by
    refine exists_last_of_exists_not (by simpa using h) ⟨i.toNat + 1, fun hmark => ?_⟩
    have := hmark.1
    omega
  refine ⟨⟨i - left, i + right⟩, ⟨?_, ?_, ?_, ?_⟩, ?_, ?_⟩
  · show i - left ≤ i + right
    omega
  · rintro k ⟨hk, hk'⟩
    replace hk : i - left ≤ k := hk
    replace hk' : k ≤ i + right := hk'
    rcases Int.le_total i k with hik | hki
    · have hmark := hright (k - i).toNat (by omega)
      rwa [show i + ((k - i).toNat : Int) = k by omega] at hmark
    · have hmark := hleft (i - k).toNat (by omega)
      rwa [show i - ((i - k).toNat : Int) = k by omega] at hmark
  · show ¬ IsMarked marks (i - left - 1)
    rwa [show i - left - 1 = i - ((left + 1 : Nat) : Int) by omega]
  · show ¬ IsMarked marks (i + right + 1)
    rwa [show i + right + 1 = i + ((right + 1 : Nat) : Int) by omega]
  · show i - left ≤ i
    omega
  · show i ≤ i + right
    omega

/-! ### What a scan of the marks finds -/

theorem mem_closeRun_iff {least : Int} {start stop : Nat} {s : Span} :
    s ∈ closeRun least start stop ↔
      s = ⟨start, (stop : Int) - 1⟩ ∧ least ≤ s.last - s.first + 1 := by
  unfold closeRun
  constructor
  · split_ifs with hleast
    · rw [List.mem_singleton]
      rintro rfl
      refine ⟨rfl, ?_⟩
      show least ≤ (stop : Int) - 1 - start + 1
      omega
    · simp
  · rintro ⟨rfl, hleast⟩
    replace hleast : least ≤ (stop : Int) - 1 - start + 1 := hleast
    rw [if_pos (by omega)]
    exact List.mem_singleton_self _

/-- Marks from `start` up to but not including `pos`, behind a gap: a run that a scan has open when
it comes to `pos`. -/
structure OpenRun (marks : List Bool) (start pos : Nat) : Prop where
  lt : start < pos
  before : ¬ IsMarked marks ((start : Int) - 1)
  marked : ∀ i : Int, start ≤ i → i < pos → IsMarked marks i

namespace OpenRun

variable {start pos : Nat}

/-- A run is opened at a mark behind a gap. -/
theorem opened (hgap : ¬ IsMarked marks ((pos : Int) - 1)) (hmark : IsMarked marks pos) :
    OpenRun marks pos (pos + 1) where
  lt := Nat.lt_succ_self pos
  before := hgap
  marked i hle hlt := by
    obtain rfl : i = pos := by omega
    exact hmark

theorem extended (h : OpenRun marks start pos) (hmark : IsMarked marks pos) :
    OpenRun marks start (pos + 1) where
  lt := Nat.lt_succ_of_lt h.lt
  before := h.before
  marked i hle hlt := by
    rcases Int.lt_or_eq_of_le (show i ≤ (pos : Int) by omega) with hlt | rfl
    · exact h.marked i hle hlt
    · exact hmark

/-- An open run at a gap is maximal. -/
theorem maximalRun (h : OpenRun marks start pos) (hgap : ¬ IsMarked marks pos) :
    MaximalRun marks ⟨start, (pos : Int) - 1⟩ where
  proper := by
    have := h.lt
    show (start : Int) ≤ (pos : Int) - 1
    omega
  marked i hi := by
    have hlast : i ≤ (pos : Int) - 1 := hi.2
    exact h.marked i hi.1 (by omega)
  before := h.before
  behind := by
    show ¬ IsMarked marks ((pos : Int) - 1 + 1)
    rwa [Int.sub_add_cancel]

/-- The maximal runs from the beginning of an open run on, when it ends at a gap: the open run, and
those behind the gap. -/
theorem maximalRun_iff (h : OpenRun marks start pos) (hgap : ¬ IsMarked marks pos) {s : Span} :
    MaximalRun marks s ∧ (start : Int) ≤ s.first ↔
      s = ⟨start, (pos : Int) - 1⟩ ∨ MaximalRun marks s ∧ (pos : Int) + 1 ≤ s.first := by
  have hlt := h.lt
  constructor
  · rintro ⟨hs, hstart⟩
    have hne : s.first ≠ pos := fun heq => hgap (heq ▸ hs.isMarked_first)
    rcases Int.lt_or_le s.first pos with hopen | hbehind
    · have hlast : s.first ≤ (pos : Int) - 1 := by omega
      have hi : (⟨start, (pos : Int) - 1⟩ : Span).covers s.first := ⟨hstart, hlast⟩
      exact .inl (hs.unique (h.maximalRun hgap) ⟨Int.le_refl _, hs.proper⟩ hi)
    · exact .inr ⟨hs, by omega⟩
  · rintro (rfl | ⟨hs, hbehind⟩)
    · exact ⟨h.maximalRun hgap, Int.le_refl _⟩
    · exact ⟨hs, by omega⟩

end OpenRun

/-- The spans that a scan finds from a position on: the maximal runs that begin there or behind it
and are long enough, in order. -/
structure FoundFrom (marks : List Bool) (least pos : Int) (spans : List Span) : Prop where
  separated : Separated spans
  mem_iff : ∀ s, s ∈ spans ↔
    (MaximalRun marks s ∧ pos ≤ s.first) ∧ least ≤ s.last - s.first + 1

variable {least : Int} {spans : List Span}

/-- There is nothing to find behind the last mark. -/
theorem FoundFrom.nil {pos : Int} (h : marks.length ≤ pos) : FoundFrom marks least pos [] where
  separated := separated_nil
  mem_iff s := by
    refine ⟨fun hs => absurd hs List.not_mem_nil, ?_⟩
    rintro ⟨⟨hs, hbehind⟩, -⟩
    have := hs.isMarked_first.lt_length
    omega

/-- No run begins at a gap. -/
theorem FoundFrom.gap {pos : Int} (h : FoundFrom marks least (pos + 1) spans)
    (hgap : ¬ IsMarked marks pos) : FoundFrom marks least pos spans where
  separated := h.separated
  mem_iff s := by
    rw [h.mem_iff, and_congr_left_iff]
    refine fun _ => and_congr_right fun hs => ?_
    have hne : s.first ≠ pos := fun heq => hgap (heq ▸ hs.isMarked_first)
    omega

/-- An open run ends at a gap, and counts if it is long enough by then. -/
theorem OpenRun.foundFrom {start pos : Nat} (h : OpenRun marks start pos)
    (hgap : ¬ IsMarked marks pos) (hspans : FoundFrom marks least ((pos : Int) + 1) spans) :
    FoundFrom marks least start (closeRun least start pos ++ spans) where
  separated := by
    unfold closeRun
    split_ifs
    · refine separated_cons_iff.mpr ⟨(h.maximalRun hgap).proper, fun t ht => ?_, hspans.separated⟩
      have hbehind := ((hspans.mem_iff t).mp ht).1.2
      show (pos : Int) - 1 + 1 < t.first
      omega
    · exact hspans.separated
  mem_iff s := by
    rw [List.mem_append, mem_closeRun_iff, hspans.mem_iff, ← or_and_right,
      ← h.maximalRun_iff hgap]

/-- What a scan of the marks finds from the position on, or from the beginning of the open run. -/
theorem foundFrom_runsFrom (least : Int) {rest : List Bool} {pos : Nat}
    (hrest : marks.drop pos = rest) :
    (¬ IsMarked marks ((pos : Int) - 1) →
        FoundFrom marks least pos (runsFrom least pos none rest)) ∧
      ∀ start, OpenRun marks start pos →
        FoundFrom marks least start (runsFrom least pos (some start) rest) := by
  -- the scan is in one of two states, with a run open or not, so both are proved together
  induction rest generalizing pos with
  | nil =>
    have hend : marks.length ≤ pos := List.drop_eq_nil_iff.mp hrest
    have hgap : ¬ IsMarked marks pos := fun hmark => by
      have := hmark.lt_length
      omega
    refine ⟨fun _ => FoundFrom.nil (by omega), fun start hopen => ?_⟩
    rw [runsFrom, ← List.append_nil (closeRun ..)]
    exact hopen.foundFrom hgap (FoundFrom.nil (by omega))
  | cons mark rest ih =>
    have hnext : marks.drop (pos + 1) = rest := by
      rw [← List.drop_drop, hrest, List.drop_one, List.tail_cons]
    have hhere : IsMarked marks pos ↔ mark = true := by
      rw [isMarked_natCast, ← Nat.add_zero pos, ← List.getElem?_drop, hrest]
      simp
    obtain ⟨ihclosed, ihopen⟩ := ih hnext
    rw [Int.natCast_succ, Int.add_sub_cancel] at ihclosed
    cases mark with
    | false =>
      have hgap : ¬ IsMarked marks pos := by simp [hhere]
      exact ⟨fun _ => (ihclosed hgap).gap hgap,
        fun start hopen => hopen.foundFrom hgap (ihclosed hgap)⟩
    | true =>
      have hmark : IsMarked marks pos := hhere.mpr rfl
      exact ⟨fun hbefore => ihopen pos (.opened hbefore hmark),
        fun start hopen => ihopen start (hopen.extended hmark)⟩

theorem foundFrom_runs (least : Int) (marks : List Bool) :
    FoundFrom marks least 0 (runs least marks) :=
  (foundFrom_runsFrom least List.drop_zero).1 not_isMarked_neg_one

/-! ### The runs -/

/-- **The runs that are found are the maximal runs that are long enough.** -/
theorem mem_runs_iff {s : Span} :
    s ∈ runs least marks ↔ MaximalRun marks s ∧ least ≤ s.last - s.first + 1 := by
  rw [(foundFrom_runs least marks).mem_iff, and_congr_left_iff]
  exact fun _ => and_iff_left_of_imp fun hs => hs.isMarked_first.1

/-- **The runs are in order, and no two of them touch.** -/
theorem separated_runs (least : Int) (marks : List Bool) : Separated (runs least marks) :=
  (foundFrom_runs least marks).separated

/-- **A run lies inside the marks.** -/
theorem inside_of_mem_runs {s : Span} (h : s ∈ runs least marks) : s.Inside marks.length := by
  have hs := (mem_runs_iff.mp h).1
  have hlast : IsMarked marks s.last := hs.marked _ ⟨hs.proper, Int.le_refl _⟩
  exact ⟨hs.isMarked_first.1, hs.proper, hlast.lt_length⟩

variable (least marks spans) in
/-- **The runs are the maximal runs that are long enough, in strictly increasing order**, and no
other list is that.  A maximal run holds at least one position, so a bound below one admits no more
runs than one does. -/
theorem eq_runs_iff :
    spans = runs least marks ↔
      spans.Pairwise (fun s t => s.first < t.first) ∧
        ∀ s, s ∈ spans ↔ MaximalRun marks s ∧ least ≤ s.last - s.first + 1 := by
  have hincreasing := (separated_runs least marks).pairwise_first_lt
  constructor
  · rintro rfl
    exact ⟨hincreasing, fun s => mem_runs_iff⟩
  · rintro ⟨hspans, hmem⟩
    refine eq_of_pairwise_first_lt hspans hincreasing fun s => ?_
    rw [hmem, mem_runs_iff]

/-- Marks that stand side by side and are many enough lie in one run that is found. -/
theorem exists_run_of_block {i j : Int} (hij : i ≤ j)
    (hblock : ∀ k, i ≤ k → k ≤ j → IsMarked marks k) (hleast : least ≤ j - i + 1) :
    ∃ s ∈ runs least marks, s.covers i ∧ s.covers j := by
  obtain ⟨s, hs, hi⟩ := exists_maximalRun (hblock i (Int.le_refl i) hij)
  have hj := hs.covers_of_block hi hblock hij
  refine ⟨s, mem_runs_iff.mpr ⟨hs, ?_⟩, hi, hj⟩
  have := hi.1
  have := hj.2
  omega

end FuzzySearch.Bitap
