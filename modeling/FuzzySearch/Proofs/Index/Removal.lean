import FuzzySearch.Proofs.Index.Numbering
import Mathlib.Data.List.Sort

/-!
# Indexes without some positions

`Index.without` leaves out the records at several positions at once and moves every other record
down by the number of these positions in front of it (`countBelow`).  This is what removing them one
by one gives, from the last to the first as they are (`Index.foldrM_removeAt`), or one first and then
the later ones where they have moved to (`Index.without_removeAt`).
-/

namespace FuzzySearch

variable {α : Type}

/-! ### Numbers of positions in front of another -/

/-- How many of some positions stand in front of another one. -/
def countBelow (positions : List Nat) (x : Int) : Nat :=
  positions.countP fun p : Nat => (p : Int) < x

@[simp] theorem countBelow_nil (x : Int) : countBelow [] x = 0 := rfl

theorem countBelow_cons (p : Nat) (later : List Nat) (x : Int) :
    countBelow (p :: later) x = countBelow later x + if (p : Int) < x then 1 else 0 := by
  rw [countBelow, List.countP_cons]
  simp [countBelow]

theorem countBelow_map_succ (later : List Nat) (x : Int) :
    countBelow (later.map (· + 1)) x = countBelow later (x - 1) := by
  rw [countBelow, List.countP_map]
  refine List.countP_congr fun q _ => ?_
  simp
  omega

theorem countBelow_eq_zero {later : List Nat} {x : Int} (h : ∀ q ∈ later, x ≤ q) :
    countBelow later x = 0 := by
  refine List.countP_eq_zero.mpr fun q hq => ?_
  have := h q hq
  simpa using this

/-- Equally many positions stand in front of one when they are the same there. -/
theorem countBelow_congr {ps qs : List Nat} (hps : ps.Pairwise (· < ·)) (hqs : qs.Pairwise (· < ·))
    {k : Nat} (h : ∀ j < k, (j ∈ ps ↔ j ∈ qs)) : countBelow ps k = countBelow qs k := by
  have hfilter : ps.filter (fun p : Nat => (p : Int) < k)
      = qs.filter fun p : Nat => (p : Int) < k := by
    refine (hps.filter _).eq_of_mem_iff (hqs.filter _) fun j => ?_
    rw [List.mem_filter, List.mem_filter]
    refine and_congr_left fun hj => h j ?_
    have := of_decide_eq_true hj
    omega
  rw [countBelow, countBelow, List.countP_eq_length_filter, hfilter,
    ← List.countP_eq_length_filter]

/-- There are not more different positions behind one and in front of another than fit between
them. -/
theorem countBelow_le {p : Nat} {later : List Nat} (h : (p :: later).Pairwise (· < ·)) {x : Int}
    (hx : (p : Int) < x) : (countBelow later x : Int) ≤ x - p - 1 := by
  induction later generalizing p with
  | nil =>
    rw [countBelow_nil]
    omega
  | cons q later ih =>
    obtain ⟨hfirst, hpairwise⟩ := List.pairwise_cons.mp h
    have hq := hfirst q List.mem_cons_self
    rw [countBelow_cons]
    split_ifs with hqx
    · have := ih hpairwise hqx
      push_cast
      omega
    · have hzero : countBelow later x = 0 := by
        refine countBelow_eq_zero fun r hr => ?_
        have := (List.pairwise_cons.mp hpairwise).1 r hr
        omega
      rw [hzero]
      omega

/-! ### Indexes without some positions -/

/-- The record with its position lowered by the number of given positions in front of it. -/
def Record.lower (positions : List Nat) (record : Record α) : Record α :=
  { record with position := record.position - countBelow positions record.position }

/-- Records that are filtered and changed twice. -/
theorem map_filter_map_filter {records : List (Record α)} {f g h : Record α → Record α}
    {p q r : Record α → Prop} [DecidablePred p] [DecidablePred q] [DecidablePred r]
    (hfilter : ∀ record, r record ↔ p record ∧ q (f record))
    (hmap : ∀ record, r record → g (f record) = h record) :
    (((records.filter p).map f).filter q).map g = (records.filter r).map h := by
  rw [List.filter_map, List.filter_filter, List.map_map]
  have hsame : ∀ record ∈ records,
      (decide (q (f record)) && decide (p record)) = decide (r record) := by
    intro record _
    rw [Bool.and_comm, ← Bool.decide_and]
    exact decide_eq_decide.mpr (hfilter record).symm
  refine (congrArg (List.map (g ∘ f)) (List.filter_congr hsame)).trans ?_
  refine List.map_congr_left fun record hrecord => hmap record ?_
  exact of_decide_eq_true (List.mem_filter.mp hrecord).2

namespace Index

/-- The index without the records at some positions; the others move down. -/
def without (index : Index α) (positions : List Nat) : Index α :=
  let kept := index.records.filter fun record => ∀ p ∈ positions, (p : Int) ≠ record.position
  { index with records := kept.map (Record.lower positions) }

@[simp] theorem without_nil (index : Index α) : index.without [] = index := by
  have hlower : Record.lower ([] : List Nat) = (id : Record α → Record α) := by
    funext record
    simp [Record.lower]
  simp [without, hlower]

/-- To remove a position and then later ones is to remove them together, the later ones being one
further on at the start. -/
theorem without_removeAt (index : Index α) {p : Nat} {later : List Nat}
    (hlater : ∀ q ∈ later, p ≤ q) :
    (index.removeAt p).map (·.without later) = .ok (index.without (p :: later.map (· + 1))) := by
  have hkept : ∀ record : Record α,
      (∀ q ∈ p :: later.map (· + 1), (q : Int) ≠ record.position) ↔
        record.position ≠ p ∧ ∀ q ∈ later, (q : Int) ≠ (record.shift p).position := by
    intro record
    rw [List.forall_mem_cons, List.forall_mem_map, ne_comm, Record.shift_eq]
    refine and_congr_right fun hne => forall₂_congr fun q hq => ?_
    have := hlater q hq
    push_cast
    split_ifs <;> omega
  have hlower : ∀ record : Record α,
      (record.shift p).lower later = record.lower (p :: later.map (· + 1)) := by
    intro record
    rw [Record.lower, Record.lower, Record.shift_eq, countBelow_cons, countBelow_map_succ]
    simp only [Record.mk.injEq, and_true]
    split_ifs with hp
    · push_cast
      omega
    · have hzero : ∀ x ≤ record.position, countBelow later x = 0 := by
        intro x hx
        refine countBelow_eq_zero fun q hq => ?_
        have := hlater q hq
        omega
      rw [hzero _ (Int.le_refl _), hzero _ (by omega)]
  rw [removeAt, if_neg (by omega)]
  refine congrArg (fun records => Except.ok { index with records := records }) ?_
  exact map_filter_map_filter hkept fun record _ => hlower record

/-- To remove a position after later ones is to remove them together. -/
theorem removeAt_without (index : Index α) {p : Nat} {later : List Nat}
    (h : (p :: later).Pairwise (· < ·)) :
    (index.without later).removeAt p = .ok (index.without (p :: later)) := by
  have hlater := (List.pairwise_cons.mp h).1
  -- the removal of later positions does not move a record over this one
  have hbehind : ∀ record : Record α,
      (p : Int) < record.position ↔ (p : Int) < (record.lower later).position := by
    intro record
    show _ ↔ (p : Int) < record.position - countBelow later record.position
    constructor
    · intro hp
      have := countBelow_le h hp
      omega
    · omega
  have hequal : ∀ record : Record α,
      record.position = p ↔ (record.lower later).position = p := by
    intro record
    show _ ↔ record.position - countBelow later record.position = (p : Int)
    by_cases hp : (p : Int) < record.position
    · have := countBelow_le h hp
      omega
    · have hzero : countBelow later record.position = 0 := by
        refine countBelow_eq_zero fun q hq => ?_
        have := hlater q hq
        omega
      omega
  rw [removeAt, if_neg (by omega)]
  refine congrArg (fun records => Except.ok { index with records := records }) ?_
  refine map_filter_map_filter (fun record => ?_) fun record _ => ?_
  · rw [List.forall_mem_cons, and_comm, ne_comm]
    exact and_congr_right fun _ => not_congr (hequal record)
  · rw [Record.shift_eq, if_congr (hbehind record).symm rfl rfl]
    simp only [Record.lower, countBelow_cons, Record.mk.injEq, and_true]
    split_ifs <;> push_cast <;> omega

/-- **The index without some positions is what is left when they are removed one by one from the
last.** -/
theorem foldrM_removeAt (index : Index α) {positions : List Nat}
    (h : positions.Pairwise (· < ·)) :
    positions.foldrM (fun position index => index.removeAt position) index
      = .ok (index.without positions) := by
  induction positions with
  | nil => rw [without_nil]; rfl
  | cons p later ih =>
    rw [List.foldrM_cons, ih (List.pairwise_cons.mp h).2]
    exact removeAt_without index h

end Index

end FuzzySearch
