import FuzzySearch.Engine.Basic
import FuzzySearch.Proofs.Index.Removal

/-!
# Removal by a predicate

`Engine.remove` goes through the collection and removes documents on its way.  What it removes are
documents at some positions of the collection at the start (`Engine.removals`): they are given in
order, the others stay in order, and the index is left as if these positions had been deleted one by
one from the last (`Engine.remove_eq_takeOut`).

The predicate is asked about a document at the position that it has at that moment, which is lower
than its position at the start by the number of documents that are already gone.  So the removed
documents are those that the predicate holds of at their positions at the start exactly when this
difference does not matter to the predicate.
-/

namespace FuzzySearch

variable {α : Type}

namespace Engine

/-! ### Positions in a collection -/

/-- The positions in a collection at which a predicate holds of the documents. -/
def positionsWhere (predicate : Value → Nat → Bool) (docs : List Value) : List Nat :=
  (docs.zipIdx.filter fun entry => predicate entry.1 entry.2).map (·.2)

/-- The positions that `removeFrom` removes, as they are before the first removal. -/
def removalsFrom (predicate : Value → Nat → Bool) (position : Nat) : List Value → List Nat
  | [] => []
  | doc :: rest =>
    if predicate doc position then
      position :: (removalsFrom predicate position rest).map (· + 1)
    else removalsFrom predicate (position + 1) rest

/-- The positions in a collection that `remove` removes. -/
def removals (predicate : Value → Nat → Bool) (docs : List Value) : List Nat :=
  removalsFrom predicate 0 docs

variable {predicate : Value → Nat → Bool}

theorem mem_cons_map_succ {p k : Nat} {later : List Nat} :
    p + (k + 1) ∈ p :: later.map (· + 1) ↔ p + k ∈ later := by
  rw [List.mem_cons, List.mem_map]
  constructor
  · rintro (hfirst | ⟨q, hq, hlast⟩)
    · omega
    · obtain rfl : q = p + k := by omega
      exact hq
  · exact fun hlater => Or.inr ⟨_, hlater, rfl⟩

theorem pairwise_positionsWhere (docs : List Value) :
    (positionsWhere predicate docs).Pairwise (· < ·) := by
  have hsublist : (positionsWhere predicate docs).Sublist (docs.zipIdx.map (·.2)) :=
    List.Sublist.map _ List.filter_sublist
  rw [List.zipIdx_map_snd] at hsublist
  exact List.Pairwise.sublist hsublist List.pairwise_lt_range'

theorem mem_positionsWhere {docs : List Value} {k : Nat} :
    k ∈ positionsWhere predicate docs ↔
      ∃ doc, docs[k]? = some doc ∧ predicate doc k = true := by
  simp only [positionsWhere, List.mem_map, List.mem_filter, Prod.exists, exists_eq_right,
    List.mem_zipIdx_iff_getElem?]

theorem le_of_mem_removalsFrom {position : Nat} {docs : List Value} :
    ∀ p ∈ removalsFrom predicate position docs, position ≤ p := by
  induction docs generalizing position with
  | nil => exact List.forall_mem_nil _
  | cons doc rest ih =>
    rw [removalsFrom]
    split_ifs
    · rw [List.forall_mem_cons, List.forall_mem_map]
      exact ⟨Nat.le_refl _, fun p hp => Nat.le_succ_of_le (ih p hp)⟩
    · exact fun p hp => Nat.le_of_succ_le (ih p hp)

theorem pairwise_removalsFrom (position : Nat) (docs : List Value) :
    (removalsFrom predicate position docs).Pairwise (· < ·) := by
  induction docs generalizing position with
  | nil => exact List.Pairwise.nil
  | cons doc rest ih =>
    rw [removalsFrom]
    split_ifs
    · rw [List.pairwise_cons, List.forall_mem_map, List.pairwise_map]
      refine ⟨fun p hp => Nat.lt_succ_of_le (le_of_mem_removalsFrom p hp), ?_⟩
      exact (ih position).imp Nat.succ_lt_succ
    · exact ih (position + 1)

/-- The predicate decides about a document at the position that is left to it when the documents in
front of it are gone that were removed. -/
theorem mem_removalsFrom {position : Nat} {docs : List Value} {k : Nat} :
    position + k ∈ removalsFrom predicate position docs ↔ ∃ doc, docs[k]? = some doc ∧
      predicate doc
        (position + k - countBelow (removalsFrom predicate position docs) (position + k : Nat))
          = true := by
  induction docs generalizing position k with
  | nil => simp [removalsFrom]
  | cons doc rest ih =>
    have hnone : countBelow (removalsFrom predicate position (doc :: rest)) (position : Nat) = 0 :=
      countBelow_eq_zero fun p hp => Int.ofNat_le.mpr (le_of_mem_removalsFrom p hp)
    cases k with
    | zero =>
      rw [Nat.add_zero, hnone, List.getElem?_cons_zero, removalsFrom]
      split_ifs with hdoc
      · simp [hdoc]
      · have hmem : position ∉ removalsFrom predicate (position + 1) rest := by
          intro hposition
          exact absurd (le_of_mem_removalsFrom position hposition) (Nat.not_succ_le_self _)
        simp [hdoc, hmem]
    | succ k =>
      rw [List.getElem?_cons_succ, removalsFrom]
      split_ifs with hdoc
      -- a document that is removed lets the others move up
      · have hcount : position + (k + 1) - countBelow
            (position :: (removalsFrom predicate position rest).map (· + 1))
              ((position + (k + 1) : Nat) : Int)
            = position + k
              - countBelow (removalsFrom predicate position rest) ((position + k : Nat) : Int) := by
          rw [countBelow_cons, countBelow_map_succ, if_pos (by omega)]
          have hcast : ((position + (k + 1) : Nat) : Int) - 1 = ((position + k : Nat) : Int) := by
            omega
          rw [hcast]
          omega
        rw [mem_cons_map_succ, hcount, ih]
      · rw [← Nat.add_assoc, Nat.add_right_comm, ih]

theorem mem_removals {docs : List Value} {k : Nat} :
    k ∈ removals predicate docs ↔ ∃ doc, docs[k]? = some doc ∧
      predicate doc (k - countBelow (removals predicate docs) k) = true := by
  have h := @mem_removalsFrom predicate 0 docs k
  rwa [Nat.zero_add] at h

/-! ### What the walk removes -/

/-- The documents at the positions that pass a test. -/
def docsAt (test : Nat → Prop) [DecidablePred test] (docs : List Value) : List Value :=
  (docs.zipIdx.filter fun entry => test entry.2).map (·.1)

/-- The engine without the documents at some positions, and these documents. -/
def takeOut (engine : Engine α) (positions : List Nat) : Engine α × List Value :=
  ({ engine with
      docs := docsAt (· ∉ positions) engine.docs, index := engine.index.without positions },
    docsAt (· ∈ positions) engine.docs)

section docsAt

variable {test other : Nat → Prop} [DecidablePred test] [DecidablePred other]

theorem docsAt_append (docs others : List Value) :
    docsAt test (docs ++ others)
      = docsAt test docs ++ docsAt (fun k => test (docs.length + k)) others := by
  have hmoved : others.zipIdx docs.length
      = others.zipIdx.map fun entry => (entry.1, docs.length + entry.2) :=
    List.zipIdx_eq_map_add
  simp only [docsAt, List.zipIdx_append, List.filter_append, List.map_append, Nat.zero_add, hmoved,
    List.filter_map, List.map_map, Function.comp_def]

theorem docsAt_singleton (doc : Value) :
    docsAt test [doc] = if test 0 then [doc] else [] := by
  by_cases h : test 0 <;> simp [docsAt, h]

theorem docsAt_congr {docs : List Value} (h : ∀ k < docs.length, (test k ↔ other k)) :
    docsAt test docs = docsAt other docs := by
  unfold docsAt
  refine congrArg _ (List.filter_congr fun entry hentry => decide_eq_decide.mpr (h entry.2 ?_))
  exact List.snd_lt_of_mem_zipIdx hentry

theorem docsAt_eq_nil {docs : List Value} (h : ∀ k < docs.length, ¬ test k) :
    docsAt test docs = [] := by
  have hfalse : docsAt test docs = docsAt (fun _ => False) docs :=
    docsAt_congr fun k hk => iff_false_intro (h k hk)
  rw [hfalse]
  simp [docsAt]

theorem docsAt_eq_self {docs : List Value} (h : ∀ k < docs.length, test k) :
    docsAt test docs = docs := by
  have htrue : docsAt test docs = docsAt (fun _ => True) docs :=
    docsAt_congr fun k hk => iff_true_intro (h k hk)
  rw [htrue]
  simp [docsAt]

/-- A document between others, which are tested as if it was not there. -/
theorem docsAt_append_cons {front rest : List Value} (doc : Value)
    (hfront : ∀ k < front.length, (test k ↔ other k))
    (hrest : ∀ k, test (front.length + (k + 1)) ↔ other (front.length + k)) :
    docsAt test (front ++ doc :: rest)
      = docsAt other front ++ ((if test front.length then [doc] else [])
          ++ docsAt (fun k => other (front.length + k)) rest) := by
  have hlater : docsAt (fun k => test (front.length + (1 + k))) rest
      = docsAt (fun k => other (front.length + k)) rest := by
    refine docsAt_congr fun k _ => ?_
    rw [Nat.add_comm 1 k]
    exact hrest k
  rw [docsAt_append, docsAt_congr hfront, ← List.singleton_append, docsAt_append, docsAt_singleton,
    List.length_singleton, hlater, Nat.add_zero]

end docsAt

theorem takeOut_nil (engine : Engine α) : engine.takeOut [] = (engine, []) := by
  have hkept : docsAt (· ∉ ([] : List Nat)) engine.docs = engine.docs :=
    docsAt_eq_self fun k _ => List.not_mem_nil
  have hgone : docsAt (· ∈ ([] : List Nat)) engine.docs = [] :=
    docsAt_eq_nil fun k _ => List.not_mem_nil
  rw [takeOut, hkept, hgone, Index.without_nil]

/-- A document in the collection is removed from both the collection and the index. -/
theorem removeAt_append_cons (engine : Engine α) {front rest : List Value} {doc : Value}
    (hdocs : engine.docs = front ++ doc :: rest) :
    ∃ index, engine.index.removeAt front.length = .ok index ∧
      engine.removeAt front.length
        = ({ engine with docs := front ++ rest, index := index }, none) := by
  have hposition : 0 ≤ (front.length : Int) ∧ (front.length : Int) < engine.docs.length := by
    rw [hdocs, List.length_append, List.length_cons]
    omega
  have hshorter : engine.docs.eraseIdx front.length = front ++ rest := by
    rw [hdocs, List.eraseIdx_append_of_length_le (Nat.le_refl _), Nat.sub_self,
      List.eraseIdx_cons_zero]
  obtain ⟨index, hindex⟩ : ∃ index, engine.index.removeAt front.length = .ok index :=
    ⟨_, if_neg (by omega)⟩
  refine ⟨index, hindex, ?_⟩
  rw [removeAt, if_pos hposition, hindex]
  simp only [Int.toNat_natCast, hshorter]

/-- To remove a document and then take out later ones is to take them out together, the later ones
being one further on at the start. -/
theorem takeOut_cons (engine : Engine α) {front rest : List Value} {doc : Value}
    (hdocs : engine.docs = front ++ doc :: rest) {later : List Nat}
    (hlater : ∀ q ∈ later, front.length ≤ q) :
    engine.takeOut (front.length :: later.map (· + 1))
      = (((engine.removeAt front.length).1.takeOut later).1,
          doc :: ((engine.removeAt front.length).1.takeOut later).2) := by
  obtain ⟨index, hindex, hremove⟩ := removeAt_append_cons engine hdocs
  have hwithout : index.without later
      = engine.index.without (front.length :: later.map (· + 1)) := by
    have h := engine.index.without_removeAt hlater
    rw [hindex] at h
    exact Except.ok.inj h
  -- no position in front is among those that are taken out
  have hfront : ∀ k < front.length,
      k ∉ later ∧ k ∉ front.length :: later.map (· + 1) := by
    intro k hk
    have hlate : k ∉ later := fun hmem => absurd (hlater k hmem) (by omega)
    refine ⟨hlate, fun hmem => ?_⟩
    rcases List.mem_cons.mp hmem with rfl | hmem
    · omega
    · obtain ⟨q, hq, rfl⟩ := List.mem_map.mp hmem
      exact absurd (hlater q hq) (by omega)
  have hgone : docsAt (· ∈ front.length :: later.map (· + 1)) (front ++ doc :: rest)
      = doc :: docsAt (· ∈ later) (front ++ rest) := by
    rw [docsAt_append_cons doc (fun k hk => iff_of_false (hfront k hk).2 (hfront k hk).1)
      fun k => mem_cons_map_succ, if_pos List.mem_cons_self, docsAt_append,
      docsAt_eq_nil fun k hk => (hfront k hk).1]
    rfl
  have hkept : docsAt (· ∉ front.length :: later.map (· + 1)) (front ++ doc :: rest)
      = docsAt (· ∉ later) (front ++ rest) := by
    rw [docsAt_append_cons doc (fun k hk => iff_of_true (hfront k hk).2 (hfront k hk).1)
      fun k => not_congr mem_cons_map_succ, if_neg fun hnot => hnot List.mem_cons_self,
      docsAt_append]
    rfl
  simp only [hremove, takeOut, hdocs, hgone, hkept, hwithout]

/-- The walk takes out what it removes, from any point of the collection on. -/
theorem removeFrom_eq_takeOut (engine : Engine α) {front rest : List Value}
    (hdocs : engine.docs = front ++ rest) :
    removeFrom predicate front.length rest engine
      = engine.takeOut (removalsFrom predicate front.length rest) := by
  induction rest generalizing engine front with
  | nil => exact (takeOut_nil engine).symm
  | cons doc rest ih =>
    rw [removeFrom, removalsFrom]
    split_ifs
    -- the next document moves to the same position
    · have hshorter : (engine.removeAt front.length).1.docs = front ++ rest := by
        obtain ⟨index, -, hremove⟩ := removeAt_append_cons engine hdocs
        rw [hremove]
      simp only [ih _ hshorter]
      exact (takeOut_cons engine hdocs le_of_mem_removalsFrom).symm
    · have hmoved : engine.docs = (front ++ [doc]) ++ rest := by
        rw [hdocs, List.append_assoc, List.singleton_append]
      have h := ih engine hmoved
      rwa [List.length_append] at h

/-- **The walk removes what the predicate holds of at the start** exactly when the predicate gives
the same answers at the positions that are left. -/
theorem removals_eq_positionsWhere_iff (docs : List Value) :
    removals predicate docs = positionsWhere predicate docs ↔
      ∀ (k : Nat) (doc : Value), docs[k]? = some doc →
        predicate doc (k - countBelow (positionsWhere predicate docs) k) = predicate doc k := by
  have hremovals : (removals predicate docs).Pairwise (· < ·) := pairwise_removalsFrom 0 docs
  have hwhere : (positionsWhere predicate docs).Pairwise (· < ·) := pairwise_positionsWhere docs
  constructor
  · intro heq k doc hdoc
    have hleft := @mem_removals predicate docs k
    rw [heq, mem_positionsWhere, hdoc] at hleft
    simp only [Option.some.injEq, exists_eq_left'] at hleft
    exact Bool.eq_iff_iff.mpr hleft.symm
  · intro h
    -- whether a position is removed depends on the positions in front of it alone
    have hmem : ∀ k, k ∈ removals predicate docs ↔ k ∈ positionsWhere predicate docs := by
      intro k
      induction k using Nat.strong_induction_on with
      | h k ih =>
        rw [mem_removals, mem_positionsWhere, countBelow_congr hremovals hwhere ih]
        refine exists_congr fun doc => and_congr_right fun hdoc => ?_
        rw [h k doc hdoc]
    exact hremovals.eq_of_mem_iff hwhere fun {k} => hmem k

/-- **Removal takes out the documents that the predicate holds of as they are reached.**  They are
given in order, the others stay in order, and the index is left as if the positions of these
documents had been removed one by one from the last.  A document is reached at its position at the
start less the number of documents that are removed in front of it, so those are taken out that the
predicate holds of at the start exactly when the predicate does not see this difference. -/
theorem remove_eq_takeOut (engine : Engine α) (predicate : Value → Nat → Bool) :
    let removed := removals predicate engine.docs
    let atStart := positionsWhere predicate engine.docs
    engine.remove predicate = engine.takeOut removed ∧
      removed.foldrM (fun position index => index.removeAt position) engine.index
        = .ok (engine.remove predicate).1.index ∧
      (∀ k : Nat, k ∈ removed ↔ ∃ doc, engine.docs[k]? = some doc ∧
        predicate doc (k - countBelow removed k) = true) ∧
      (removed = atStart ↔ ∀ (k : Nat) (doc : Value), engine.docs[k]? = some doc →
        predicate doc (k - countBelow atStart k) = predicate doc k) := by
  intro removed atStart
  have hremove : engine.remove predicate = engine.takeOut removed :=
    @removeFrom_eq_takeOut α predicate engine [] engine.docs rfl
  refine ⟨hremove, ?_, fun k => mem_removals, removals_eq_positionsWhere_iff engine.docs⟩
  rw [hremove]
  exact Index.foldrM_removeAt engine.index (pairwise_removalsFrom 0 engine.docs)

/-- Of three documents the second is asked for by its position, and the third comes to stand
there. -/
theorem removal_of_one_position :
    let options : EngineOptions Float :=
      { MatchOptions.standard with
        keys := [], includeScore := false, shouldSort := true, order := Hit.before,
        extract := standardExtractor, normalize := none, ignoreFieldNorm := false }
    let second : Value → Nat → Bool := fun _ position => position == 1
    ∃ engine : Engine Float,
      Engine.build (.list [.text "fig", .text "kiwi", .text "plum"]) options .absent []
          = .ok engine ∧
        positionsWhere second engine.docs = [1] ∧
        (engine.remove second).2 = [.text "kiwi", .text "plum"] ∧
        (engine.remove second).1.docs = [.text "fig"] ∧
        (engine.takeOut (positionsWhere second engine.docs)).2 = [.text "kiwi"] ∧
        (engine.takeOut (positionsWhere second engine.docs)).1.docs = [.text "fig", .text "plum"] :=
  ⟨_, rfl, rfl, rfl, rfl, rfl, rfl⟩

end Engine

end FuzzySearch
