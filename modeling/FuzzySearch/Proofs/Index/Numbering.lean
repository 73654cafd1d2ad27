import FuzzySearch.Index.Basic
import Mathlib.Algebra.Order.Ring.Int
import Mathlib.Data.List.Pairwise

/-!
# The numbering of records

The documents of a collection have bodies in its index, except those that are blank texts.
`numbered` gives the records of a list of such bodies: each carries the position of its document.
Its positions grow strictly (`pairwise_numbered`), a body at the end becomes a record at the end
(`numbered_append`), and to remove a record and move the later ones down is to remove its body
(`numbered_eraseIdx`).
-/

namespace FuzzySearch

variable {α : Type}

/-- The records of some bodies, for documents from a position on. -/
def numbered (position : Int) : List (Option (RecordBody α)) → List (Record α)
  | [] => []
  | none :: rest => numbered (position + 1) rest
  | some body :: rest => ⟨position, body⟩ :: numbered (position + 1) rest

@[simp] theorem numbered_nil (position : Int) :
    numbered position ([] : List (Option (RecordBody α))) = [] := rfl

theorem numbered_cons (position : Int) (body : Option (RecordBody α))
    (rest : List (Option (RecordBody α))) :
    numbered position (body :: rest)
      = (body.map (Record.mk position)).toList ++ numbered (position + 1) rest := by
  cases body <;> rfl

theorem numbered_append (position : Int) (bodies others : List (Option (RecordBody α))) :
    numbered position (bodies ++ others)
      = numbered position bodies ++ numbered (position + bodies.length) others := by
  induction bodies generalizing position with
  | nil => simp
  | cons body bodies ih =>
    rw [List.cons_append, numbered_cons, numbered_cons, ih, List.append_assoc, List.length_cons,
      Nat.cast_succ, add_right_comm, add_assoc]

/-- A record carries the position of a document whose body it is. -/
theorem mem_numbered {position : Int} {bodies : List (Option (RecordBody α))} {record : Record α}
    (h : record ∈ numbered position bodies) :
    position ≤ record.position ∧ record.position < position + bodies.length ∧
      some record.body ∈ bodies := by
  induction bodies generalizing position with
  | nil => simp at h
  | cons body bodies ih =>
    rw [numbered_cons, List.mem_append] at h
    rw [List.length_cons, Nat.cast_succ]
    rcases h with h | h
    · obtain ⟨body, rfl⟩ : ∃ b, body = some b := by
        cases body with
        | none => simp at h
        | some b => exact ⟨b, rfl⟩
      obtain rfl : record = ⟨position, body⟩ := by simpa using h
      refine ⟨le_rfl, ?_, List.mem_cons_self⟩
      show position < position + ((bodies.length : Int) + 1)
      omega
    · obtain ⟨hle, hlt, hmem⟩ := ih h
      exact ⟨by omega, by omega, List.mem_cons_of_mem _ hmem⟩

/-- A record of a body carries the position at which the body stands. -/
theorem mem_numbered_iff {position : Int} {bodies : List (Option (RecordBody α))}
    {record : Record α} :
    record ∈ numbered position bodies ↔
      ∃ k : Nat, record.position = position + k ∧ bodies[k]? = some (some record.body) := by
  induction bodies generalizing position with
  | nil => simp
  | cons body bodies ih =>
    rw [numbered_cons, List.mem_append, Option.mem_toList, Option.map_eq_some_iff, ih]
    constructor
    · rintro (⟨body, rfl, rfl⟩ | ⟨k, hposition, hbody⟩)
      · exact ⟨0, by simp, rfl⟩
      · exact ⟨k + 1, by rw [hposition, Nat.cast_succ]; omega, hbody⟩
    · rintro ⟨k, hposition, hbody⟩
      cases k with
      | zero =>
        refine Or.inl ⟨record.body, Option.some.inj hbody, ?_⟩
        rw [← add_zero position, ← Nat.cast_zero, ← hposition]
      | succ k => exact Or.inr ⟨k, by rw [hposition, Nat.cast_succ]; omega, hbody⟩

/-- **Positions grow strictly.** -/
theorem pairwise_numbered (position : Int) (bodies : List (Option (RecordBody α))) :
    ((numbered position bodies).map (·.position)).Pairwise (· < ·) := by
  induction bodies generalizing position with
  | nil => exact List.Pairwise.nil
  | cons body bodies ih =>
    cases body with
    | none => exact ih (position + 1)
    | some body =>
      rw [numbered_cons]
      refine List.pairwise_cons.mpr ⟨fun later hlater => ?_, ih (position + 1)⟩
      obtain ⟨record, hrecord, rfl⟩ := List.mem_map.mp hlater
      exact (mem_numbered hrecord).1

theorem Record.shift_eq (removed : Int) (record : Record α) :
    record.shift removed
      = ⟨if removed < record.position then record.position - 1 else record.position,
          record.body⟩ := by
  unfold Record.shift
  split_ifs <;> rfl

/-- Records behind a position move down by one. -/
theorem map_shift_numbered {removed position : Int} (h : removed ≤ position)
    (bodies : List (Option (RecordBody α))) :
    (numbered (position + 1) bodies).map (Record.shift removed) = numbered position bodies := by
  induction bodies generalizing position with
  | nil => rfl
  | cons body bodies ih =>
    rw [numbered_cons, numbered_cons, List.map_append, ih (by omega)]
    cases body with
    | none => rfl
    | some body =>
      show [Record.shift removed ⟨position + 1, body⟩] ++ _ = [⟨position, body⟩] ++ _
      rw [Record.shift, if_pos (show removed < position + 1 by omega), add_sub_cancel_right]

/-- **To remove a record and move the later ones down is to remove its body.** -/
theorem numbered_eraseIdx (position : Int) (bodies : List (Option (RecordBody α))) {i : Nat}
    (hi : i < bodies.length) :
    ((numbered position bodies).filter (·.position ≠ position + i)).map
        (Record.shift (position + i))
      = numbered position (bodies.eraseIdx i) := by
  induction bodies generalizing position i with
  | nil => exact absurd hi (Nat.not_lt_zero i)
  | cons body bodies ih =>
    rw [numbered_cons, List.filter_append, List.map_append]
    cases i with
    | zero =>
      -- the record of the first body goes, and all others stay and move down
      have hkeep : (numbered (position + 1) bodies).filter (·.position ≠ position + (0 : Nat))
          = numbered (position + 1) bodies := by
        refine List.filter_eq_self.mpr fun record hrecord => ?_
        have := (mem_numbered hrecord).1
        simp only [Nat.cast_zero, add_zero, ne_eq, decide_not, Bool.not_eq_true',
          decide_eq_false_iff_not]
        omega
      rw [hkeep, map_shift_numbered (by simp), List.eraseIdx_cons_zero]
      cases body <;> simp
    -- the first body stays where it is: its position is not past the removed one
    | succ i =>
      have hnext : position + ((i + 1 : Nat) : Int) = position + 1 + i := by omega
      rw [hnext, ih (position + 1) (by simpa using hi), List.eraseIdx_cons_succ, numbered_cons]
      cases body with
      | none => rfl
      | some body =>
        have hne : (position : Int) ≠ position + 1 + i := by omega
        have hlt : ¬ position + 1 + (i : Int) < position := by omega
        simp [hne, Record.shift, hlt]

end FuzzySearch
