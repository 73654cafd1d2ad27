/-!
# Cutting a text at a separator

`splitAt sep cs` cuts at every separator and keeps empty pieces, so there is always one piece more
than there are separators, and joining the pieces with the separator gives the text back
(`join_splitAt`).
-/

namespace FuzzySearch.Text

/-- The pieces between the occurrences of a separator; empty pieces are kept. -/
def splitAt (sep : Char) : List Char → List (List Char)
  | [] => [[]]
  | c :: rest =>
    if c = sep then [] :: splitAt sep rest
    else
      match splitAt sep rest with
      | [] => [[c]]
      | piece :: pieces => (c :: piece) :: pieces

theorem splitAt_ne_nil (sep : Char) (cs : List Char) : splitAt sep cs ≠ [] := by
  cases cs with
  | nil => simp [splitAt]
  | cons c rest =>
    simp only [splitAt]
    split
    · simp
    · split <;> simp

/-- Joining the pieces with the separator gives the text back. -/
theorem join_splitAt (sep : Char) (cs : List Char) :
    List.intercalate [sep] (splitAt sep cs) = cs := by
  induction cs with
  | nil => simp [splitAt]
  | cons c rest ih =>
    simp only [splitAt]
    split
    · next h =>
      subst h
      obtain ⟨piece, pieces, hp⟩ := List.exists_cons_of_ne_nil (splitAt_ne_nil c rest)
      rw [hp] at ih ⊢
      rw [← ih]
      simp [List.intercalate, List.intersperse]
    · split
      · next h => exact absurd h (splitAt_ne_nil sep rest)
      · next piece pieces hp =>
        rw [hp] at ih
        rw [← ih]
        cases pieces <;> simp [List.intercalate, List.intersperse]

/-- A text without separators is one piece. -/
theorem splitAt_of_notMem {sep : Char} {cs : List Char} (h : sep ∉ cs) : splitAt sep cs = [cs] := by
  induction cs with
  | nil => rfl
  | cons c rest ih =>
    rw [List.mem_cons, not_or] at h
    rw [splitAt, if_neg (Ne.symm h.1), ih h.2]

/-- A separator ends the last piece before it. -/
theorem splitAt_append_cons (sep : Char) (before after : List Char) :
    splitAt sep (before ++ sep :: after) = splitAt sep before ++ splitAt sep after := by
  induction before with
  | nil => exact if_pos rfl
  | cons c before ih =>
    rw [List.cons_append, splitAt, splitAt, ih]
    split
    · rfl
    · obtain ⟨piece, pieces, hpieces⟩ := List.exists_cons_of_ne_nil (splitAt_ne_nil sep before)
      rw [hpieces]
      rfl

/-- The pieces of a string. -/
def split (sep : Char) (s : String) : List String :=
  (splitAt sep s.toList).map String.ofList

/-- What follows the last separator and what stands before it, if there is a separator. -/
def splitLast? (sep : Char) (cs : List Char) : Option (List Char × List Char) :=
  match cs.reverse.dropWhile (· ≠ sep) with
  | [] => none
  | _ :: front => some (front.reverse, (cs.reverse.takeWhile (· ≠ sep)).reverse)

example : split '.' "a..b" = ["a", "", "b"] := by decide
example : splitLast? ':' "a:b:3".toList = some ("a:b".toList, "3".toList) := by decide

end FuzzySearch.Text
