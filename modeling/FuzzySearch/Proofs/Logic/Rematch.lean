import FuzzySearch.Logic.Query
import FuzzySearch.Proofs.Calls
import FuzzySearch.Proofs.Logic.Evaluation

/-!
# Expressions with other matchers

The shape of a compiled query does not depend on how matchers are made: compiling it with other
matchers gives the same expression with other matchers at its leaves
(`LogicalQuery.compile_eq_map`).  If the leaves of the one expression match only where those of the
other do, then so do the expressions (`Expression.evaluate_rematch_ne_nil`), and if the matches of
their leaves differ only in what does not count, so do theirs (`Expression.map_evaluate_rematch`).
-/

namespace FuzzySearch

variable {α β : Type}

namespace Expression

/-! ### Other matchers at the leaves -/

mutual

/-- The expression with other matchers at its leaves. -/
def rematch (matcher : String → Option (Matcher α)) : Expression α → Expression α
  | leaf l => leaf { l with matcher := matcher l.pattern }
  | node connective children => node connective (rematchAll matcher children)

/-- The expressions with other matchers at their leaves. -/
def rematchAll (matcher : String → Option (Matcher α)) : List (Expression α) → List (Expression α)
  | [] => []
  | child :: rest => rematch matcher child :: rematchAll matcher rest

end

theorem rematchAll_eq_map (matcher : String → Option (Matcher α))
    (children : List (Expression α)) :
    rematchAll matcher children = children.map (rematch matcher) := by
  induction children with
  | nil => rfl
  | cons child rest ih => rw [rematchAll, ih, List.map_cons]

theorem rematchAll_append (matcher : String → Option (Matcher α))
    (children others : List (Expression α)) :
    rematchAll matcher (children ++ others)
      = rematchAll matcher children ++ rematchAll matcher others := by
  simp only [rematchAll_eq_map, List.map_append]

/-- A question of leaves is answered no more often under some matchers than another is under
others. -/
def Rarer (matcher matcher' : String → Option (Matcher α)) (ask ask' : Leaf α → Id (List β)) :
    Prop :=
  ∀ l : Leaf α, (ask { l with matcher := matcher l.pattern }).run ≠ [] →
    (ask' { l with matcher := matcher' l.pattern }).run ≠ []

section

variable {matcher matcher' : String → Option (Matcher α)} {ask ask' : Leaf α → Id (List β)}

mutual

/-- **An expression matches if another one does whose leaves match no more often.** -/
theorem evaluate_rematch_ne_nil (hask : Rarer matcher matcher' ask ask') :
    ∀ expression : Expression α, ((rematch matcher expression).evaluate ask).run ≠ [] →
      ((rematch matcher' expression).evaluate ask').run ≠ []
  | leaf l, h => hask l h
  | node connective children, h => by
    have hall := forall_mem_evaluate_rematch hask children
    cases connective with
    | all =>
      rw [rematch, rematchAll_eq_map, evaluate_all_ne_nil_iff, List.forall_mem_map, ne_eq,
        List.map_eq_nil_iff] at h ⊢
      exact ⟨h.1, fun child hchild => hall child hchild (h.2 child hchild)⟩
    | any =>
      rw [rematch, rematchAll_eq_map, evaluate_any_ne_nil_iff] at h ⊢
      obtain ⟨_, hmem, hfound⟩ := h
      obtain ⟨child, hchild, rfl⟩ := List.mem_map.mp hmem
      exact ⟨_, List.mem_map_of_mem hchild, hall child hchild hfound⟩
    | other name => exact absurd rfl h

theorem forall_mem_evaluate_rematch (hask : Rarer matcher matcher' ask ask') :
    ∀ children : List (Expression α), ∀ child ∈ children,
      ((rematch matcher child).evaluate ask).run ≠ [] →
        ((rematch matcher' child).evaluate ask').run ≠ []
  | [] => List.forall_mem_nil _
  | first :: rest => List.forall_mem_cons.mpr
    ⟨evaluate_rematch_ne_nil hask first, forall_mem_evaluate_rematch hask rest⟩

end

end

section

variable {matcher : String → Option (Matcher α)} {ask : Leaf α → Id (List β)} {p : β → Prop}

mutual

/-- **What holds of the matches of all leaves holds of those of an expression.** -/
theorem forall_mem_evaluate (hask : ∀ l : Leaf α,
      ∀ found ∈ (ask { l with matcher := matcher l.pattern }).run, p found) :
    ∀ expression : Expression α, ∀ found ∈ ((rematch matcher expression).evaluate ask).run, p found
  | leaf l => hask l
  | node connective children => by
    intro found hfound
    rw [rematch, rematchAll_eq_map] at hfound
    obtain ⟨_, hmem, hchild⟩ := exists_of_mem_evaluate_node ask hfound
    obtain ⟨child, hchildren, rfl⟩ := List.mem_map.mp hmem
    exact forall_mem_evaluateAll hask children child hchildren found hchild

theorem forall_mem_evaluateAll (hask : ∀ l : Leaf α,
      ∀ found ∈ (ask { l with matcher := matcher l.pattern }).run, p found) :
    ∀ children : List (Expression α), ∀ child ∈ children,
      ∀ found ∈ ((rematch matcher child).evaluate ask).run, p found
  | [] => List.forall_mem_nil _
  | first :: rest => List.forall_mem_cons.mpr
    ⟨forall_mem_evaluate hask first, forall_mem_evaluateAll hask rest⟩

end

end

section

variable {γ : Type} {f : β → γ} {matcher matcher' : String → Option (Matcher α)}
  {ask ask' : Leaf α → Id (List β)}

/-- A question of leaves is answered under some matchers as another is under others, as far as a
function can tell. -/
def Likewise (f : β → γ) (matcher matcher' : String → Option (Matcher α))
    (ask ask' : Leaf α → Id (List β)) : Prop :=
  ∀ l : Leaf α, (ask { l with matcher := matcher l.pattern }).run.map f
    = (ask' { l with matcher := matcher' l.pattern }).run.map f

mutual

/-- **What the matches of all leaves have in common, those of an expression have in common.** -/
theorem map_evaluate_rematch (hask : Likewise f matcher matcher' ask ask') :
    ∀ expression : Expression α, ((rematch matcher expression).evaluate ask).run.map f
      = ((rematch matcher' expression).evaluate ask').run.map f
  | leaf l => hask l
  | node .all children => by
    have hall := map_evaluateAll_rematch hask children
    have hgetD : ∀ found : Option (List β), (found.getD []).map f
        = (found.map (List.map f)).getD [] := by
      intro found
      cases found <;> rfl
    rw [rematch, rematch, evaluate, evaluate]
    exact (hgetD _).trans ((congrArg (Option.getD · []) hall).trans (hgetD _).symm)
  | node .any children => by
    rw [rematch, rematch, evaluate, evaluate]
    exact map_evaluateAny_rematch hask children
  | node (.other name) children => rfl

theorem map_evaluateAll_rematch (hask : Likewise f matcher matcher' ask ask') :
    ∀ children : List (Expression α),
      (evaluateAll ask (rematchAll matcher children)).run.map (List.map f)
        = (evaluateAll ask' (rematchAll matcher' children)).run.map (List.map f)
  | [] => rfl
  | child :: rest => by
    have hchild := map_evaluate_rematch hask child
    have hempty := congrArg List.isEmpty hchild
    have happend : ∀ (first : List β) (others : Option (List β)),
        (others.map (first ++ ·)).map (List.map f)
          = (others.map (List.map f)).map (first.map f ++ ·) := by
      intro first others
      cases others <;> simp
    rw [List.isEmpty_map, List.isEmpty_map] at hempty
    rw [rematchAll, rematchAll, evaluateAll_cons, evaluateAll_cons, hempty]
    split_ifs
    · rfl
    · rw [happend, happend, hchild, map_evaluateAll_rematch hask rest]

theorem map_evaluateAny_rematch (hask : Likewise f matcher matcher' ask ask') :
    ∀ children : List (Expression α),
      (evaluateAny ask (rematchAll matcher children)).run.map f
        = (evaluateAny ask' (rematchAll matcher' children)).run.map f
  | [] => rfl
  | child :: rest => by
    have hchild := map_evaluate_rematch hask child
    have hempty := congrArg List.isEmpty hchild
    rw [List.isEmpty_map, List.isEmpty_map] at hempty
    rw [rematchAll, rematchAll, evaluateAny_cons, evaluateAny_cons, hempty]
    split_ifs
    · exact map_evaluateAny_rematch hask rest
    · exact hchild

end

end

end Expression

/-! ### Compiling with other matchers -/

namespace LogicalQuery

open Expression

variable (matcher matcher' : String → Option (Matcher α))

theorem leaf_eq_map (key pattern : Value) :
    leaf matcher' key pattern = (leaf matcher key pattern).map (rematch matcher') := by
  cases pattern with
  | text s =>
    simp only [leaf]
    cases Key.idOf key <;> rfl
  | _ => rfl

theorem leafOf_eq_map (entries : List (String × Value)) :
    leafOf matcher' entries = (leafOf matcher entries).map (rematch matcher') := by
  unfold leafOf
  split_ifs
  · exact leaf_eq_map matcher matcher' _ _
  · cases entries with
    | nil => rfl
    | cons entry rest => exact leaf_eq_map matcher matcher' _ _

theorem conjunction_eq_map (entries : List (String × Value)) :
    conjunction matcher' entries = (conjunction matcher entries).map (rematch matcher') := by
  have hleaves : (entries.mapM fun entry => leaf matcher' (.text entry.1) entry.2)
      = (entries.mapM fun entry => leaf matcher (.text entry.1) entry.2).map
          (List.map (rematch matcher')) := by
    rw [← mapM_map]
    simp only [← leaf_eq_map]
  show (entries.mapM fun entry => leaf matcher' (.text entry.1) entry.2) >>= _
    = Except.map _ ((entries.mapM fun entry => leaf matcher (.text entry.1) entry.2) >>= _)
  rw [hleaves]
  cases entries.mapM fun entry => leaf matcher (.text entry.1) entry.2 with
  | error e => rfl
  | ok leaves =>
    show Except.ok (node .all (leaves.map (rematch matcher'))) = _
    rw [← rematchAll_eq_map]
    rfl

mutual

theorem compileNode_eq_map : ∀ v : Value,
    compileNode matcher' v = (compileNode matcher v).map (rematch matcher')
  | .mapping entries => by
    rw [compileNode, compileNode, compileEntries_eq_map entries]
    split_ifs
    · rfl
    · exact conjunction_eq_map matcher matcher' entries
    · exact leafOf_eq_map matcher matcher' entries
    · cases compileEntries matcher entries <;> rfl
  | .null | .bool _ | .int _ | .float _ | .text _ | .list _ | .tuple _ | .object _ | .set _
  | .path _ | .octets _ | .failure _ => rfl

theorem compileEntries_eq_map : ∀ entries : List (String × Value),
    compileEntries matcher' entries = (compileEntries matcher entries).map (rematchAll matcher')
  | [] => rfl
  | (name, v) :: rest => by
    cases v with
    -- only lists hold queries; other entries are passed over
    | list items =>
      rw [compileEntries, compileEntries, compileItems_eq_map items, compileEntries_eq_map rest]
      cases compileItems matcher items with
      | error e => rfl
      | ok children =>
        cases compileEntries matcher rest with
        | error e => rfl
        | ok others =>
          exact congrArg Except.ok (rematchAll_append matcher' children others).symm
    | _ => exact compileEntries_eq_map rest

theorem compileItems_eq_map : ∀ items : List Value,
    compileItems matcher' items = (compileItems matcher items).map (rematchAll matcher')
  | [] => rfl
  | item :: rest => by
    rw [compileItems, compileItems, compileNode_eq_map item, compileItems_eq_map rest]
    cases compileNode matcher item with
    | error e => rfl
    | ok child => cases compileItems matcher rest <;> rfl

end

/-- **Other matchers do not change the shape of a compiled query.** -/
theorem compile_eq_map (query : Value) :
    compile matcher' query = (compile matcher query).map (rematch matcher') := by
  unfold compile
  cases query with
  | mapping entries =>
    simp only
    split_ifs
    · rw [compileNode_eq_map matcher matcher']
      cases compileNode matcher (.mapping entries) <;> rfl
    · exact conjunction_eq_map matcher matcher' entries
    · exact compileNode_eq_map matcher matcher' _
  | _ => rfl

end LogicalQuery

end FuzzySearch
