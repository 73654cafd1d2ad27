import FuzzySearch.Proofs.Logic.Grammar

/-!
# What logical queries mean

Whether a query holds depends on which of its leaves have matches (`LogicalQuery.Holds`).  Three
functions say what its evaluation has to do: `holds` decides the question, `visited` lists the
leaves that have to be asked for that, in order, and `witnesses` the leaves whose matches are those
of the query.  The main statement is `LogicalQuery.evaluate_compile`: the compiled query asks the
visited leaves and no others, and its matches are those of the witnesses.
-/

namespace FuzzySearch.LogicalQuery

open Expression

variable {α β : Type} (matcher : String → Option (Matcher α)) (found : Leaf α → List β)

/-! ### Truth -/

/-- When a query is true of a record, by the matches of its leaves. -/
inductive Holds : LogicalQuery → Prop
  | fields {first : FieldName × String} {rest : List (FieldName × String)}
      (h : ∀ field ∈ first :: rest, found (fieldLeaf matcher field) ≠ []) :
      Holds (fields first rest)
  | path {p : FieldPath} {pattern : String} {patternFirst : Bool}
      (h : found (pathLeaf matcher p pattern) ≠ []) : Holds (path p pattern patternFirst)
  | all {queries : List LogicalQuery} (nonempty : queries ≠ [])
      (h : ∀ query ∈ queries, Holds query) : Holds (all queries)
  | any {queries : List LogicalQuery} {query : LogicalQuery} (hmem : query ∈ queries)
      (h : Holds query) : Holds (any queries)

/-- Whether a leaf has matches. -/
def matched (l : Leaf α) : Bool := !(found l).isEmpty

mutual

/-- Whether a query is true of a record. -/
def holds : LogicalQuery → Bool
  | fields first rest => (first :: rest).all fun field => matched found (fieldLeaf matcher field)
  | path p pattern _ => matched found (pathLeaf matcher p pattern)
  | all queries => !queries.isEmpty && allHold queries
  | any queries => anyHolds queries

def allHold : List LogicalQuery → Bool
  | [] => true
  | query :: rest => holds query && allHold rest

def anyHolds : List LogicalQuery → Bool
  | [] => false
  | query :: rest => holds query || anyHolds rest

end

theorem matched_iff {l : Leaf α} : matched found l = true ↔ found l ≠ [] := by
  rw [matched, Bool.not_eq_true', ← Bool.not_eq_true, List.isEmpty_iff]

mutual

theorem holds_iff : ∀ query : LogicalQuery, query.holds matcher found = true ↔
    query.Holds matcher found
  | fields first rest => by
    rw [holds, List.all_eq_true]
    simp only [matched_iff]
    constructor
    · exact .fields
    · rintro (h | _)
      exact h
  | path p pattern patternFirst => by
    rw [holds, matched_iff]
    constructor
    · exact .path
    · rintro (_ | h)
      exact h
  | all queries => by
    rw [holds, Bool.and_eq_true, allHold_iff queries, Bool.not_eq_true', ← Bool.not_eq_true,
      List.isEmpty_iff]
    constructor
    · rintro ⟨hne, h⟩
      exact .all hne h
    · rintro (_ | _ | ⟨hne, h⟩)
      exact ⟨hne, h⟩
  | any queries => by
    rw [holds, anyHolds_iff queries]
    constructor
    · rintro ⟨query, hmem, h⟩
      exact .any hmem h
    · rintro (_ | _ | _ | ⟨hmem, h⟩)
      exact ⟨_, hmem, h⟩

theorem allHold_iff : ∀ queries : List LogicalQuery, allHold matcher found queries = true ↔
    ∀ query ∈ queries, query.Holds matcher found
  | [] => iff_of_true rfl (List.forall_mem_nil _)
  | query :: rest => by
    rw [allHold, Bool.and_eq_true, holds_iff query, allHold_iff rest, List.forall_mem_cons]

theorem anyHolds_iff : ∀ queries : List LogicalQuery, anyHolds matcher found queries = true ↔
    ∃ query ∈ queries, query.Holds matcher found
  | [] => iff_of_false Bool.false_ne_true fun ⟨_, h, _⟩ => List.not_mem_nil h
  | query :: rest => by
    rw [anyHolds, Bool.or_eq_true, holds_iff query, anyHolds_iff rest]
    simp only [List.mem_cons, exists_eq_or_imp]

end

/-! ### Witnesses -/

mutual

/-- The leaves that make a query true. -/
def witnesses : LogicalQuery → List (Leaf α)
  | fields first rest => (first :: rest).map (fieldLeaf matcher)
  | path p pattern _ => [pathLeaf matcher p pattern]
  | all queries => witnessesOfAll queries
  | any queries => witnessesOfFirst queries

def witnessesOfAll : List LogicalQuery → List (Leaf α)
  | [] => []
  | query :: rest => witnesses query ++ witnessesOfAll rest

/-- The leaves that make the first true query of a list true. -/
def witnessesOfFirst : List LogicalQuery → List (Leaf α)
  | [] => []
  | query :: rest =>
    if query.holds matcher found then witnesses query else witnessesOfFirst rest

end

/-- The matches of a query: those of its witnesses. -/
def result (query : LogicalQuery) : List β :=
  if query.holds matcher found then (query.witnesses matcher found).flatMap found else []

theorem ite_matched (l : Leaf α) :
    (if matched found l then [l].flatMap found else []) = found l := by
  rw [matched]
  cases hfound : found l <;> simp [hfound]

variable {matcher found} in
mutual

/-- A query that holds has matches. -/
theorem flatMap_witnesses_ne_nil : ∀ query : LogicalQuery, query.holds matcher found = true →
    (query.witnesses matcher found).flatMap found ≠ []
  | fields first rest, h => by
    rw [holds, List.all_cons, Bool.and_eq_true, matched_iff] at h
    rw [witnesses, List.map_cons, List.flatMap_cons]
    exact List.append_ne_nil_of_left_ne_nil h.1 _
  | path p pattern patternFirst, h => by
    rw [holds, matched_iff] at h
    rwa [witnesses, List.flatMap_cons, List.flatMap_nil, List.append_nil]
  | all [], h => absurd h Bool.false_ne_true
  | all (query :: rest), h => by
    rw [holds, allHold, Bool.and_eq_true, Bool.and_eq_true] at h
    rw [witnesses, witnessesOfAll, List.flatMap_append]
    exact List.append_ne_nil_of_left_ne_nil (flatMap_witnesses_ne_nil query h.2.1) _
  | any queries, h => by
    rw [holds] at h
    rw [witnesses]
    exact flatMap_witnessesOfFirst_ne_nil queries h

theorem flatMap_witnessesOfFirst_ne_nil : ∀ queries : List LogicalQuery,
    anyHolds matcher found queries = true →
      (witnessesOfFirst matcher found queries).flatMap found ≠ []
  | [], h => absurd h Bool.false_ne_true
  | query :: rest, h => by
    rw [witnessesOfFirst]
    split_ifs with hquery
    · exact flatMap_witnesses_ne_nil query hquery
    · rw [anyHolds, Bool.or_eq_true] at h
      exact flatMap_witnessesOfFirst_ne_nil rest (h.resolve_left hquery)

end

theorem isEmpty_result (query : LogicalQuery) :
    (query.result matcher found).isEmpty = !query.holds matcher found := by
  rw [result]
  split_ifs with h
  · rw [h, Bool.not_true, List.isEmpty_eq_false_iff]
    exact flatMap_witnesses_ne_nil query h
  · rw [Bool.not_eq_true] at h
    rw [h]
    rfl

/-! ### Visited leaves -/

/-- The leaves of fields up to the first without matches. -/
def visitedFields : List (FieldName × String) → List (Leaf α)
  | [] => []
  | field :: rest => fieldLeaf matcher field ::
    if matched found (fieldLeaf matcher field) then visitedFields rest else []

mutual

/-- The leaves that have to be asked to find out whether a query holds, from left to right. -/
def visited : LogicalQuery → List (Leaf α)
  | fields first rest => visitedFields matcher found (first :: rest)
  | path p pattern _ => [pathLeaf matcher p pattern]
  | all queries => visitedAll queries
  | any queries => visitedAny queries

/-- The leaves of queries up to the first that does not hold. -/
def visitedAll : List LogicalQuery → List (Leaf α)
  | [] => []
  | query :: rest => visited query ++ if query.holds matcher found then visitedAll rest else []

/-- The leaves of queries up to the first that holds. -/
def visitedAny : List LogicalQuery → List (Leaf α)
  | [] => []
  | query :: rest => visited query ++ if query.holds matcher found then [] else visitedAny rest

end

/-! ### Evaluation -/

/-- A result that took asking some leaves. -/
def recorded {γ : Type} (leaves : List (Leaf α)) (x : γ) : StateM (List (Leaf α)) γ :=
  fun asked => (x, asked ++ leaves)

/-- Answers with the matches of a leaf, and records that it was asked. -/
def answer (l : Leaf α) : StateM (List (Leaf α)) (List β) := recorded [l] (found l)

theorem pure_eq_recorded {γ : Type} (x : γ) :
    (pure x : StateM (List (Leaf α)) γ) = recorded [] x := by
  funext asked
  exact congrArg (Prod.mk x) (List.append_nil asked).symm

theorem recorded_bind {γ δ : Type} {earlier later : List (Leaf α)} {x : γ} {y : δ}
    {next : γ → StateM (List (Leaf α)) δ} (h : next x = recorded later y) :
    recorded earlier x >>= next = recorded (earlier ++ later) y := by
  funext asked
  show next x (asked ++ earlier) = (y, asked ++ (earlier ++ later))
  rw [h, recorded, List.append_assoc]

theorem recorded_bind_pure {γ δ : Type} {leaves : List (Leaf α)} {x : γ} {y : δ}
    {next : γ → StateM (List (Leaf α)) δ} (h : next x = pure y) :
    recorded leaves x >>= next = recorded leaves y := by
  have hnext : next x = recorded [] y := h.trans (pure_eq_recorded y)
  rw [recorded_bind hnext, List.append_nil]

section

variable {found} {child : Expression α} {rest : List (Expression α)}
  {earlier later : List (Leaf α)} {first : List β}

theorem evaluateAll_cons_eq_recorded {others : Option (List β)}
    (hchild : evaluate (answer found) child = recorded earlier first)
    (hrest : evaluateAll (answer found) rest = recorded later others) :
    evaluateAll (answer found) (child :: rest)
      = if first.isEmpty then recorded earlier none
        else recorded (earlier ++ later) (others.map (first ++ ·)) := by
  rw [evaluateAll, hchild, hrest]
  split_ifs with hfirst
  · apply recorded_bind_pure
    rw [if_pos hfirst]
  · apply recorded_bind
    rw [if_neg hfirst]
    apply recorded_bind_pure
    rfl

theorem evaluateAny_cons_eq_recorded {others : List β}
    (hchild : evaluate (answer found) child = recorded earlier first)
    (hrest : evaluateAny (answer found) rest = recorded later others) :
    evaluateAny (answer found) (child :: rest)
      = if first.isEmpty then recorded (earlier ++ later) others else recorded earlier first := by
  rw [evaluateAny, hchild, hrest]
  split_ifs with hfirst
  · apply recorded_bind
    rw [if_pos hfirst]
  · apply recorded_bind_pure
    rw [if_neg hfirst]

end

theorem evaluateAll_fields (fields : List (FieldName × String)) :
    evaluateAll (answer found) (fields.map fun field => .leaf (fieldLeaf matcher field))
      = recorded (visitedFields matcher found fields)
        (if fields.all fun field => matched found (fieldLeaf matcher field)
          then some ((fields.map (fieldLeaf matcher)).flatMap found) else none) := by
  induction fields with
  | nil =>
    rw [List.map_nil, evaluateAll]
    exact pure_eq_recorded _
  | cons field rest ih =>
    have hleaf : evaluate (answer found) (.leaf (fieldLeaf matcher field))
        = recorded [fieldLeaf matcher field] (found (fieldLeaf matcher field)) := by
      rw [evaluate, answer]
    rw [List.map_cons, evaluateAll_cons_eq_recorded hleaf ih, visitedFields, List.all_cons, matched]
    cases hfield : (found (fieldLeaf matcher field)).isEmpty with
    | true => rfl
    | false => cases rest.all fun field => matched found (fieldLeaf matcher field) <;> rfl

/-- A node that demands all fields of a query. -/
theorem evaluate_fields (first : FieldName × String) (rest : List (FieldName × String)) :
    evaluate (answer found)
        (.node .all ((first :: rest).map fun field => .leaf (fieldLeaf matcher field)))
      = recorded ((fields first rest).visited matcher found)
        ((fields first rest).result matcher found) := by
  rw [evaluate, evaluateAll_fields]
  apply recorded_bind_pure
  rw [result, holds]
  split_ifs <;> rfl

mutual

/-- **A query inside another asks its visited leaves, for the matches of its witnesses.** -/
theorem evaluate_inner : ∀ query : LogicalQuery,
    evaluate (answer found) (query.inner matcher)
      = recorded (query.visited matcher found) (query.result matcher found)
  | fields first [] => by
    rw [inner, evaluate, result, holds, List.all_cons, List.all_nil, Bool.and_true, witnesses,
      visited, visitedFields, visitedFields, ite_self]
    exact congrArg (recorded _) (ite_matched found _).symm
  | fields first (second :: rest) => by
    rw [inner]
    exact evaluate_fields matcher found first (second :: rest)
  | path p pattern patternFirst => by
    rw [inner, evaluate, result, holds, witnesses]
    exact congrArg (recorded _) (ite_matched found _).symm
  | all queries => by
    rw [inner, evaluate, evaluateAll_inners queries]
    apply recorded_bind_pure
    rw [result, holds, witnesses]
    cases queries with
    | nil => rfl
    | cons query rest => cases allHold matcher found (query :: rest) <;> rfl
  | any queries => by
    rw [inner, evaluate, evaluateAny_inners queries]
    rfl

theorem evaluateAll_inners : ∀ queries : List LogicalQuery,
    evaluateAll (answer found) (inners matcher queries)
      = recorded (visitedAll matcher found queries)
        (if allHold matcher found queries
          then some ((witnessesOfAll matcher found queries).flatMap found) else none)
  | [] => by
    rw [inners, evaluateAll]
    exact pure_eq_recorded _
  | query :: rest => by
    rw [inners, evaluateAll_cons_eq_recorded (evaluate_inner query) (evaluateAll_inners rest),
      isEmpty_result, result, visitedAll, allHold, witnessesOfAll, List.flatMap_append]
    cases query.holds matcher found with
    | true => cases allHold matcher found rest <;> rfl
    | false => simp

theorem evaluateAny_inners : ∀ queries : List LogicalQuery,
    evaluateAny (answer found) (inners matcher queries)
      = recorded (visitedAny matcher found queries)
        (if anyHolds matcher found queries
          then (witnessesOfFirst matcher found queries).flatMap found else [])
  | [] => by
    rw [inners, evaluateAny]
    exact pure_eq_recorded _
  | query :: rest => by
    rw [inners, evaluateAny_cons_eq_recorded (evaluate_inner query) (evaluateAny_inners rest),
      isEmpty_result, result, visitedAny, anyHolds, witnessesOfFirst]
    cases query.holds matcher found with
    | true => simp
    | false => rfl

end

theorem evaluate_outer (query : LogicalQuery) :
    evaluate (answer found) (query.outer matcher)
      = recorded (query.visited matcher found) (query.result matcher found) := by
  cases query with
  | fields first rest => exact evaluate_fields matcher found first rest
  | path p pattern patternFirst =>
    have hleaf := evaluate_inner matcher found (path p pattern patternFirst)
    have hnone : evaluateAll (answer found) ([] : List (Expression α)) = recorded [] (some []) := by
      rw [evaluateAll]
      exact pure_eq_recorded _
    rw [inner] at hleaf
    rw [outer, evaluate, evaluateAll_cons_eq_recorded hleaf hnone, isEmpty_result, List.append_nil]
    -- without matches of the leaf the node has none, and otherwise it has those of the leaf
    cases hholds : (path p pattern patternFirst).holds matcher found with
    | true =>
      apply recorded_bind_pure
      simp
    | false =>
      apply recorded_bind_pure
      simp [result, hholds]
  | all queries => exact evaluate_inner matcher found (all queries)
  | any queries => exact evaluate_inner matcher found (any queries)

/-- **Queries are evaluated as they are meant.**  A query compiles, and its evaluation asks exactly
the visited leaves, in their order.  There are matches exactly when the query holds, and then they
are those of the witnesses, in the order of the query. -/
theorem evaluate_compile (query : LogicalQuery) :
    ∃ expression result, compile matcher query.toValue = .ok expression ∧
      (∀ asked, (expression.evaluate (answer found)).run asked
        = (result, asked ++ query.visited matcher found)) ∧
      (result ≠ [] ↔ query.Holds matcher found) ∧
      result = if query.holds matcher found
        then (query.witnesses matcher found).flatMap found else [] := by
  refine ⟨query.outer matcher, query.result matcher found, compile_toValue query, ?_, ?_, rfl⟩
  · intro asked
    rw [evaluate_outer]
    rfl
  · rw [ne_eq, ← List.isEmpty_iff, isEmpty_result, Bool.not_eq_true', Bool.not_eq_false, holds_iff]

end FuzzySearch.LogicalQuery
