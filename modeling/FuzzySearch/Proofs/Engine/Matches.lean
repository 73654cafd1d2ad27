import FuzzySearch.Engine.Search
import FuzzySearch.Proofs.Logic.Rematch

/-!
# The matches of records

Whatever is asked for, each record has some matches, and the records with matches are the hits
(`hitsOf`).  For a text these are the matches in the text of a record (`textMatches`) or in the
entries of all keys (`fieldMatches`); for a logical query those of its expression
(`logicalMatches`).  Comparing cannot fail as long as the records that are indexed as texts hold
texts (`RecordBody.Readable`, `hits_of_readable`).
-/

namespace FuzzySearch

/-- A body that holds a text if it is indexed as one. -/
def RecordBody.Readable {α : Type} : RecordBody α → Prop
  | .text v _ => ∃ s, v = .text s
  | .fields _ => True

namespace Engine

variable {α : Type} [Weighting α] {engine : Engine α}

/-- The matcher of a pattern in a search. -/
def matcherOf (engine : Engine α) (pattern : String) : Matcher α :=
  MatcherFactory.matcher engine.factories pattern engine.options.toMatchOptions

/-- The hits among the records when their matches are given. -/
def hitsOf (engine : Engine α) (found : RecordBody α → List (TextMatch α)) : List (Hit α) :=
  engine.index.records.filterMap fun record => hit? record.position (found record.body)

/-- The matches of a matcher in a record that is a text. -/
def textMatches (matcher : Matcher α) : RecordBody α → List (TextMatch α)
  | .text (.text s) norm =>
    let result := matcher.compareText s
    if result.isMatch then [⟨result.score, s, norm, result.spans, none, none⟩] else []
  | _ => []

/-- The matches of a matcher in the entries of all keys. -/
def fieldMatches (engine : Engine α) (matcher : Matcher α) : RecordBody α → List (TextMatch α)
  | .text _ _ => []
  | .fields fields =>
    engine.index.keys.zipIdx.flatMap fun (key, number) =>
      let key := (engine.weightedKeys.get? key.id).getD key
      entryMatches (some key) (Index.entry? fields number) (some matcher)

/-- The matches of a logical query. -/
def logicalMatches (engine : Engine α) (expression : Expression α) :
    RecordBody α → List (TextMatch α)
  | .text _ _ => []
  | .fields fields =>
    let found : Id (List (TextMatch α)) :=
      expression.evaluate fun leaf => pure (engine.leafMatches fields leaf)
    found.run

omit [Weighting α] in
/-- The matches in an entry are those of its texts that match. -/
theorem mem_entryMatches_iff [ScoreNumber α] {key : Option (Key α)}
    {entry : Option (IndexedField α)} {matcher : Option (Matcher α)} {found : TextMatch α} :
    found ∈ entryMatches key entry matcher ↔
      ∃ e ∈ entry, ∃ m ∈ matcher, ∃ indexed ∈ e.texts,
        (m.compareText indexed.text).isMatch = true ∧
          found = ⟨(m.compareText indexed.text).score, indexed.text, indexed.norm,
            (m.compareText indexed.text).spans, key, indexed.nested⟩ := by
  cases entry with
  | none => simp [entryMatches]
  | some entry =>
    cases matcher with
    | none => simp [entryMatches]
    | some matcher => simp [entryMatches, @eq_comm _ found]

/-! ### The hits of queries -/

omit [Weighting α] in
theorem compareValue_text [ScoreNumber α] (matcher : Matcher α) (s : String) :
    matcher.compareValue (.text s) = .ok (matcher.compareText s) := by
  cases matcher <;> rfl

theorem textHit?_eq_ok (matcher : Matcher α) {record : Record α} (h : record.body.Readable) :
    textHit? matcher record = .ok (hit? record.position (textMatches matcher record.body)) := by
  obtain ⟨position, body⟩ := record
  cases body with
  | fields entries => rfl
  | text v norm =>
    obtain ⟨s, rfl⟩ := h
    simp only [textHit?, textMatches, compareValue_text, bind, Except.bind]
    split_ifs <;> rfl

/-- **The hits of a pattern in a collection of texts.** -/
theorem textHits_eq_ok (h : ∀ record ∈ engine.index.records, record.body.Readable)
    (pattern : String) :
    engine.textHits pattern = .ok (engine.hitsOf (textMatches (engine.matcherOf pattern))) := by
  simp only [textHits, mapM_eq_ok_map fun record hrecord => textHit?_eq_ok _ (h record hrecord)]
  show Except.ok ((engine.index.records.map _).filterMap id) = _
  rw [List.filterMap_map, Function.id_comp]
  rfl

/-- **The hits of a pattern in a collection of records with fields.** -/
theorem fieldHits_eq (pattern : String) :
    engine.fieldHits pattern = engine.hitsOf (engine.fieldMatches (engine.matcherOf pattern)) := by
  refine List.filterMap_congr fun record _ => ?_
  obtain ⟨position, body⟩ := record
  cases body <;> rfl

/-- **The hits of a logical query**, whose expression has the same shape whatever the matchers
are. -/
theorem logicalHits_eq (query : Value) :
    engine.logicalHits query
      = (LogicalQuery.compile (fun _ => none) query).map fun expression =>
          engine.hitsOf (engine.logicalMatches
            (expression.rematch fun pattern => some (engine.matcherOf pattern))) := by
  have hlogical : ∀ expression record, engine.logicalHit? expression record
      = hit? record.position (engine.logicalMatches expression record.body) := by
    rintro expression ⟨position, body⟩
    cases body <;> rfl
  show (LogicalQuery.compile (fun pattern => some (engine.matcherOf pattern)) query >>=
    fun expression =>
      Except.ok (engine.index.records.filterMap (engine.logicalHit? expression))) = _
  rw [LogicalQuery.compile_eq_map (fun _ => none)]
  cases LogicalQuery.compile (fun _ => none) query with
  | error e => rfl
  | ok expression =>
    exact congrArg Except.ok (List.filterMap_congr fun record _ => hlogical _ record)

/-- **Nothing fails while texts are compared**: if every record is readable, a text has hits, and
another query fails only if it cannot be compiled. -/
theorem hits_of_readable (h : ∀ record ∈ engine.index.records, record.body.Readable) :
    (∀ pattern, ∃ hits, engine.hits (.text pattern) = .ok hits) ∧
      ∀ query e, engine.hits query = .error e →
        LogicalQuery.compile (fun _ => none : String → Option (Matcher α)) query = .error e := by
  have htext : ∀ pattern, ∃ hits, engine.hits (.text pattern) = .ok hits := by
    intro pattern
    unfold Engine.hits
    simp only
    split_ifs
    · exact ⟨_, textHits_eq_ok h pattern⟩
    · exact ⟨_, rfl⟩
  have hlogical : ∀ v e, engine.logicalHits v = .error e →
      LogicalQuery.compile (fun _ => none : String → Option (Matcher α)) v = .error e := by
    intro v e hv
    rw [logicalHits_eq] at hv
    cases hcompile : LogicalQuery.compile (fun _ => none : String → Option (Matcher α)) v with
    | ok expression =>
      rw [hcompile] at hv
      cases hv
    | error e' =>
      rw [hcompile] at hv
      exact congrArg Except.error (Except.error.inj hv)
  refine ⟨htext, fun query e he => ?_⟩
  cases query with
  | text pattern =>
    obtain ⟨hits, hhits⟩ := htext pattern
    cases hhits.symm.trans he
  | _ => exact hlogical _ e he

/-! ### Hits of other matches -/

theorem mem_hitsOf_iff {found : RecordBody α → List (TextMatch α)} {hit : Hit α} :
    hit ∈ engine.hitsOf found ↔
      ∃ record ∈ engine.index.records, found record.body ≠ [] ∧
        hit = ⟨record.position, found record.body, ScoreNumber.one⟩ := by
  simp only [hitsOf, hit?, List.mem_filterMap, Option.ite_none_left_eq_some, List.isEmpty_iff,
    Option.some.injEq, @eq_comm _ hit]

/-- The hits move among the records with the matches. -/
theorem positions_hitsOf_subset {found found' : RecordBody α → List (TextMatch α)}
    (h : ∀ record ∈ engine.index.records, found record.body ≠ [] → found' record.body ≠ []) :
    (engine.hitsOf found).map (·.position) ⊆ (engine.hitsOf found').map (·.position) := by
  intro position hposition
  obtain ⟨hit, hhit, rfl⟩ := List.mem_map.mp hposition
  obtain ⟨record, hrecord, hne, rfl⟩ := mem_hitsOf_iff.mp hhit
  exact List.mem_map.mpr ⟨_, mem_hitsOf_iff.mpr ⟨record, hrecord, h record hrecord hne, rfl⟩, rfl⟩

end Engine

end FuzzySearch
