import FuzzySearch.Proofs.Engine.Success

/-!
# Searches under two thresholds

A matcher is `Stricter` than another when it matches no text that the other does not.  With stricter
matchers no record gets a match that it does not get with the others (`textMatches_ne_nil`,
`fieldMatches_ne_nil`, `logicalMatches_ne_nil`), whatever is asked for.  A lower threshold makes
stricter matchers, so it never adds a result (`search_mono`).
-/

namespace FuzzySearch

/-- A matcher that matches no text that another does not. -/
def Matcher.Stricter (matcher matcher' : Matcher Rat) : Prop :=
  ∀ text, (matcher.compareText text).isMatch = true → (matcher'.compareText text).isMatch = true

namespace Engine

/-- The engine with another threshold. -/
def withThreshold (engine : Engine Rat) (threshold : Rat) : Engine Rat :=
  { engine with options := { engine.options with threshold := threshold } }

variable [ExactWeighting] {engine : Engine Rat}

/-! ### Matches of stricter matchers -/

section

variable {matcher matcher' : Matcher Rat} (hstricter : matcher.Stricter matcher')

include hstricter

omit [ExactWeighting] in
theorem entryMatches_ne_nil {key : Option (Key Rat)} {entry : Option (IndexedField Rat)}
    (h : entryMatches key entry (some matcher) ≠ []) :
    entryMatches key entry (some matcher') ≠ [] := by
  obtain ⟨found, hfound⟩ := List.exists_mem_of_ne_nil _ h
  obtain ⟨e, he, _, ⟨⟩, indexed, hindexed, hmatch, -⟩ := mem_entryMatches_iff.mp hfound
  exact List.ne_nil_of_mem (mem_entryMatches_iff.mpr
    ⟨e, he, matcher', rfl, indexed, hindexed, hstricter _ hmatch, rfl⟩)

theorem textMatches_ne_nil {body : RecordBody Rat} (h : textMatches matcher body ≠ []) :
    textMatches matcher' body ≠ [] := by
  unfold textMatches at h ⊢
  split at h
  · simp only at h ⊢
    split_ifs at h with hmatch
    · rw [if_pos (hstricter _ hmatch)]
      exact List.cons_ne_nil _ _
    · exact absurd rfl h
  · exact absurd rfl h

theorem fieldMatches_ne_nil {body : RecordBody Rat} (h : engine.fieldMatches matcher body ≠ []) :
    engine.fieldMatches matcher' body ≠ [] := by
  cases body with
  | text v norm => exact h
  | fields fields =>
    obtain ⟨found, hfound⟩ := List.exists_mem_of_ne_nil _ h
    obtain ⟨⟨key, number⟩, hkey, hmem⟩ := List.mem_flatMap.mp hfound
    have hne := entryMatches_ne_nil hstricter (List.ne_nil_of_mem hmem)
    obtain ⟨found', hfound'⟩ := List.exists_mem_of_ne_nil _ hne
    exact List.ne_nil_of_mem (List.mem_flatMap.mpr ⟨(key, number), hkey, hfound'⟩)

end

theorem logicalMatches_ne_nil {matcher matcher' : String → Matcher Rat}
    (hstricter : ∀ pattern, (matcher pattern).Stricter (matcher' pattern))
    (expression : Expression Rat) {body : RecordBody Rat}
    (h : engine.logicalMatches (expression.rematch fun pattern => some (matcher pattern)) body
      ≠ []) :
    engine.logicalMatches (expression.rematch fun pattern => some (matcher' pattern)) body
      ≠ [] := by
  cases body with
  | text v norm => exact h
  | fields fields =>
    have hask : Expression.Rarer (fun pattern => some (matcher pattern))
        (fun pattern => some (matcher' pattern))
        (fun leaf => pure (engine.leafMatches fields leaf))
        (fun leaf => pure (engine.leafMatches fields leaf)) :=
      fun l => entryMatches_ne_nil (hstricter l.pattern)
    exact Expression.evaluate_rematch_ne_nil hask expression h

/-! ### Engines with another threshold -/

/-- The same engine is built with another threshold. -/
theorem build_withThreshold {docs : Value} {options : EngineOptions Rat}
    {factories : List (MatcherFactory Rat)}
    (h : Engine.build docs options .absent factories = .ok engine) (threshold : Rat) :
    Engine.build docs { options with threshold := threshold } .absent factories
      = .ok (engine.withThreshold threshold) := by
  rw [build_eq_ok_iff] at h ⊢
  obtain ⟨hextended, store, items, index, hstore, hitems, hindex, rfl⟩ := h
  exact ⟨hextended, store, items, index, hstore, hitems, hindex, rfl⟩

/-- **The hits of a query are among those with a threshold that makes no stricter matchers.** -/
theorem positions_hits_withThreshold {threshold' : Rat} (hstricter : ∀ pattern,
      (engine.matcherOf pattern).Stricter ((engine.withThreshold threshold').matcherOf pattern))
    (hrecords : ∀ record ∈ engine.index.records, record.body.Readable) {query : Value}
    {hits : List (Hit Rat)} (h : engine.hits query = .ok hits) :
    ∃ hits', (engine.withThreshold threshold').hits query = .ok hits' ∧
      hits.map (·.position) ⊆ hits'.map (·.position) := by
  unfold Engine.hits at h ⊢
  cases query with
  | text pattern =>
    simp only at h ⊢
    rw [show (engine.withThreshold threshold').holdsTexts = engine.holdsTexts from rfl]
    split_ifs at h ⊢
    · rw [textHits_eq_ok hrecords] at h
      obtain rfl := Except.ok.inj h
      exact ⟨_, @textHits_eq_ok _ _ (engine.withThreshold threshold') hrecords pattern,
        positions_hitsOf_subset fun record _ => textMatches_ne_nil (hstricter pattern)⟩
    · rw [fieldHits_eq] at h
      obtain rfl := Except.ok.inj h
      exact ⟨_, congrArg Except.ok (fieldHits_eq pattern),
        positions_hitsOf_subset fun record _ => fieldMatches_ne_nil (hstricter pattern)⟩
  | _ =>
    simp only [logicalHits_eq, map_eq_ok_iff] at h ⊢
    obtain ⟨expression, hexpression, rfl⟩ := h
    exact ⟨_, ⟨expression, hexpression, rfl⟩,
      positions_hitsOf_subset fun record _ => logicalMatches_ne_nil hstricter expression⟩

/-- **Lowering the threshold never adds results.**  Whatever the query is and whatever the other
options are, a search with a greater threshold finds every record that the search with a lower one
finds. -/
theorem search_mono {docs : Value} {options : EngineOptions Rat} {threshold threshold' : Rat}
    (hthreshold : 0 ≤ threshold) (hle : threshold ≤ threshold') (hone : threshold' ≤ 1)
    {lower : Engine Rat}
    (hbuild : Engine.build docs { options with threshold := threshold } .absent
      MatcherFactory.standard = .ok lower)
    {query : Value} {results : List (ReportedHit Rat)}
    (hsearch : lower.search query (-1) = .ok results) :
    ∃ upper results',
      Engine.build docs { options with threshold := threshold' } .absent MatcherFactory.standard
          = .ok upper ∧
        upper.search query (-1) = .ok results' ∧
        results.map (·.position) ⊆ results'.map (·.position) := by
  have hupper := build_withThreshold hbuild threshold'
  have hstricter : ∀ pattern,
      (lower.matcherOf pattern).Stricter ((lower.withThreshold threshold').matcherOf pattern) := by
    intro pattern text hmatch
    rw [matcherOf_of_build hbuild] at hmatch
    rw [matcherOf_of_build hupper]
    exact MatcherFactory.isMatch_compareText_mono hthreshold hle hone hmatch
  -- without a limit the results are the hits, in another order
  obtain ⟨hits, -, hhits, -⟩ := search_eq_ok_iff.mp hsearch
  obtain ⟨hits', hhits', hsubset⟩ := positions_hits_withThreshold hstricter
    (fun record hrecord => (proper_of_build hbuild record hrecord).readable) hhits
  obtain ⟨results', hresults'⟩ := exists_search_of_build hupper hhits' (-1)
  exact ⟨_, results', hupper, hresults', fun position hposition =>
    (perm_of_search hresults' hhits').symm.subset
      (hsubset ((perm_of_search hsearch hhits).subset hposition))⟩

/-- Powers with the exponent rounded down, and norms rounded to thousandths. -/
@[reducible]
def roundedWeighting : ExactWeighting where
  power base exponent := .ok (base ^ exponent.floor.toNat)
  lengthNorm count := ((Nat.sqrt (4000000 / count) + 1) / 2 : Nat) / 1000
  exists_power _ := ⟨_, rfl⟩
  lengthNorm_nonneg count := by positivity

omit [ExactWeighting] in
/-- A letter is missing, which both thresholds allow. -/
theorem search_mono_missing_letter :
    letI := roundedWeighting
    let options : EngineOptions Rat :=
      { MatchOptions.standard with
        keys := [], includeScore := false, shouldSort := false, order := Hit.before,
        extract := standardExtractor, normalize := none, ignoreFieldNorm := false }
    ∃ upper results',
      Engine.build (.list [.text "kiwi", .text "plum"]) { options with threshold := 3 / 4 } .absent
          MatcherFactory.standard = .ok upper ∧
        upper.search (.text "plm") (-1) = .ok results' ∧ 1 ∈ results'.map (·.position) := by
  let _ := roundedWeighting
  intro options
  have hpositions : (do
      let lower ← Engine.build (.list [.text "kiwi", .text "plum"])
        { options with threshold := 1 / 2 } .absent MatcherFactory.standard
      let results ← lower.search (.text "plm") (-1)
      return results.map ReportedHit.position : Except SearchError (List Int)) = .ok [1] := by
    decide +kernel
  obtain ⟨lower, hbuild, hlower⟩ := bind_eq_ok_iff.mp hpositions
  obtain ⟨results, hsearch, hresults⟩ := bind_eq_ok_iff.mp hlower
  obtain ⟨upper, results', hupper, hresults', hsubset⟩ := @search_mono _ _ options (1 / 2) (3 / 4)
    (by norm_num) (by norm_num) (by norm_num) lower hbuild (.text "plm") results hsearch
  refine ⟨upper, results', hupper, hresults', hsubset ?_⟩
  rw [pure_eq_ok_iff.mp hresults]
  exact List.mem_singleton_self 1

end Engine

end FuzzySearch
