import FuzzySearch.Proofs.Engine.Failure
import FuzzySearch.Proofs.Engine.Threshold
import FuzzySearch.Proofs.Pattern.Spans

/-!
# Searches with and without matches

An engine that is asked for matches reports them, and changes nothing else
(`Engine.search_without_matches`).  What matchers find without their spans (`Comparison.bare`)
decides the matches of the records without their spans (`TextMatch.bare`), these decide the hits
(`Engine.bare_hits`), and scores and the usual order do not look at spans (`Engine.bare_search`).
Two engines that are built alike but for the matches have matchers that find the same.
-/

namespace FuzzySearch

variable {α : Type}

/-! ### Results without spans -/

/-- A match without its spans. -/
def TextMatch.bare (found : TextMatch α) : TextMatch α := { found with spans := [] }

/-- A hit whose matches have no spans. -/
def Hit.bare (hit : Hit α) : Hit α := { hit with found := hit.found.map TextMatch.bare }

/-- A result without its matches. -/
def ReportedHit.bare (result : ReportedHit α) : ReportedHit α := { result with found := none }

/-- Matchers that find the same in every value, except for the spans, and fail for the same. -/
def Matcher.Alike [ScoreNumber α] (matcher matcher' : Matcher α) : Prop :=
  ∀ v, (matcher.compareValue v).map Comparison.bare = (matcher'.compareValue v).map Comparison.bare

namespace Engine

variable [Weighting α] {engine : Engine α}

/-! ### Matches of records -/

theorem bare_hit? (position : Int) (found : List (TextMatch α)) :
    (hit? position found).map Hit.bare = hit? position (found.map TextMatch.bare) := by
  rw [hit?, hit?, List.isEmpty_map]
  split_ifs <;> rfl

theorem bare_hitsOf (found : RecordBody α → List (TextMatch α)) :
    (engine.hitsOf found).map Hit.bare
      = engine.hitsOf fun body => (found body).map TextMatch.bare := by
  simp only [hitsOf, List.map_filterMap, bare_hit?]

/-- The hit of a record that is a text, from the comparison with its text. -/
def hitOf? (position : Int) (text : String) (norm : α) (result : Comparison α) : Option (Hit α) :=
  if result.isMatch then hit? position [⟨result.score, text, norm, result.spans, none, none⟩]
  else none

theorem bare_hitOf? (position : Int) (text : String) (norm : α) (result : Comparison α) :
    (hitOf? position text norm result).map Hit.bare = hitOf? position text norm result.bare := by
  rw [hitOf?, hitOf?, Comparison.bare]
  split_ifs <;> rfl

theorem bare_textHit?_eq (matcher : Matcher α) (position : Int) {v : Value} (hv : v ≠ .null)
    (norm : α) : (textHit? matcher ⟨position, .text v norm⟩).map (Option.map Hit.bare)
      = ((matcher.compareValue v).map Comparison.bare).map (hitOf? position v.plain norm) := by
  have hhit : textHit? matcher ⟨position, .text v norm⟩
      = (matcher.compareValue v).map (hitOf? position v.plain norm) := by
    simp only [textHit?]
    cases matcher.compareValue v with
    | error e => rfl
    | ok result =>
      show (if result.isMatch then _ else _) = Except.ok (hitOf? position v.plain norm result)
      rw [hitOf?]
      split_ifs <;> rfl
  rw [hhit]
  cases matcher.compareValue v with
  | error e => rfl
  | ok result => exact congrArg Except.ok (bare_hitOf? position v.plain norm result)

section

variable {matcher matcher' : Matcher α} (halike : matcher.Alike matcher')

include halike

theorem bare_compareText (text : String) :
    (matcher.compareText text).bare = (matcher'.compareText text).bare := by
  have h := halike (.text text)
  rw [compareValue_text, compareValue_text] at h
  exact Except.ok.inj h

theorem bare_entryMatches (key : Option (Key α)) (entry : Option (IndexedField α)) :
    (entryMatches key entry (some matcher)).map TextMatch.bare
      = (entryMatches key entry (some matcher')).map TextMatch.bare := by
  cases entry with
  | none => rfl
  | some entry =>
    simp only [entryMatches, List.map_filterMap]
    refine List.filterMap_congr fun indexed _ => ?_
    obtain ⟨hmatch, hscore⟩ := Comparison.bare_eq_iff.mp (bare_compareText halike indexed.text)
    rw [hmatch]
    split_ifs
    · rw [Option.map_some, Option.map_some, TextMatch.bare, hscore]
      rfl
    · rfl

theorem bare_textHit? (record : Record α) :
    (textHit? matcher record).map (Option.map Hit.bare)
      = (textHit? matcher' record).map (Option.map Hit.bare) := by
  obtain ⟨position, body⟩ := record
  cases body with
  | fields entries => rfl
  | text v norm =>
    by_cases hv : v = .null
    · rw [hv]
      rfl
    · rw [bare_textHit?_eq matcher position hv, bare_textHit?_eq matcher' position hv, halike v]

theorem bare_fieldMatches (body : RecordBody α) :
    (engine.fieldMatches matcher body).map TextMatch.bare
      = (engine.fieldMatches matcher' body).map TextMatch.bare := by
  cases body with
  | text v norm => rfl
  | fields fields =>
    simp only [fieldMatches, List.map_flatMap, bare_entryMatches halike]

end

theorem bare_logicalMatches {matcher matcher' : String → Matcher α}
    (halike : ∀ pattern, (matcher pattern).Alike (matcher' pattern))
    (expression : Expression α) (body : RecordBody α) :
    (engine.logicalMatches (expression.rematch fun pattern => some (matcher pattern)) body).map
        TextMatch.bare
      = (engine.logicalMatches (expression.rematch fun pattern => some (matcher' pattern)) body).map
        TextMatch.bare := by
  cases body with
  | text v norm => rfl
  | fields fields =>
    have hask : Expression.Likewise TextMatch.bare (fun pattern => some (matcher pattern))
        (fun pattern => some (matcher' pattern))
        (fun leaf => pure (engine.leafMatches fields leaf))
        (fun leaf => pure (engine.leafMatches fields leaf)) :=
      fun l => bare_entryMatches (halike l.pattern) _ _
    exact Expression.map_evaluate_rematch hask expression

/-! ### Hits -/

/-- The same engine, asked for matches or not. -/
def withMatches (engine : Engine α) (includeMatches : Bool) : Engine α :=
  { engine with options := { engine.options with includeMatches := includeMatches } }

theorem alike_matcherOf (hfactories : engine.factories = MatcherFactory.standard)
    (includeMatches : Bool) (pattern : String) :
    ((engine.withMatches includeMatches).matcherOf pattern).Alike (engine.matcherOf pattern) := by
  intro v
  simp only [matcherOf, withMatches, hfactories]
  exact MatcherFactory.bare_compareValue engine.options.toMatchOptions includeMatches pattern v

theorem bare_textHits (pattern : String) :
    (engine.textHits pattern).map (List.map Hit.bare)
      = (engine.index.records.mapM fun record =>
          (textHit? (engine.matcherOf pattern) record).map (Option.map Hit.bare)).map
          (List.filterMap id) := by
  rw [mapM_map]
  show (engine.index.records.mapM (textHit? (engine.matcherOf pattern)) >>= _).map _ = _
  cases engine.index.records.mapM (textHit? (engine.matcherOf pattern)) with
  | error e => rfl
  | ok hits =>
    show Except.ok ((hits.filterMap id).map Hit.bare)
      = Except.ok ((hits.map (Option.map Hit.bare)).filterMap id)
    rw [List.map_filterMap, List.filterMap_map]
    rfl

section

variable (hfactories : engine.factories = MatcherFactory.standard) (includeMatches : Bool)

include hfactories

theorem bare_fieldHits (pattern : String) :
    ((engine.withMatches includeMatches).fieldHits pattern).map Hit.bare
      = (engine.fieldHits pattern).map Hit.bare := by
  have halike := alike_matcherOf hfactories includeMatches pattern
  rw [fieldHits_eq, fieldHits_eq, bare_hitsOf, bare_hitsOf]
  simp only [bare_fieldMatches halike]
  rfl

theorem bare_logicalHits (query : Value) :
    ((engine.withMatches includeMatches).logicalHits query).map (List.map Hit.bare)
      = (engine.logicalHits query).map (List.map Hit.bare) := by
  have halike := alike_matcherOf hfactories includeMatches
  rw [logicalHits_eq, logicalHits_eq]
  cases LogicalQuery.compile (fun _ => none) query with
  | error e => rfl
  | ok expression =>
    show Except.ok (List.map Hit.bare _) = Except.ok (List.map Hit.bare _)
    rw [bare_hitsOf, bare_hitsOf]
    simp only [bare_logicalMatches halike]
    rfl

/-- **The hits of a query are the same, except for the spans.** -/
theorem bare_hits (query : Value) :
    ((engine.withMatches includeMatches).hits query).map (List.map Hit.bare)
      = (engine.hits query).map (List.map Hit.bare) := by
  unfold Engine.hits
  cases query with
  | text pattern =>
    simp only
    rw [show (engine.withMatches includeMatches).holdsTexts = engine.holdsTexts from rfl]
    split_ifs
    · have halike := alike_matcherOf hfactories includeMatches pattern
      rw [bare_textHits, bare_textHits]
      simp only [bare_textHit? halike]
      rfl
    · exact congrArg Except.ok (bare_fieldHits hfactories includeMatches pattern)
  | _ => exact bare_logicalHits hfactories includeMatches _

end

/-! ### Results -/

theorem product_bare (ignoreNorm : Bool) (start : α) (found : List (TextMatch α)) :
    Hit.product ignoreNorm start (found.map TextMatch.bare)
      = Hit.product ignoreNorm start found := by
  induction found generalizing start with
  | nil => rfl
  | cons first rest ih =>
    rw [List.map_cons, Hit.product, Hit.product]
    simp only [ih]
    rfl

theorem bare_scored (ignoreNorm : Bool) (hit : Hit α) :
    (hit.scored ignoreNorm).map Hit.bare = hit.bare.scored ignoreNorm := by
  simp only [Hit.scored, Hit.bare, product_bare]
  cases Hit.product ignoreNorm ScoreNumber.one hit.found <;> rfl

omit [Weighting α] in
theorem bare_report (docs : List Value) (includeMatches includeScore : Bool) (hit : Hit α) :
    (hit.report docs includeMatches includeScore).map ReportedHit.bare
      = hit.bare.report docs false includeScore := by
  unfold Hit.report
  simp only [Hit.bare]
  cases document? docs hit.position <;> rfl

theorem bare_listed (horder : engine.options.shouldSort = true → engine.options.order = Hit.before)
    (limit : Int) (hits : List (Hit α)) :
    (engine.listed limit hits).map Hit.bare = engine.listed limit (hits.map Hit.bare) := by
  have hsorted : ∀ hits : List (Hit α), (Hit.sorted Hit.before hits).map Hit.bare
      = Hit.sorted Hit.before (hits.map Hit.bare) :=
    fun hits => List.map_mergeSort fun a _ b _ => rfl
  simp only [listed]
  split_ifs with hlimit hsort hsort
  · rw [horder hsort, List.map_take, hsorted]
  · rw [List.map_take]
  · rw [horder hsort, hsorted]
  · rfl

/-- The results of a search without their matches, from its hits without their spans. -/
theorem bare_search (horder : engine.options.shouldSort = true → engine.options.order = Hit.before)
    (query : Value) (limit : Int) :
    (engine.search query limit).map (List.map ReportedHit.bare)
      = (do
        let hits ← (engine.hits query).map (List.map Hit.bare)
        let scored ← hits.mapM (Hit.scored engine.options.ignoreFieldNorm)
        (engine.listed limit scored).mapM
          (Hit.report engine.docs false engine.options.includeScore)) := by
  have hscored : ∀ hits : List (Hit α),
      (hits.map Hit.bare).mapM (Hit.scored engine.options.ignoreFieldNorm)
        = (hits.mapM (Hit.scored engine.options.ignoreFieldNorm)).map (List.map Hit.bare) := by
    intro hits
    rw [← mapM_map, List.mapM_map]
    simp only [bare_scored]
    rfl
  have hreport : ∀ hits : List (Hit α),
      (hits.map Hit.bare).mapM (Hit.report engine.docs false engine.options.includeScore)
        = (hits.mapM (Hit.report engine.docs engine.options.includeMatches
            engine.options.includeScore)).map (List.map ReportedHit.bare) := by
    intro hits
    rw [← mapM_map, List.mapM_map]
    simp only [bare_report]
    rfl
  show ((engine.hits query >>= fun hits =>
      hits.mapM (Hit.scored engine.options.ignoreFieldNorm) >>= fun scored =>
        (engine.listed limit scored).mapM (Hit.report engine.docs engine.options.includeMatches
          engine.options.includeScore)).map _ : Except SearchError _) = _
  cases engine.hits query with
  | error e => rfl
  | ok hits =>
    show Except.map _ (hits.mapM (Hit.scored engine.options.ignoreFieldNorm) >>= _)
      = (hits.map Hit.bare).mapM (Hit.scored engine.options.ignoreFieldNorm) >>= _
    rw [hscored]
    cases hits.mapM (Hit.scored engine.options.ignoreFieldNorm) with
    | error e => rfl
    | ok scored =>
      show Except.map _ ((engine.listed limit scored).mapM _)
        = (engine.listed limit (scored.map Hit.bare)).mapM _
      rw [← bare_listed horder, hreport]

/-! ### Searches -/

/-- A search that is not asked for matches reports none. -/
theorem search_eq_bare (h : engine.options.includeMatches = false) (query : Value) (limit : Int) :
    (engine.search query limit).map (List.map ReportedHit.bare) = engine.search query limit := by
  cases hsearch : engine.search query limit with
  | error e => rfl
  | ok results =>
    obtain ⟨hits, scored, -, -, hresults⟩ := search_eq_ok_iff.mp hsearch
    have hbare : ∀ result ∈ results, result.bare = result := by
      intro result hresult
      obtain ⟨hit, -, hreport⟩ := exists_of_mem_mapM hresults hresult
      unfold Hit.report at hreport
      rw [h] at hreport
      split at hreport
      · simp at hreport
      · obtain rfl := Except.ok.inj hreport
        rfl
    exact congrArg Except.ok ((List.map_congr_left hbare).trans results.map_id)

/-! ### Engines -/

/-- An engine as it is before it gets its collection. -/
def blank (options : EngineOptions α) (factories : List (MatcherFactory α))
    (store : WeightedKeys α) : Engine α :=
  ⟨options, factories, store, [], Index.empty options.extract options.normalize⟩

/-- An engine is built by giving a blank one its collection. -/
theorem build_eq (docs : Value) (options : EngineOptions α) (given : GivenIndex α)
    (factories : List (MatcherFactory α)) :
    Engine.build docs options given factories
      = if options.extended && !MatcherFactory.anyReadsTerms factories then
          .error .extendedUnavailable
        else (WeightedKeys.ofSpecs options.keys).bind fun store =>
          settled ((blank options factories store).replaceCollection docs given) := rfl

omit [Weighting α] in
theorem settled_withMatches (includeMatches : Bool) (outcome : Engine α × Option SearchError) :
    settled (outcome.1.withMatches includeMatches, outcome.2)
      = (settled outcome).map (·.withMatches includeMatches) := by
  obtain ⟨next, failure⟩ := outcome
  cases failure <;> rfl

theorem replaceCollection_withMatches (includeMatches : Bool) (docs : Value)
    (given : GivenIndex α) :
    (engine.withMatches includeMatches).replaceCollection docs given
      = ((engine.replaceCollection docs given).1.withMatches includeMatches,
          (engine.replaceCollection docs given).2) := by
  cases helements : docs.elements with
  | error e =>
    unfold replaceCollection
    rw [helements]
  | ok items =>
    have hindex : (engine.withMatches includeMatches).indexFor items given
        = engine.indexFor items given := by
      cases given <;> rfl
    rw [replaceCollection_of_elements helements, replaceCollection_of_elements helements, hindex]
    cases engine.indexFor items given <;> rfl

/-- A replacement touches nothing but the documents and the index. -/
theorem exists_replaceCollection_eq (engine : Engine α) (docs : Value) (given : GivenIndex α) :
    ∃ items index, (engine.replaceCollection docs given).1
      = { engine with docs := items, index := index } := by
  cases helements : docs.elements with
  | error e =>
    unfold replaceCollection
    rw [helements]
    exact ⟨engine.docs, engine.index, rfl⟩
  | ok items =>
    rw [replaceCollection_of_elements helements]
    cases engine.indexFor items given with
    | ok index => exact ⟨items, index, rfl⟩
    | error e => exact ⟨items, engine.index, rfl⟩

/-- The same engine is built when it is asked for matches. -/
theorem build_withMatches (docs : Value) (options : EngineOptions α) (given : GivenIndex α)
    (factories : List (MatcherFactory α)) (includeMatches : Bool) :
    Engine.build docs { options with includeMatches := includeMatches } given factories
      = (Engine.build docs options given factories).map (·.withMatches includeMatches) := by
  rw [build_eq, build_eq]
  split_ifs
  · rfl
  · cases (WeightedKeys.ofSpecs options.keys : Except SearchError (WeightedKeys α)) with
    | error e => rfl
    | ok store =>
      have hreplace := @replaceCollection_withMatches α _ (blank options factories store)
        includeMatches docs given
      exact (congrArg settled hreplace).trans (settled_withMatches includeMatches _)

theorem of_build {docs : Value} {options : EngineOptions α} {given : GivenIndex α}
    {factories : List (MatcherFactory α)}
    (h : Engine.build docs options given factories = .ok engine) :
    engine.options = options ∧ engine.factories = factories := by
  rw [build_eq] at h
  split_ifs at h
  obtain ⟨store, -, hreplace⟩ := bind_eq_ok_iff.mp h
  obtain ⟨items, index, heq⟩ :=
    exists_replaceCollection_eq (blank options factories store) docs given
  rw [settled_eq_ok_iff.mp hreplace] at heq
  obtain rfl := heq
  exact ⟨rfl, rfl⟩

/-- **Asking for matches never changes the answer.**  Whatever is searched for, and whatever the
collection, its index and the other options are, an engine that reports matches fails when one that
reports none does, and otherwise gives the same documents, in the same order and with the same
scores; provided that hits are not sorted in an order of the caller's own, which could look at the
spans. -/
theorem search_without_matches {docs : Value} {options : EngineOptions α} {given : GivenIndex α}
    {shown : Engine α} (horder : options.shouldSort = true → options.order = Hit.before)
    (hbuild : Engine.build docs { options with includeMatches := true } given
      MatcherFactory.standard = .ok shown) :
    ∃ plain, Engine.build docs { options with includeMatches := false } given
        MatcherFactory.standard = .ok plain ∧
      ∀ query limit, plain.search query limit
        = (shown.search query limit).map (List.map ReportedHit.bare) := by
  obtain ⟨hoptions, hfactories⟩ := of_build hbuild
  have hplain := build_withMatches docs { options with includeMatches := true } given
    MatcherFactory.standard false
  rw [hbuild] at hplain
  refine ⟨shown.withMatches false, hplain, ?_⟩
  intro query limit
  have hshown : shown.options.shouldSort = true → shown.options.order = Hit.before := by
    rw [hoptions]
    exact horder
  rw [← @search_eq_bare _ _ (shown.withMatches false) rfl, bare_search hshown,
    @bare_search _ _ (shown.withMatches false) hshown, bare_hits hfactories]
  rfl

/-- A letter is missing, and only runs of two letters count. -/
theorem search_without_matches_missing_letter :
    letI := roundedWeighting
    let options : EngineOptions Rat :=
      { MatchOptions.standard with
        minMatchLength := 2, keys := [], includeScore := true, shouldSort := true,
        order := Hit.before, extract := standardExtractor, normalize := none,
        ignoreFieldNorm := false }
    let docs : Value := .list [.text "kiwi", .text "plum"]
    ∃ shown plain results,
      Engine.build docs { options with includeMatches := true } .absent MatcherFactory.standard
          = .ok shown ∧
        Engine.build docs { options with includeMatches := false } .absent MatcherFactory.standard
          = .ok plain ∧
        shown.search (.text "plm") (-1) = .ok results ∧ results.map (·.position) = [1] ∧
        plain.search (.text "plm") (-1) = .ok (results.map ReportedHit.bare) := by
  let _ := roundedWeighting
  intro options docs
  have hpositions : (do
      let shown ← Engine.build docs { options with includeMatches := true } .absent
        MatcherFactory.standard
      let results ← shown.search (.text "plm") (-1)
      return results.map ReportedHit.position : Except SearchError (List Int)) = .ok [1] := by
    decide +kernel
  obtain ⟨shown, hbuild, hshown⟩ := bind_eq_ok_iff.mp hpositions
  obtain ⟨results, hsearch, hresults⟩ := bind_eq_ok_iff.mp hshown
  obtain ⟨plain, hplain, hsame⟩ := search_without_matches (fun _ => rfl) hbuild
  refine ⟨shown, plain, results, hbuild, hplain, hsearch, pure_eq_ok_iff.mp hresults, ?_⟩
  rw [hsame, hsearch]
  rfl

end Engine

end FuzzySearch
