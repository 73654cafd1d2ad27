import FuzzySearch.Engine.Search
import FuzzySearch.Proofs.Calls

/-!
# The positions of results

A search turns records into hits, hits into scored hits, and those, sorted and cut off, into
results.  None of these steps changes a position: `positions_hits` and `positions_search` say that
the results stand for some of the records, each at most once, `perm_of_search` that without a limit
no hit is left out, and `item_search` that each result shows the document at its position.  Only
scoring can fail when the hits lie in the collection (`exists_search_of_scored`).
-/

namespace FuzzySearch

namespace Engine

variable {α : Type}

/-! ### The hits of a query -/

section

variable [ScoreNumber α]

theorem position_of_hit? {position : Int} {found : List (TextMatch α)} {hit : Hit α}
    (h : hit? position found = some hit) : hit.position = position := by
  unfold hit? at h
  split_ifs at h
  rw [← Option.some.inj h]

end

/-- The hits that stand for some records carry their positions, in order. -/
theorem sublist_of_forall₂ {records : List (Record α)} {found : List (Option (Hit α))}
    (h : List.Forall₂ (fun record hit => ∀ x, hit = some x → x.position = record.position) records
      found) :
    ((found.filterMap id).map (·.position)).Sublist (records.map (·.position)) := by
  induction h with
  | nil => exact List.Sublist.refl _
  | @cons record hit records found hposition _ ih =>
    cases hit with
    | none => exact ih.cons _
    | some x =>
      show (x.position :: (found.filterMap id).map (·.position)).Sublist _
      rw [hposition x rfl]
      exact ih.cons_cons _

theorem sublist_filterMap {records : List (Record α)} {f : Record α → Option (Hit α)}
    (hf : ∀ record hit, f record = some hit → hit.position = record.position) :
    ((records.filterMap f).map (·.position)).Sublist (records.map (·.position)) := by
  have h := @sublist_of_forall₂ α records (records.map f)
    (List.forall₂_map_right_iff.mpr (List.forall₂_same.mpr fun record _ => hf record))
  rwa [List.filterMap_map] at h

variable [Weighting α]

theorem position_of_textHit? {matcher : Matcher α} {record : Record α} {hit : Hit α}
    (h : textHit? matcher record = .ok (some hit)) : hit.position = record.position := by
  unfold textHit? at h
  split at h
  · simp at h
  · simp at h
  · obtain ⟨result, -, hresult⟩ := bind_eq_ok_iff.mp h
    split_ifs at hresult
    · exact position_of_hit? (pure_eq_ok_iff.mp hresult)
    · simp [pure_eq_ok_iff] at hresult

theorem position_of_fieldsHit? {engine : Engine α} {matcher : Matcher α} {record : Record α}
    {hit : Hit α} (h : engine.fieldsHit? matcher record = some hit) :
    hit.position = record.position := by
  unfold fieldsHit? at h
  split at h
  · simp at h
  · exact position_of_hit? h

theorem position_of_logicalHit? {engine : Engine α} {expression : Expression α}
    {record : Record α} {hit : Hit α} (h : engine.logicalHit? expression record = some hit) :
    hit.position = record.position := by
  unfold logicalHit? at h
  split at h
  · simp at h
  · exact position_of_hit? h

theorem textHits_eq_ok_iff {engine : Engine α} {pattern : String} {hits : List (Hit α)} :
    engine.textHits pattern = .ok hits ↔
      ∃ found, List.Forall₂ (fun record hit => textHit?
          (MatcherFactory.matcher engine.factories pattern engine.options.toMatchOptions) record
            = .ok hit) engine.index.records found ∧
        hits = found.filterMap id := by
  simp only [textHits, bind_eq_ok_iff, pure_eq_ok_iff, mapM_eq_ok_iff, @eq_comm _ hits]

/-- **Hits stand for some of the records, in order.** -/
theorem positions_hits {engine : Engine α} {query : Value} {hits : List (Hit α)}
    (h : engine.hits query = .ok hits) :
    (hits.map (·.position)).Sublist (engine.index.records.map (·.position)) := by
  unfold Engine.hits at h
  split at h
  · split_ifs at h
    · obtain ⟨found, hfound, rfl⟩ := textHits_eq_ok_iff.mp h
      refine sublist_of_forall₂ (hfound.imp fun record hit hhit x hx => ?_)
      exact position_of_textHit? (hhit.trans (congrArg Except.ok hx))
    · obtain rfl := Except.ok.inj h
      exact sublist_filterMap fun record hit => position_of_fieldsHit?
  · obtain ⟨expression, -, hhits⟩ := bind_eq_ok_iff.mp h
    obtain rfl := pure_eq_ok_iff.mp hhits
    exact sublist_filterMap fun record hit => position_of_logicalHit?

/-! ### Scored, listed and reported hits -/

/-- Scored hits in the order and up to the limit of a search. -/
def listed (engine : Engine α) (limit : Int) (hits : List (Hit α)) : List (Hit α) :=
  let hits := if engine.options.shouldSort then Hit.sorted engine.options.order hits else hits
  if -1 < limit then hits.take limit.toNat else hits

/-- The steps of a search. -/
theorem search_eq_ok_iff {engine : Engine α} {query : Value} {limit : Int}
    {results : List (ReportedHit α)} :
    engine.search query limit = .ok results ↔
      ∃ hits scored, engine.hits query = .ok hits ∧
        hits.mapM (Hit.scored engine.options.ignoreFieldNorm) = .ok scored ∧
        (engine.listed limit scored).mapM (Hit.report engine.docs engine.options.includeMatches
          engine.options.includeScore) = .ok results := by
  simp only [search, listed, bind_eq_ok_iff]
  constructor
  · rintro ⟨hits, hhits, scored, hscored, hresults⟩
    exact ⟨hits, scored, hhits, hscored, hresults⟩
  · rintro ⟨hits, scored, hhits, hscored, hresults⟩
    exact ⟨hits, hhits, scored, hscored, hresults⟩

omit [Weighting α] in
/-- Without a limit all hits are listed. -/
theorem listed_perm (engine : Engine α) (hits : List (Hit α)) :
    (engine.listed (-1) hits).Perm hits := by
  simp only [listed, Int.lt_irrefl, if_false]
  split_ifs
  · exact List.mergeSort_perm _ _
  · exact List.Perm.refl _

omit [Weighting α] in
/-- A limit only cuts off the end of the list. -/
theorem listed_sublist (engine : Engine α) (limit : Int) (hits : List (Hit α)) :
    (engine.listed limit hits).Sublist (engine.listed (-1) hits) := by
  simp only [listed, Int.lt_irrefl, if_false]
  split_ifs <;> first | exact List.take_sublist _ _ | exact List.Sublist.refl _

theorem position_of_scored {ignoreNorm : Bool} {hit scored : Hit α}
    (h : hit.scored ignoreNorm = .ok scored) : scored.position = hit.position := by
  obtain ⟨score, -, hscored⟩ := bind_eq_ok_iff.mp h
  rw [← pure_eq_ok_iff.mp hscored]

omit [Weighting α] in
theorem of_report_eq_ok {docs : List Value} {includeMatches includeScore : Bool} {hit : Hit α}
    {result : ReportedHit α} (h : hit.report docs includeMatches includeScore = .ok result) :
    result.position = hit.position ∧ document? docs hit.position = some result.item := by
  unfold Hit.report at h
  split at h
  · simp at h
  · rename_i item hitem
    obtain rfl := Except.ok.inj h
    exact ⟨rfl, hitem⟩

/-- **Results stand for some of the hits**, each at most once. -/
theorem positions_search {engine : Engine α} {query : Value} {limit : Int}
    {results : List (ReportedHit α)} (h : engine.search query limit = .ok results) :
    ∃ hits, engine.hits query = .ok hits ∧
      ∃ positions, positions.Perm (hits.map (·.position)) ∧
        (results.map (·.position)).Sublist positions := by
  obtain ⟨hits, scored, hhits, hscored, hresults⟩ := search_eq_ok_iff.mp h
  have hreported := map_eq_of_mapM (fun _ _ hreport => (of_report_eq_ok hreport).1) hresults
  have hkept := map_eq_of_mapM (fun _ _ hscore => position_of_scored hscore) hscored
  -- the list without a limit is a permutation of the hits, and the limit cuts off its end
  refine ⟨hits, hhits, (engine.listed (-1) scored).map (·.position), ?_, ?_⟩
  · rw [← hkept]
    exact (engine.listed_perm scored).map _
  · rw [hreported]
    exact (engine.listed_sublist limit scored).map _

/-- **Without a limit results stand for all hits.** -/
theorem perm_of_search {engine : Engine α} {query : Value} {results : List (ReportedHit α)}
    {hits : List (Hit α)} (h : engine.search query (-1) = .ok results)
    (hhits : engine.hits query = .ok hits) :
    (results.map (·.position)).Perm (hits.map (·.position)) := by
  obtain ⟨found, scored, hfound, hscored, hresults⟩ := search_eq_ok_iff.mp h
  obtain rfl := Except.ok.inj (hhits.symm.trans hfound)
  rw [map_eq_of_mapM (fun _ _ hreport => (of_report_eq_ok hreport).1) hresults,
    ← map_eq_of_mapM (fun _ _ hscore => position_of_scored hscore) hscored]
  exact (engine.listed_perm scored).map _

/-- Without a limit there are as many results as hits. -/
theorem length_of_search {engine : Engine α} {query : Value} {results : List (ReportedHit α)}
    {hits : List (Hit α)} (h : engine.search query (-1) = .ok results)
    (hhits : engine.hits query = .ok hits) : results.length = hits.length := by
  simpa only [List.length_map] using (perm_of_search h hhits).length_eq

/-- **Each result shows the document at its position.** -/
theorem item_search {engine : Engine α} {query : Value} {limit : Int}
    {results : List (ReportedHit α)} (h : engine.search query limit = .ok results)
    {result : ReportedHit α} (hresult : result ∈ results) :
    document? engine.docs result.position = some result.item := by
  obtain ⟨hits, scored, -, -, hresults⟩ := search_eq_ok_iff.mp h
  obtain ⟨hit, -, hreport⟩ := exists_of_mem_mapM hresults hresult
  obtain ⟨hposition, hitem⟩ := of_report_eq_ok hreport
  rw [hposition, hitem]

omit [Weighting α] in
/-- A hit in the collection can be reported. -/
theorem exists_report {docs : List Value} (includeMatches includeScore : Bool) {hit : Hit α}
    (hnonneg : 0 ≤ hit.position) (hlt : hit.position < docs.length) :
    ∃ result, hit.report docs includeMatches includeScore = .ok result := by
  have hitem : document? docs hit.position = some (docs.get ⟨hit.position.toNat, by omega⟩) := by
    rw [document?, if_pos hnonneg]
    exact List.getElem?_eq_getElem _
  rw [Hit.report, hitem]
  exact ⟨_, rfl⟩

/-- **A search succeeds when its hits are found and scored**, as long as they lie in the
collection. -/
theorem exists_search_of_scored {engine : Engine α} {query : Value} {hits scored : List (Hit α)}
    (hhits : engine.hits query = .ok hits)
    (hscored : hits.mapM (Hit.scored engine.options.ignoreFieldNorm) = .ok scored)
    (hpositions : ∀ hit ∈ hits, 0 ≤ hit.position ∧ hit.position < engine.docs.length)
    (limit : Int) : ∃ results, engine.search query limit = .ok results := by
  obtain ⟨results, hresults⟩ := @exists_mapM_eq_ok _ _ _ (Hit.report engine.docs
      engine.options.includeMatches engine.options.includeScore) (engine.listed limit scored) (by
    intro hit hhit
    -- what is listed comes from a hit, and scoring keeps its position
    have hmem := (engine.listed_perm scored).subset
      ((engine.listed_sublist limit scored).subset hhit)
    obtain ⟨before, hbefore, hscore⟩ := exists_of_mem_mapM hscored hmem
    have hposition := hpositions before hbefore
    rw [← position_of_scored hscore] at hposition
    exact exists_report _ _ hposition.1 hposition.2)
  exact ⟨results, search_eq_ok_iff.mpr ⟨hits, scored, hhits, hscored, hresults⟩⟩

end Engine

end FuzzySearch
