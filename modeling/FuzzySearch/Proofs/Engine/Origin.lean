import FuzzySearch.Proofs.Engine.Matches
import FuzzySearch.Proofs.Engine.Results
import FuzzySearch.Proofs.Index.Upkeep

/-!
# Where matches come from

Every match of a search is one of the matcher of some pattern in a text of a record
(`Matcher.Finds`): the pattern is the query, or stands in a leaf of it, and the text is that of the
record or of one of its entries.  `finds_of_hits` says so of the hits, and `finds_of_search` of the
results, which report the spans, the text and the number of such a match.  If the record is made of
a document, the text is one that was indexed, and has its norm (`Matcher.Finds.of_holds`).
-/

namespace FuzzySearch

variable {α : Type}

/-- A match that a matcher has in a record. -/
inductive Matcher.Finds [ScoreNumber α] (matcher : Matcher α) : RecordBody α → TextMatch α → Prop
  | text {v : Value} {norm : α} {result : Comparison α} :
      matcher.compareValue v = .ok result → result.isMatch = true →
      Finds matcher (.text v norm) ⟨result.score, v.plain, norm, result.spans, none, none⟩
  | entry {fields : List (Int × IndexedField α)} {number : Int} {field : IndexedField α}
      {indexed : IndexedText α} {key : Option (Key α)} :
      Index.entry? fields number = some field → indexed ∈ field.texts →
      (matcher.compareText indexed.text).isMatch = true →
      Finds matcher (.fields fields)
        ⟨(matcher.compareText indexed.text).score, indexed.text, indexed.norm,
          (matcher.compareText indexed.text).spans, key, indexed.nested⟩

/-- **In a body that holds texts of some values, a match is one in such a text.** -/
theorem Matcher.Finds.of_holds [Weighting α] {matcher : Matcher α} {index : Index α}
    {body : RecordBody α} {found : TextMatch α} (h : matcher.Finds body found)
    (hbody : index.Holds body) :
    (∃ leaf, index.indexable? leaf = some found.text) ∧ found.norm = textNorm found.text ∧
      found.score = (matcher.compareText found.text).score ∧
      found.spans = (matcher.compareText found.text).spans := by
  cases h with
  | text hresult hmatch =>
    obtain ⟨leaf, text, hindexable, rfl, rfl⟩ := hbody
    rw [Engine.compareValue_text] at hresult
    obtain rfl := Except.ok.inj hresult
    exact ⟨⟨leaf, hindexable⟩, rfl, rfl, rfl⟩
  | entry hfield hindexed hmatch =>
    obtain ⟨numbered, hnumbered, rfl⟩ := Option.map_eq_some_iff.mp hfield
    obtain ⟨leaf, text, nested, hindexable, rfl⟩ :=
      hbody numbered (List.mem_of_find?_eq_some hnumbered) _ hindexed
    exact ⟨⟨leaf, hindexable⟩, rfl, rfl, rfl⟩

namespace Engine

/-! ### Hits -/

section

variable [ScoreNumber α]

theorem finds_of_mem_entryMatches {key : Option (Key α)} {fields : List (Int × IndexedField α)}
    {number : Int} {matcher : Matcher α} {found : TextMatch α}
    (h : found ∈ entryMatches key (Index.entry? fields number) (some matcher)) :
    matcher.Finds (.fields fields) found := by
  obtain ⟨field, hfield, _, ⟨⟩, indexed, hindexed, hmatch, rfl⟩ := mem_entryMatches_iff.mp h
  exact .entry hfield hindexed hmatch

theorem found_of_hit? {position : Int} {found : List (TextMatch α)} {hit : Hit α}
    (h : hit? position found = some hit) : hit.found = found := by
  unfold hit? at h
  split_ifs at h
  rw [← Option.some.inj h]

end

variable [Weighting α] {engine : Engine α}

theorem finds_of_textHit? {matcher : Matcher α} {record : Record α} {hit : Hit α}
    (h : textHit? matcher record = .ok (some hit)) :
    ∀ found ∈ hit.found, matcher.Finds record.body found := by
  unfold textHit? at h
  split at h
  · simp at h
  · simp at h
  · rename_i v norm _ hbody
    obtain ⟨result, hresult, h⟩ := bind_eq_ok_iff.mp h
    split_ifs at h with hmatch
    · rw [found_of_hit? (pure_eq_ok_iff.mp h), hbody]
      exact List.forall_mem_singleton.mpr (.text hresult hmatch)
    · simp [pure_eq_ok_iff] at h

theorem finds_of_fieldMatches {matcher : Matcher α} {body : RecordBody α} :
    ∀ found ∈ engine.fieldMatches matcher body, matcher.Finds body found := by
  intro found hfound
  cases body with
  | text v norm => exact absurd hfound List.not_mem_nil
  | fields fields =>
    obtain ⟨⟨key, number⟩, -, hkey⟩ := List.mem_flatMap.mp hfound
    exact finds_of_mem_entryMatches hkey

theorem finds_of_logicalMatches {matcher : String → Matcher α} (expression : Expression α)
    {body : RecordBody α} :
    ∀ found ∈ engine.logicalMatches (expression.rematch fun pattern => some (matcher pattern)) body,
      ∃ pattern, (matcher pattern).Finds body found := by
  cases body with
  | text v norm => exact List.forall_mem_nil _
  | fields fields =>
    refine Expression.forall_mem_evaluate (fun leaf found hfound => ?_) expression
    obtain ⟨field, hfield, _, ⟨⟩, indexed, hindexed, hmatch, rfl⟩ := mem_entryMatches_iff.mp hfound
    obtain ⟨number, -, hnumber⟩ := Option.bind_eq_some_iff.mp hfield
    exact ⟨leaf.pattern, .entry hnumber hindexed hmatch⟩

/-- **The matches of a hit are found in the texts of its record.** -/
theorem finds_of_hits {query : Value} {hits : List (Hit α)} (h : engine.hits query = .ok hits) :
    ∀ hit ∈ hits, ∃ record ∈ engine.index.records, hit.position = record.position ∧
      ∀ found ∈ hit.found, ∃ pattern, (engine.matcherOf pattern).Finds record.body found := by
  have hfinds : ∀ matches? : RecordBody α → List (TextMatch α),
      (∀ body, ∀ found ∈ matches? body,
          ∃ pattern, (engine.matcherOf pattern).Finds body found) →
        ∀ hit ∈ engine.hitsOf matches?, ∃ record ∈ engine.index.records,
          hit.position = record.position ∧
            ∀ found ∈ hit.found, ∃ pattern, (engine.matcherOf pattern).Finds record.body found := by
    intro matches? hmatches hit hhit
    obtain ⟨record, hrecord, -, rfl⟩ := mem_hitsOf_iff.mp hhit
    exact ⟨record, hrecord, rfl, hmatches record.body⟩
  unfold Engine.hits at h
  split at h
  · rename_i pattern
    split_ifs at h
    · obtain ⟨outcomes, hall, rfl⟩ := textHits_eq_ok_iff.mp h
      intro hit hhit
      obtain ⟨outcome, houtcome, rfl⟩ := List.mem_filterMap.mp hhit
      obtain ⟨record, hrecord, hfound⟩ := exists_of_mem_forall₂ hall houtcome
      exact ⟨record, hrecord, position_of_textHit? hfound,
        fun found hmem => ⟨pattern, finds_of_textHit? hfound found hmem⟩⟩
    · rw [fieldHits_eq] at h
      obtain rfl := Except.ok.inj h
      exact hfinds _ fun body found hfound => ⟨pattern, finds_of_fieldMatches found hfound⟩
  · rw [logicalHits_eq, map_eq_ok_iff] at h
    obtain ⟨expression, -, rfl⟩ := h
    exact hfinds _ fun body => finds_of_logicalMatches expression

/-! ### Results -/

theorem found_of_scored {ignoreNorm : Bool} {hit scored : Hit α}
    (h : hit.scored ignoreNorm = .ok scored) : scored.found = hit.found := by
  obtain ⟨score, -, hscored⟩ := bind_eq_ok_iff.mp h
  rw [← pure_eq_ok_iff.mp hscored]

omit [Weighting α] in
theorem found_of_report {docs : List Value} {includeMatches includeScore : Bool} {hit : Hit α}
    {result : ReportedHit α} (h : hit.report docs includeMatches includeScore = .ok result) :
    result.found
      = if includeMatches then some (hit.found.filterMap TextMatch.reported?) else none := by
  unfold Hit.report at h
  split at h
  · simp at h
  · obtain rfl := Except.ok.inj h
    rfl

omit [Weighting α] in
/-- A match is reported with its spans, of which it has some, with its text and with its number. -/
theorem of_reported? {found : TextMatch α} {reported : ReportedMatch}
    (h : found.reported? = some reported) :
    reported.spans = found.spans ∧ reported.text = found.text ∧
      reported.nested = found.nested.filter (-1 < ·) := by
  unfold TextMatch.reported? at h
  split_ifs at h
  obtain rfl := Option.some.inj h
  exact ⟨rfl, rfl, rfl⟩

/-- **The matches of a result are found in the texts of the record at its position**, and are
reported only if they are asked for. -/
theorem finds_of_search {query : Value} {limit : Int} {results : List (ReportedHit α)}
    (h : engine.search query limit = .ok results) {result : ReportedHit α}
    (hresult : result ∈ results) {reports : List ReportedMatch}
    (hreports : result.found = some reports) :
    engine.options.includeMatches = true ∧
      ∃ record ∈ engine.index.records, result.position = record.position ∧
        ∀ reported ∈ reports, ∃ pattern found,
          (engine.matcherOf pattern).Finds record.body found ∧
            found.reported? = some reported := by
  obtain ⟨hits, scored, hhits, hscored, hlisted⟩ := search_eq_ok_iff.mp h
  obtain ⟨hit, hhit, hreport⟩ := exists_of_mem_mapM hlisted hresult
  have hmem := (engine.listed_perm scored).subset ((engine.listed_sublist limit scored).subset hhit)
  obtain ⟨before, hbefore, hscore⟩ := exists_of_mem_mapM hscored hmem
  obtain ⟨record, hrecord, hposition, hfinds⟩ := finds_of_hits hhits before hbefore
  rw [found_of_report hreport, Option.ite_none_right_eq_some] at hreports
  obtain ⟨hinclude, hreports⟩ := hreports
  obtain rfl := Option.some.inj hreports
  refine ⟨hinclude, record, hrecord, ?_, fun reported hreported => ?_⟩
  · rw [(of_report_eq_ok hreport).1, position_of_scored hscore, hposition]
  · obtain ⟨found, hfound, hshown⟩ := List.mem_filterMap.mp hreported
    rw [found_of_scored hscore] at hfound
    obtain ⟨pattern, hpattern⟩ := hfinds found hfound
    exact ⟨pattern, found, hpattern, hshown⟩

end Engine

end FuzzySearch
