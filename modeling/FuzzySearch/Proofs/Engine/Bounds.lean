import FuzzySearch.Proofs.Engine.Calls
import FuzzySearch.Proofs.Engine.Origin
import FuzzySearch.Proofs.Engine.Spans
import FuzzySearch.Proofs.Pattern.Bounds

/-!
# The bounds of reported spans

An index is `Documented` if its records are made of documents.  It remains so through all changes of
a collection (`Engine.Documented.after`), and then no text that matches is empty.

The spans that a search reports with a text lie inside the text in the form in which it is compared
(`Engine.spans_of_search`).  They lie inside the text itself if letter case counts, or if the text
has no dotted capital letter; any other text has, with some pattern, a span that ends behind it.
-/

namespace FuzzySearch

variable {α : Type} [Weighting α]

/-! ### Records made of documents -/

/-- Every record is made of some document. -/
def Index.Documented (index : Index α) : Prop :=
  ∀ record ∈ index.records, ∃ (maker : Index α) (doc : Value), maker.Makes doc (some record.body)

namespace Index

variable {index next : Index α}

theorem documented_of_ofSpecs {specs : List (KeySpec α)} {sources : Value} {extract : Extractor}
    {normalize : Option (String → String)}
    (h : ofSpecs specs sources extract normalize = .ok index) : index.Documented := by
  obtain ⟨-, -, hmakes⟩ := of_ofSpecs_eq_ok h
  intro record hrecord
  obtain ⟨doc, hdoc⟩ := hmakes record hrecord
  exact ⟨_, doc, hdoc⟩

theorem Documented.add (h : index.Documented) {doc : Value} {position : Int}
    (hadd : index.add doc position = .ok next) : next.Documented := by
  obtain ⟨added, rfl, hadded⟩ := of_add_eq_ok hadd
  intro record hrecord
  rcases List.mem_append.mp hrecord with hrecord | hrecord
  · exact h record hrecord
  · exact ⟨index, doc, (hadded record hrecord).2⟩

theorem Documented.removeAt (h : index.Documented) {position : Int}
    (hremove : index.removeAt position = .ok next) : next.Documented := by
  obtain ⟨kept, rfl, hkept⟩ := of_removeAt_eq_ok hremove
  intro record hrecord
  obtain ⟨before, hbefore, rfl⟩ := List.mem_map.mp hrecord
  obtain ⟨maker, doc, hmakes⟩ := h before (hkept before hbefore).1
  refine ⟨maker, doc, ?_⟩
  rwa [Record.shift, apply_ite Record.body, ite_self]

end Index

/-- What is given as an index is made of documents. -/
def GivenIndex.Documented : GivenIndex α → Prop
  | .index made => made.Documented
  | _ => True

/-- A replacement comes with an index that is made of documents, if with any. -/
def Call.Documented : Call α → Prop
  | .replace _ given => given.Documented
  | _ => True

namespace Engine

variable {engine first : Engine α} {options : EngineOptions α}

/-- An engine with some options and the standard factories, whose index is made of documents. -/
structure Documented (options : EngineOptions α) (engine : Engine α) : Prop where
  options_eq : engine.options = options
  factories_eq : engine.factories = MatcherFactory.standard
  index_documented : engine.index.Documented

theorem Documented.landed (h : Documented options engine) (docs : List Value)
    {made : Except SearchError (Index α)} (hmade : ∀ index, made = .ok index → index.Documented) :
    Documented options (engine.landed docs made).1 := by
  cases made with
  | error e => exact ⟨h.options_eq, h.factories_eq, h.index_documented⟩
  | ok index => exact ⟨h.options_eq, h.factories_eq, hmade index rfl⟩

theorem documented_of_indexFor {given : GivenIndex α} (hgiven : given.Documented)
    {items : List Value} {index : Index α} (h : engine.indexFor items given = .ok index) :
    index.Documented := by
  cases given with
  | absent => exact Index.documented_of_ofSpecs h
  | index other =>
    obtain rfl := Except.ok.inj h
    exact hgiven
  | other => cases h

/-- **A change of the collection keeps an index made of documents.** -/
theorem Documented.call (h : Documented options engine) {c : Call α} (hc : c.Documented) :
    Documented options (engine.call c).1 := by
  rcases engine.call_cases c with ⟨failure, hcall⟩ | ⟨doc, rfl, hcall⟩ |
    ⟨position, rfl, -, hcall⟩ | ⟨docs, given, items, rfl, -, hcall⟩
  all_goals rw [hcall]
  · exact h
  · exact h.landed _ fun index hadd => h.index_documented.add hadd
  · exact h.landed _ fun index hremove => h.index_documented.removeAt hremove
  · exact h.landed _ fun index hindex => documented_of_indexFor hc hindex

theorem Documented.after (h : Documented options engine) {calls : List (Call α)}
    (hcalls : ∀ c ∈ calls, c.Documented) : Documented options (engine.after calls) :=
  List.foldlRecOn calls _ h fun _ hbefore c hc => hbefore.call (hcalls c hc)

theorem documented_of_build {docs : Value} {given : GivenIndex α} (hgiven : given.Documented)
    (h : Engine.build docs options given MatcherFactory.standard = .ok engine) :
    Documented options engine := by
  rw [build_eq] at h
  split_ifs at h
  obtain ⟨store, -, hreplace⟩ := bind_eq_ok_iff.mp h
  have hblank : Documented options (blank options MatcherFactory.standard store) :=
    ⟨rfl, rfl, List.forall_mem_nil _⟩
  -- an engine is built by a replacement of no documents at all
  have hcall := hblank.call (show (Call.replace docs given).Documented from hgiven)
  rwa [call, settled_eq_ok_iff.mp hreplace] at hcall

/-! ### Spans of results -/

theorem Documented.matcherOf (h : Documented options engine) (pattern : String) :
    engine.matcherOf pattern
      = MatcherFactory.matcher MatcherFactory.standard pattern options.toMatchOptions := by
  rw [Engine.matcherOf, h.options_eq, h.factories_eq]

/-- A text that is reported is not empty, and its spans are those of the matcher of a pattern. -/
theorem Documented.of_reported (h : Documented options engine) {query : Value} {limit : Int}
    {results : List (ReportedHit α)} (hsearch : engine.search query limit = .ok results)
    {result : ReportedHit α} (hresult : result ∈ results) {reports : List ReportedMatch}
    (hreports : result.found = some reports) :
    options.includeMatches = true ∧ ∀ reported ∈ reports, reported.text ≠ "" ∧
      ∃ pattern, reported.spans = ((MatcherFactory.matcher MatcherFactory.standard pattern
        options.toMatchOptions).compareText reported.text).spans := by
  obtain ⟨hinclude, record, hrecord, -, hfinds⟩ := finds_of_search hsearch hresult hreports
  rw [h.options_eq] at hinclude
  refine ⟨hinclude, fun reported hreported => ?_⟩
  obtain ⟨pattern, found, hfound, hshown⟩ := hfinds reported hreported
  obtain ⟨maker, doc, hmakes⟩ := h.index_documented record hrecord
  obtain ⟨⟨leaf, hindexable⟩, -, -, hspans⟩ := hfound.of_holds hmakes.holds
  obtain ⟨hreportedSpans, htext, -⟩ := of_reported? hshown
  rw [htext, hreportedSpans, hspans, h.matcherOf]
  exact ⟨Index.ne_empty_of_indexable? hindexable, pattern, rfl⟩

/-- **Reported spans lie inside the text in the form in which it is compared.**  They lie inside the
reported text if letter case counts, or if the text has no dotted capital letter.  Otherwise some
pattern matches the text with a span that does not. -/
theorem spans_of_search {docs : Value} {given : GivenIndex α} (hgiven : given.Documented)
    (hbuild : Engine.build docs options given MatcherFactory.standard = .ok first)
    {calls : List (Call α)} (hcalls : ∀ c ∈ calls, c.Documented) {query : Value} {limit : Int}
    {results : List (ReportedHit α)}
    (hsearch : (first.after calls).search query limit = .ok results)
    {result : ReportedHit α} (hresult : result ∈ results) {reports : List ReportedMatch}
    (hreports : result.found = some reports) {reported : ReportedMatch}
    (hreported : reported ∈ reports) :
    (∀ s ∈ reported.spans,
        s.Inside (Text.fold options.caseSensitive reported.text.toList).length) ∧
      (options.caseSensitive = true ∨ '\u0130' ∉ reported.text.toList →
        ∀ s ∈ reported.spans, s.Inside reported.text.length) ∧
      (options.caseSensitive = false ∧ '\u0130' ∈ reported.text.toList →
        ∃ pattern, let result := ((first.after calls).matcherOf pattern).compareText reported.text
          result.isMatch = true ∧ ∃ s ∈ result.spans, ¬s.Inside reported.text.length) := by
  have hdocumented := (documented_of_build hgiven hbuild).after hcalls
  obtain ⟨hinclude, hfound⟩ := hdocumented.of_reported hsearch hresult hreports
  obtain ⟨htext, found, hspans⟩ := hfound reported hreported
  simp only [hdocumented.matcherOf]
  have hlength := mt String.length_eq_zero_iff.mp htext
  have hsize : (Text.fold options.caseSensitive reported.text.toList).length ≠ 0 := by
    rw [Text.length_fold, String.length_toList]
    omega
  have hinside : ∀ s ∈ reported.spans,
      s.Inside (Text.fold options.caseSensitive reported.text.toList).length := by
    intro s hs
    rw [hspans] at hs
    exact (MatcherFactory.fits_of_mem_spans hs).inside hsize
  refine ⟨hinside, fun hplain => ?_, fun hdotted => ?_⟩
  · rwa [(Text.length_fold_eq_iff options.caseSensitive reported.text.toList).mpr hplain,
      String.length_toList] at hinside
  · -- by contraposition: were all spans of all patterns inside, the text would have no such letter
    by_contra hall
    have hplain := (MatcherFactory.inside_of_every_pattern_iff hinclude htext).mp
      fun pattern hmatch s hs => by_contra fun hs' => hall ⟨pattern, hmatch, s, hs, hs'⟩
    rcases hplain with hcase | hnone
    · exact Bool.noConfusion (hdotted.1.symm.trans hcase)
    · exact hnone hdotted.2

omit [Weighting α] in
/-- A fruit is found when another one is gone. -/
theorem spans_of_search_after_removal :
    letI := roundedWeighting
    let options : EngineOptions Rat :=
      { MatchOptions.standard with
        includeMatches := true, keys := [], includeScore := false, shouldSort := true,
        order := Hit.before, extract := standardExtractor, normalize := none,
        ignoreFieldNorm := false }
    let calls : List (Call Rat) := [.removeAt 0]
    ∃ first results result reported,
      Engine.build (.list [.text "fig", .text "kiwi"]) options .absent MatcherFactory.standard
          = .ok first ∧
        (first.after calls).search (.text "kiwi") (-1) = .ok results ∧ result ∈ results ∧
        result.found = some [reported] ∧ reported.text = "kiwi" ∧
        ∀ s ∈ reported.spans, s.Inside "kiwi".length := by
  let _ := roundedWeighting
  intro options calls
  have htexts : (do
      let first ← Engine.build (.list [.text "fig", .text "kiwi"]) options .absent
        MatcherFactory.standard
      let results ← (first.after calls).search (.text "kiwi") (-1)
      return results.map fun result => result.found.map (List.map (·.text)) :
        Except SearchError (List (Option (List String)))) = .ok [some ["kiwi"]] := by
    decide +kernel
  obtain ⟨first, hbuild, htexts⟩ := bind_eq_ok_iff.mp htexts
  obtain ⟨results, hsearch, htexts⟩ := bind_eq_ok_iff.mp htexts
  obtain ⟨result, rfl, hfound⟩ := List.map_eq_singleton_iff.mp (pure_eq_ok_iff.mp htexts)
  obtain ⟨reports, hreports, hfound⟩ := Option.map_eq_some_iff.mp hfound
  obtain ⟨reported, rfl, htext⟩ := List.map_eq_singleton_iff.mp hfound
  have hresult := List.mem_singleton_self result
  have hcalls : ∀ c ∈ calls, c.Documented := List.forall_mem_singleton.mpr trivial
  obtain ⟨-, hinside, -⟩ := @spans_of_search _ _ _ options _ .absent trivial hbuild calls hcalls _ _ _
    hsearch _ hresult _ hreports _ (List.mem_singleton_self reported)
  rw [htext] at hinside
  exact ⟨first, _, result, reported, hbuild, hsearch, hresult, hreports, htext,
    hinside (Or.inr (by decide))⟩

omit [Weighting α] in
/-- A text of one letter is reported with two positions. -/
theorem span_behind_dotted_letter :
    letI := roundedWeighting
    let options : EngineOptions Rat :=
      { MatchOptions.standard with
        includeMatches := true, keys := [], includeScore := false, shouldSort := true,
        order := Hit.before, extract := standardExtractor, normalize := none,
        ignoreFieldNorm := false }
    ∃ first results result reported,
      Engine.build (.list [.text "\u0130"]) options .absent MatcherFactory.standard = .ok first ∧
        first.search (.text "\u0130") (-1) = .ok results ∧ result ∈ results ∧
        result.found = some [reported] ∧ reported.text = "\u0130" ∧ reported.spans = [⟨0, 1⟩] ∧
        ¬(⟨0, 1⟩ : Span).Inside reported.text.length := by
  let _ := roundedWeighting
  intro options
  have hshown : (do
      let first ← Engine.build (.list [.text "\u0130"]) options .absent MatcherFactory.standard
      let results ← first.search (.text "\u0130") (-1)
      return results.map fun result => result.found.map (List.map fun m => (m.text, m.spans)) :
        Except SearchError (List (Option (List (String × List Span)))))
          = .ok [some [("\u0130", [⟨0, 1⟩])]] := by
    decide +kernel
  obtain ⟨first, hbuild, hshown⟩ := bind_eq_ok_iff.mp hshown
  obtain ⟨results, hsearch, hshown⟩ := bind_eq_ok_iff.mp hshown
  obtain ⟨result, rfl, hfound⟩ := List.map_eq_singleton_iff.mp (pure_eq_ok_iff.mp hshown)
  obtain ⟨reports, hreports, hfound⟩ := Option.map_eq_some_iff.mp hfound
  obtain ⟨reported, rfl, hreported⟩ := List.map_eq_singleton_iff.mp hfound
  obtain ⟨htext, hspans⟩ := Prod.mk.inj hreported
  refine ⟨first, _, result, reported, hbuild, hsearch, List.mem_singleton_self result, hreports,
    htext, hspans, ?_⟩
  rw [htext]
  decide

end Engine

end FuzzySearch
