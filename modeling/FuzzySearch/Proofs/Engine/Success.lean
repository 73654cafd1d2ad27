import FuzzySearch.Proofs.Engine.Maintenance
import FuzzySearch.Proofs.Engine.Origin
import FuzzySearch.Proofs.Pattern.Threshold

/-!
# Searches that succeed

Scores are weighted by powers, and a power need not exist.  In exact arithmetic (`ExactWeighting`)
it does exist when the base is positive, and when neither number is negative.  Neither scores nor
norms are negative (`Index.Makes.proper`, `proper_of_hits`), so a search whose hits were found also
scores, sorts and reports them (`exists_search_eq_ok`).
-/

namespace FuzzySearch

open ScoreNumber

/-! ### Exact arithmetic -/

/-- A power and a norm of field lengths for exact fractions. -/
class ExactWeighting where
  /-- A power, unless it does not exist. -/
  power : Rat → Rat → Except SearchError Rat
  /-- The norm of a field of so many words. -/
  lengthNorm : Nat → Rat
  exists_power : ∀ {base exponent : Rat}, 0 < base ∨ 0 ≤ base ∧ 0 ≤ exponent →
    ∃ x, power base exponent = .ok x
  lengthNorm_nonneg : ∀ count, 0 ≤ lengthNorm count

instance [ExactWeighting] : Weighting Rat where
  power := ExactWeighting.power
  lengthNorm := ExactWeighting.lengthNorm

theorem perfectScore_pos : 0 < (TextMatch.perfectScore : Rat) := by
  rw [TextMatch.perfectScore, ratio_rat]
  exact div_pos (by norm_num) (Int.cast_pos.mpr (by decide))

/-! ### Scores -/

/-- A match without negative numbers. -/
structure TextMatch.Proper (found : TextMatch Rat) : Prop where
  score_nonneg : 0 ≤ found.score
  norm_nonneg : 0 ≤ found.norm

section

variable [ExactWeighting]

/-- A match has a factor: only positive numbers are raised to an arbitrary power. -/
theorem TextMatch.Proper.exists_factor {found : TextMatch Rat} (h : found.Proper)
    (ignoreNorm : Bool) : ∃ x, found.factor ignoreNorm = .ok x := by
  unfold factor
  simp only
  cases found.weight? with
  | some weight =>
    -- a perfect score of a weighted key is replaced by a positive one
    refine ExactWeighting.exists_power (Or.inl ?_)
    split_ifs with hzero
    · exact perfectScore_pos
    · exact lt_of_le_of_ne h.score_nonneg fun heq => hzero ((isZero_rat_iff _).mpr heq.symm)
  | none =>
    -- without a weight the base can be zero, but then the exponent is not negative
    refine ExactWeighting.exists_power (Or.inr ⟨h.score_nonneg, ?_⟩)
    rw [one_rat]
    split_ifs
    · norm_num
    · exact mul_nonneg zero_le_one h.norm_nonneg

theorem Hit.exists_product (ignoreNorm : Bool) {found : List (TextMatch Rat)}
    (h : ∀ x ∈ found, x.Proper) (start : Rat) :
    ∃ score, product ignoreNorm start found = .ok score := by
  induction found generalizing start with
  | nil => exact ⟨start, rfl⟩
  | cons first rest ih =>
    obtain ⟨x, hx⟩ := (h first List.mem_cons_self).exists_factor ignoreNorm
    obtain ⟨score, hscore⟩ := ih (fun y hy => h y (List.mem_cons_of_mem first hy)) (start * x)
    exact ⟨score, bind_eq_ok_iff.mpr ⟨x, hx, hscore⟩⟩

/-- A hit of proper matches has a score. -/
theorem Hit.exists_scored (ignoreNorm : Bool) {hit : Hit Rat} (h : ∀ x ∈ hit.found, x.Proper) :
    ∃ scored, hit.scored ignoreNorm = .ok scored := by
  obtain ⟨score, hscore⟩ := exists_product ignoreNorm h one
  exact ⟨{ hit with score := score }, bind_eq_ok_iff.mpr ⟨score, hscore, rfl⟩⟩

end

/-! ### Records -/

/-- An entry without negative norms. -/
def IndexedField.Proper (entry : IndexedField Rat) : Prop :=
  ∀ indexed ∈ entry.texts, 0 ≤ indexed.norm

/-- A body that is a text or has fields, without negative norms. -/
def RecordBody.Proper : RecordBody Rat → Prop
  | .text v norm => (∃ s, v = .text s) ∧ 0 ≤ norm
  | .fields entries => ∀ entry ∈ entries, entry.2.Proper

theorem RecordBody.Proper.readable {body : RecordBody Rat} (h : body.Proper) : body.Readable := by
  cases body with
  | text v norm => exact h.1
  | fields entries => trivial

section

variable [ExactWeighting]

theorem textNorm_nonneg (text : String) : 0 ≤ (textNorm text : Rat) :=
  ExactWeighting.lengthNorm_nonneg _

/-- **The bodies that are made of documents are proper.** -/
theorem Index.Makes.proper {index : Index Rat} {doc : Value} {body : RecordBody Rat}
    (h : index.Makes doc (some body)) : body.Proper := by
  have hholds := h.holds
  cases body with
  | text v norm =>
    obtain ⟨leaf, text, -, rfl, rfl⟩ := hholds
    exact ⟨⟨text, rfl⟩, textNorm_nonneg text⟩
  | fields fields =>
    intro field hfield entry hentry
    obtain ⟨leaf, text, nested, -, rfl⟩ := hholds field hfield entry hentry
    exact textNorm_nonneg text

end

/-! ### Hits -/

/-- A matcher without negative scores. -/
def Matcher.Proper (matcher : Matcher Rat) : Prop :=
  ∀ text, 0 ≤ (matcher.compareText text).score

/-- A hit whose matches are proper. -/
def Hit.Proper (hit : Hit Rat) : Prop := ∀ found ∈ hit.found, found.Proper

/-- The matches of a proper matcher in a proper body are proper. -/
theorem Matcher.Finds.proper {matcher : Matcher Rat} {body : RecordBody Rat}
    {found : TextMatch Rat} (h : matcher.Finds body found) (hmatcher : matcher.Proper)
    (hbody : body.Proper) : found.Proper := by
  cases h with
  | text hresult hmatch =>
    obtain ⟨⟨text, rfl⟩, hnorm⟩ := hbody
    rw [Engine.compareValue_text] at hresult
    obtain rfl := Except.ok.inj hresult
    exact ⟨hmatcher text, hnorm⟩
  | entry hfield hindexed hmatch =>
    obtain ⟨numbered, hnumbered, rfl⟩ := Option.map_eq_some_iff.mp hfield
    exact ⟨hmatcher _, hbody numbered (List.mem_of_find?_eq_some hnumbered) _ hindexed⟩

namespace Engine

variable [ExactWeighting] {engine : Engine Rat}

/-- Hits of proper records are proper if the matchers of patterns are. -/
theorem proper_of_hits (hrecords : ∀ record ∈ engine.index.records, record.body.Proper)
    (hmatchers : ∀ pattern, (engine.matcherOf pattern).Proper)
    {query : Value} {hits : List (Hit Rat)} (h : engine.hits query = .ok hits) :
    ∀ hit ∈ hits, hit.Proper := by
  intro hit hhit found hfound
  obtain ⟨record, hrecord, -, hfinds⟩ := finds_of_hits h hit hhit
  obtain ⟨pattern, hpattern⟩ := hfinds found hfound
  exact hpattern.proper (hmatchers pattern) (hrecords record hrecord)

/-! ### Searches -/

/-- **A search succeeds when its hits are found**, as long as they are proper and lie in the
collection. -/
theorem exists_search_eq_ok {query : Value} {hits : List (Hit Rat)}
    (hhits : engine.hits query = .ok hits) (hproper : ∀ hit ∈ hits, hit.Proper)
    (hpositions : ∀ hit ∈ hits, 0 ≤ hit.position ∧ hit.position < engine.docs.length)
    (limit : Int) : ∃ results, engine.search query limit = .ok results := by
  obtain ⟨scored, hscored⟩ := exists_mapM_eq_ok fun hit hhit =>
    Hit.exists_scored engine.options.ignoreFieldNorm (hproper hit hhit)
  exact exists_search_of_scored hhits hscored hpositions limit

theorem matcherOf_of_build {docs : Value} {options : EngineOptions Rat}
    {factories : List (MatcherFactory Rat)}
    (hbuild : Engine.build docs options .absent factories = .ok engine) (pattern : String) :
    engine.matcherOf pattern = MatcherFactory.matcher factories pattern options.toMatchOptions := by
  obtain ⟨-, store, items, index, -, -, -, rfl⟩ := build_eq_ok_iff.mp hbuild
  rfl

/-- The records of an engine that was built are proper. -/
theorem proper_of_build {docs : Value} {options : EngineOptions Rat}
    {factories : List (MatcherFactory Rat)}
    (hbuild : Engine.build docs options .absent factories = .ok engine) :
    ∀ record ∈ engine.index.records, record.body.Proper := by
  obtain ⟨keys, bodies, -, hmaintained, hmakes, -⟩ := maintained_of_build hbuild
  intro record hrecord
  obtain ⟨-, -, hbody⟩ := hmaintained.tracks.mem_records hrecord
  obtain ⟨doc, -, hmake⟩ := exists_of_mem_forall₂ hmakes hbody
  exact hmake.proper

/-- **In an engine that was built a search succeeds when its hits are found**, so only a logical
query can fail, and only because it cannot be compiled. -/
theorem exists_search_of_build {docs : Value} {options : EngineOptions Rat}
    (hbuild : Engine.build docs options .absent MatcherFactory.standard = .ok engine)
    {query : Value} {hits : List (Hit Rat)} (hhits : engine.hits query = .ok hits) (limit : Int) :
    ∃ results, engine.search query limit = .ok results := by
  refine exists_search_eq_ok hhits (proper_of_hits (proper_of_build hbuild) (fun pattern => ?_)
    hhits) (fun hit hhit => ?_) limit
  · rw [matcherOf_of_build hbuild]
    exact MatcherFactory.score_compareText_nonneg options.toMatchOptions pattern
  · obtain ⟨keys, bodies, -, hmaintained, -, -⟩ := maintained_of_build hbuild
    have hmem := (positions_hits hhits).subset (List.mem_map_of_mem hhit)
    obtain ⟨record, hrecord, heq⟩ := List.mem_map.mp hmem
    obtain ⟨hnonneg, hlt, -⟩ := hmaintained.tracks.mem_records hrecord
    rw [← heq]
    exact ⟨hnonneg, hlt⟩

end Engine

end FuzzySearch
