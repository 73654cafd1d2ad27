import FuzzySearch.Proofs.Engine.Calls
import FuzzySearch.Proofs.Engine.Spans
import FuzzySearch.Proofs.Pattern.Score

/-!
# The ranking of texts

In a collection of texts a hit has one match, and without field norms it has the score of that
match.  Identity scores zero and everything else at least a thousandth
(`EngineOptions.points_eq_zero`, `EngineOptions.floor_le_points`), so the texts that are identical
to the query come first, and texts of the same score come in the order of the collection
(`Engine.identical_first`).
-/

namespace FuzzySearch

open ScoreNumber

/-! ### The points of a text -/

namespace EngineOptions

variable {options : EngineOptions Rat} {query : String} {doc : Value}

/-- The text under which a document that is a text is indexed. -/
def indexedText {α : Type} (options : EngineOptions α) (doc : Value) : String :=
  (options.normalize.getD id) doc.searchText

/-- The matcher of a query that is not read in the extended syntax. -/
def fuzzyPattern (options : EngineOptions Rat) (query : String) : FuzzyPattern Rat :=
  FuzzyPattern.ofLetters query.toList options.toMatchOptions

/-- A document whose indexed text is the query, apart from letter case if that does not count. -/
def Identical (options : EngineOptions Rat) (query : String) (doc : Value) : Prop :=
  Text.fold options.caseSensitive query.toList
    = Text.fold options.caseSensitive (options.indexedText doc).toList

instance : Decidable (options.Identical query doc) := inferInstanceAs (Decidable (_ = _))

/-- The result of comparing a query with the indexed text of a document. -/
def comparison (options : EngineOptions Rat) (query : String) (doc : Value) : Comparison Rat :=
  (options.fuzzyPattern query).matchLetters (options.indexedText doc).toList

/-- The score of a query in the indexed text of a document. -/
def points (options : EngineOptions Rat) (query : String) (doc : Value) : Rat :=
  (options.comparison query doc).score

theorem comparison_of_identical (h : options.Identical query doc) :
    options.comparison query doc
      = ⟨true, zero, if options.includeMatches then
          [⟨0, (Text.fold options.caseSensitive (options.indexedText doc).toList).length - 1⟩]
        else []⟩ :=
  if_pos h

/-- Identity scores zero. -/
theorem points_eq_zero (h : options.Identical query doc) : options.points query doc = 0 := by
  rw [points, comparison_of_identical h, zero_rat]

/-- **Everything but identity scores at least a thousandth.** -/
theorem floor_le_points (h : ¬options.Identical query doc) :
    1 / 1000 ≤ options.points query doc := by
  have hcomparison : options.comparison query doc
      = FuzzyPattern.combine options.includeMatches ((options.fuzzyPattern query).chunkResults
          (Text.fold options.caseSensitive (options.indexedText doc).toList)) := if_neg h
  rw [points, hcomparison]
  exact @FuzzyPattern.floor_le_score_combine (options.fuzzyPattern query) _

theorem points_nonneg (options : EngineOptions Rat) (query : String) (doc : Value) :
    0 ≤ options.points query doc := by
  by_cases h : options.Identical query doc
  · exact (points_eq_zero h).ge
  · exact le_trans (by norm_num) (floor_le_points h)

end EngineOptions

/-! ### The order of hits -/

namespace Hit

/-- A hit has a lower score than another, or the same score and an earlier position. -/
def Precedes (a b : Hit Rat) : Prop :=
  a.score < b.score ∨ a.score = b.score ∧ a.position < b.position

theorem before_iff (a b : Hit Rat) : a.before b = true ↔ a.Precedes b := by
  rw [before, Precedes]
  split_ifs with heq
  · have hsame : a.score = b.score := le_antisymm heq.1 heq.2
    simp [hsame]
  · have hne : a.score ≠ b.score := fun hsame => heq ⟨hsame.le, hsame.ge⟩
    simp [hne]

/-- What does not come after another hit has no greater score, nor a later position with the same
one. -/
theorem not_before_iff (a b : Hit Rat) :
    (!before b a) = true ↔ a.score < b.score ∨ a.score = b.score ∧ a.position ≤ b.position := by
  rw [Bool.not_eq_true', Bool.eq_false_iff, Ne, before_iff, Precedes]
  constructor
  · intro hnot
    rcases lt_trichotomy a.score b.score with hlt | heq | hgt
    · exact .inl hlt
    · exact .inr ⟨heq, not_lt.mp fun hlt => hnot (.inr ⟨heq.symm, hlt⟩)⟩
    · exact absurd (.inl hgt) hnot
  · rintro (hlt | ⟨heq, hle⟩) (hgt | ⟨heq', hlt'⟩)
    all_goals linarith

theorem pairwise_not_before_sorted (hits : List (Hit Rat)) :
    (sorted before hits).Pairwise fun a b => (!before b a) = true := by
  apply List.pairwise_mergeSort
  · intro a b c hab hbc
    rw [not_before_iff] at hab hbc ⊢
    rcases hab with hab | ⟨hab, hab'⟩ <;> rcases hbc with hbc | ⟨hbc, hbc'⟩
    · exact .inl (hab.trans hbc)
    · exact .inl (hab.trans_eq hbc)
    · exact .inl (hab.trans_lt hbc)
    · exact .inr ⟨hab.trans hbc, hab'.trans hbc'⟩
  · intro a b
    rw [Bool.or_eq_true, not_before_iff, not_before_iff]
    rcases lt_trichotomy a.score b.score with hlt | heq | hgt
    · exact .inl (.inl hlt)
    · exact (le_total a.position b.position).imp (fun h => .inr ⟨heq, h⟩)
        fun h => .inr ⟨heq.symm, h⟩
    · exact .inr (.inl hgt)

/-- **Hits with different positions are sorted by score, and then by position.** -/
theorem pairwise_sorted {hits : List (Hit Rat)} (h : (hits.map (·.position)).Nodup) :
    (sorted before hits).Pairwise Precedes := by
  have hperm : ((sorted before hits).map (·.position)).Perm (hits.map (·.position)) :=
    (List.mergeSort_perm hits _).map _
  have hnodup := List.pairwise_map.mp (hperm.nodup_iff.mpr h)
  refine ((pairwise_not_before_sorted hits).and hnodup).imp ?_
  rintro a b ⟨hle, hne⟩
  rcases (not_before_iff a b).mp hle with hlt | ⟨heq, hle⟩
  · exact .inl hlt
  · exact .inr ⟨heq, lt_of_le_of_ne hle hne⟩

/-- A hit is reported with the document at its position. -/
theorem exists_report_eq {docs : List Value} (includeMatches includeScore : Bool) {hit : Hit Rat}
    {k : Nat} {doc : Value} (hposition : hit.position = k) (hdoc : docs[k]? = some doc) :
    ∃ result, hit.report docs includeMatches includeScore = .ok result ∧
      result.position = k ∧ result.item = doc ∧
      result.score = if includeScore then some hit.score else none := by
  have hitem : document? docs hit.position = some doc := by
    rw [hposition, document?, if_pos (Int.natCast_nonneg k), Int.toNat_natCast, hdoc]
  rw [report, hitem]
  exact ⟨_, rfl, hposition, rfl, rfl⟩

/-! ### The scores of hits -/

variable [ExactWeighting]

/-- A number to the power of one is itself. -/
def PowerOne : Prop := ∀ x : Rat, 0 ≤ x → ExactWeighting.power x 1 = .ok x

/-- Without a key and norms, the factor of a match is its score. -/
theorem factor_of_keyless (hpower : PowerOne) {found : TextMatch Rat} (hkey : found.key = none)
    (hscore : 0 ≤ found.score) : found.factor true = .ok found.score := by
  have hexponent : (one * one : Rat) = 1 := by simp
  simp only [TextMatch.factor, TextMatch.weight?, hkey, if_true, hexponent]
  exact hpower _ hscore

theorem product_of_keyless (hpower : PowerOne) {found : List (TextMatch Rat)}
    (h : ∀ x ∈ found, x.key = none ∧ 0 ≤ x.score) (start : Rat) :
    product true start found = .ok (start * (found.map (·.score)).prod) := by
  induction found generalizing start with
  | nil => simp [product]
  | cons first rest ih =>
    obtain ⟨⟨hkey, hscore⟩, hrest⟩ := List.forall_mem_cons.mp h
    rw [product, factor_of_keyless hpower hkey hscore, List.map_cons, List.prod_cons, ← mul_assoc]
    exact ih hrest _

/-- Without keys and norms, the score of a hit is the product of the scores of its matches. -/
theorem scored_of_keyless (hpower : PowerOne) {hit : Hit Rat}
    (h : ∀ found ∈ hit.found, found.key = none ∧ 0 ≤ found.score) :
    hit.scored true = .ok { hit with score := (hit.found.map (·.score)).prod } := by
  rw [scored, product_of_keyless hpower h, one_rat, one_mul]
  rfl

end Hit

namespace Engine

/-- Hits with different positions are listed in order. -/
theorem pairwise_listed {engine : Engine Rat} {hits : List (Hit Rat)}
    (hsort : engine.options.shouldSort = true) (horder : engine.options.order = Hit.before)
    (hnodup : (hits.map (·.position)).Nodup) (limit : Int) :
    (engine.listed limit hits).Pairwise Hit.Precedes := by
  have hall : engine.listed (-1) hits = Hit.sorted Hit.before hits := by
    simp [listed, hsort, horder]
  exact (Hit.pairwise_sorted hnodup).sublist (hall ▸ engine.listed_sublist limit hits)

/-! ### Engines over texts -/

section factories

variable {α : Type} [Weighting α] {engine next first : Engine α}

omit [Weighting α] in
theorem factories_landed (engine : Engine α) (docs : List Value)
    (made : Except SearchError (Index α)) :
    (engine.landed docs made).1.factories = engine.factories := by
  cases made <;> rfl

theorem factories_call (engine : Engine α) (c : Call α) :
    (engine.call c).1.factories = engine.factories := by
  rcases engine.call_cases c with ⟨failure, hcall⟩ | ⟨doc, -, hcall⟩ |
    ⟨position, -, -, hcall⟩ | ⟨docs, given, items, -, -, hcall⟩
  · rw [hcall]
  all_goals rw [hcall, factories_landed]

theorem factories_removeFrom (predicate : Value → Nat → Bool) (position : Nat) (rest : List Value)
    (engine : Engine α) :
    (removeFrom predicate position rest engine).1.factories = engine.factories := by
  induction rest generalizing position engine with
  | nil => rfl
  | cons doc rest ih =>
    rw [removeFrom]
    split_ifs
    · exact (ih position _).trans (factories_call engine (.removeAt position))
    · exact ih (position + 1) engine

/-- A change leaves the makers of matchers as they are. -/
theorem factories_of_apply {change : Change} (h : engine.apply change = .ok next) :
    next.factories = engine.factories := by
  have hcall : ∀ c : Call α, settled (engine.call c) = .ok next →
      next.factories = engine.factories := by
    intro c hc
    rw [← factories_call engine c, settled_eq_ok_iff.mp hc]
  cases change with
  | add doc => exact hcall (.add doc) h
  | removeAt position => exact hcall (.removeAt position) h
  | remove predicate =>
    obtain rfl := Except.ok.inj h
    exact factories_removeFrom predicate 0 engine.docs engine
  | replace docs => exact hcall (.replace docs .absent) h

theorem factories_of_run {engines : List (Engine α)} (hrun : Run first engines) :
    ∀ engine ∈ engines, engine.factories = first.factories := by
  induction hrun with
  | first =>
    intro engine hengine
    rw [List.mem_singleton.mp hengine]
  | @step engine next before change _ happly ih =>
    intro e he
    rcases List.mem_cons.mp he with rfl | he
    · rw [factories_of_apply happly, ih engine List.mem_cons_self]
    · exact ih e he

end factories

variable [ExactWeighting] {options : EngineOptions Rat} {engine first : Engine Rat}
  {query : String}

/-- An engine over texts, with one record for each document whose text is not blank. -/
structure OverTexts (options : EngineOptions Rat) (engine : Engine Rat) : Prop where
  options_eq : engine.options = options
  factories_eq : engine.factories = MatcherFactory.standard
  isText : ∀ doc ∈ engine.docs, doc.isText = true
  pairwise : (engine.index.records.map (·.position)).Pairwise (· < ·)
  mem_records_iff : ∀ record, record ∈ engine.index.records ↔
    ∃ (k : Nat) (doc : Value), engine.docs[k]? = some doc ∧
      Text.isBlank (options.indexedText doc).toList = false ∧
      record = ⟨k, .text (.text (options.indexedText doc)) (textNorm (options.indexedText doc))⟩

theorem textBody?_of_isText (keys : List (Key Rat)) {doc : Value} (h : doc.isText = true) :
    (Index.blank keys options.extract options.normalize).textBody? doc
      = if Text.isBlank (options.indexedText doc).toList then none
        else some (.text (.text (options.indexedText doc))
          (textNorm (options.indexedText doc))) := by
  obtain ⟨text, rfl⟩ : ∃ text, doc = .text text := by
    cases doc <;> first | exact ⟨_, rfl⟩ | exact Bool.noConfusion h
  show (if Text.isBlank (options.indexedText (.text text)).toList then none
    else some (options.indexedText (.text text))).map _ = _
  split_ifs <;> rfl

/-- **An engine that was built over texts and changed since is one over texts**, as long as its
collection was always one of texts or one without texts. -/
theorem overTexts_of_run {docs : Value}
    (hbuild : Engine.build docs options .absent MatcherFactory.standard = .ok first)
    {before : List (Engine Rat)} (hrun : Run first (engine :: before))
    (huniform : ∀ e ∈ engine :: before, Uniform e.docs)
    (htexts : ∀ doc ∈ engine.docs, doc.isText = true) : OverTexts options engine := by
  obtain ⟨keys, bodies, -, hmaintained, hdescribed⟩ := maintained_of_run hbuild hrun
  obtain ⟨-, hfactories⟩ := of_build hbuild
  refine ⟨hmaintained.options_eq,
    (factories_of_run hrun engine List.mem_cons_self).trans hfactories, htexts,
    hmaintained.tracks.pairwise, fun record => ?_⟩
  have hbodies : bodies = engine.docs.map
      (Index.blank keys options.extract options.normalize).textBody? := by
    have hforall := hdescribed huniform
    unfold Described at hforall
    clear hmaintained hdescribed
    generalize engine.docs = docs at htexts hforall
    induction hforall with
    | nil => rfl
    | @cons doc body docs bodies hbody _ ih =>
      rw [Index.Describes, if_pos (htexts doc List.mem_cons_self)] at hbody
      rw [List.map_cons, hbody, ih fun later hlater => htexts later (List.mem_cons_of_mem _ hlater)]
  rw [hmaintained.tracks.records_eq, mem_numbered_iff, hbodies]
  simp only [List.getElem?_map, Option.map_eq_some_iff]
  constructor
  · rintro ⟨k, hposition, doc, hdoc, hbody⟩
    rw [textBody?_of_isText keys (htexts doc (List.mem_of_getElem? hdoc)),
      Option.ite_none_left_eq_some, Bool.not_eq_true] at hbody
    refine ⟨k, doc, hdoc, hbody.1, ?_⟩
    obtain ⟨position, body⟩ := record
    obtain rfl : position = k := hposition.trans (zero_add _)
    exact congrArg (Record.mk _) (Option.some.inj hbody.2).symm
  · rintro ⟨k, doc, hdoc, hblank, rfl⟩
    refine ⟨k, (zero_add _).symm, doc, hdoc, ?_⟩
    rw [textBody?_of_isText keys (htexts doc (List.mem_of_getElem? hdoc)),
      if_neg (by simp [hblank])]

omit [ExactWeighting] in
theorem holdsTexts_of_isText (htexts : ∀ doc ∈ engine.docs, doc.isText = true)
    (hne : engine.docs ≠ []) : engine.holdsTexts = true := by
  obtain ⟨doc, rest, hdocs⟩ := List.exists_cons_of_ne_nil hne
  have hdoc := htexts doc (hdocs ▸ List.mem_cons_self)
  unfold holdsTexts
  rw [hdocs]
  cases doc <;> first | rfl | exact Bool.noConfusion hdoc

namespace OverTexts

variable (h : OverTexts options engine)

include h

/-- The hits of a query that is not read in the extended syntax. -/
theorem hits_eq (hextended : options.extended = false) (query : String) :
    engine.hits (.text query)
      = .ok (engine.hitsOf (textMatches (.fuzzy (options.fuzzyPattern query)))) := by
  have hmatcher : engine.matcherOf query = .fuzzy (options.fuzzyPattern query) := by
    rw [matcherOf, h.factories_eq, h.options_eq, MatcherFactory.matcher_standard, hextended]
    rfl
  have hreadable : ∀ record ∈ engine.index.records, record.body.Readable := by
    intro record hrecord
    obtain ⟨k, doc, -, -, rfl⟩ := (h.mem_records_iff record).mp hrecord
    exact ⟨_, rfl⟩
  show (if engine.holdsTexts then engine.textHits query else .ok (engine.fieldHits query)) = _
  split_ifs with hholds
  · rw [textHits_eq_ok hreadable, hmatcher]
  · have hdocs : engine.docs = [] := by_contra fun hne => hholds (holdsTexts_of_isText h.isText hne)
    have hrecords : engine.index.records = [] := by
      refine List.eq_nil_iff_forall_not_mem.mpr fun record hrecord => ?_
      obtain ⟨k, doc, hdoc, -⟩ := (h.mem_records_iff record).mp hrecord
      rw [hdocs] at hdoc
      cases hdoc
    rw [fieldHits, hitsOf, hrecords]
    rfl

/-- A hit is a document whose text is not blank and matches. -/
theorem mem_hitsOf_iff (hit : Hit Rat) :
    hit ∈ engine.hitsOf (textMatches (.fuzzy (options.fuzzyPattern query))) ↔
      ∃ (k : Nat) (doc : Value), engine.docs[k]? = some doc ∧
        Text.isBlank (options.indexedText doc).toList = false ∧
        (options.comparison query doc).isMatch = true ∧
        hit = ⟨k, [⟨options.points query doc, options.indexedText doc,
          textNorm (options.indexedText doc), (options.comparison query doc).spans, none, none⟩],
          one⟩ := by
  rw [Engine.mem_hitsOf_iff]
  constructor
  · rintro ⟨record, hrecord, hfound, rfl⟩
    obtain ⟨k, doc, hdoc, hblank, rfl⟩ := (h.mem_records_iff record).mp hrecord
    by_cases hmatch : (options.comparison query doc).isMatch
    · exact ⟨k, doc, hdoc, hblank, hmatch, congrArg (Hit.mk _ · _) (if_pos hmatch)⟩
    · exact absurd (if_neg hmatch) hfound
  · rintro ⟨k, doc, hdoc, hblank, hmatch, rfl⟩
    refine ⟨_, (h.mem_records_iff _).mpr ⟨k, doc, hdoc, hblank, rfl⟩, ?_, ?_⟩
    · exact (if_pos hmatch).trans_ne (List.cons_ne_nil _ _)
    · exact congrArg (Hit.mk _ · _) (if_pos hmatch).symm

/-- The score of a hit is that of its match. -/
theorem scored_of_mem (hpower : Hit.PowerOne) {hit : Hit Rat}
    (hhit : hit ∈ engine.hitsOf (textMatches (.fuzzy (options.fuzzyPattern query)))) :
    ∃ scored, hit.scored true = .ok scored ∧
      ∃ (k : Nat) (doc : Value), engine.docs[k]? = some doc ∧
        scored.position = k ∧ scored.score = options.points query doc := by
  obtain ⟨k, doc, hdoc, -, -, rfl⟩ := (h.mem_hitsOf_iff hit).mp hhit
  refine ⟨_, Hit.scored_of_keyless hpower ?_, k, doc, hdoc, rfl, ?_⟩
  · exact List.forall_mem_singleton.mpr ⟨rfl, options.points_nonneg query doc⟩
  · exact List.prod_singleton

end OverTexts

/-- A result that shows a hit: the document at its position, and on demand the score of comparing
the query with that document. -/
structure Shows (options : EngineOptions Rat) (docs : List Value) (query : String)
    (hit : Hit Rat) (result : ReportedHit Rat) : Prop where
  position_eq : result.position = hit.position
  document : ∃ k : Nat, result.position = k ∧ docs[k]? = some result.item
  points_eq : options.points query result.item = hit.score
  score_eq : result.score
    = if options.includeScore then some (options.points query result.item) else none

/-- **A search lists its hits**, each with the score of its match. -/
theorem OverTexts.exists_shown (h : OverTexts options engine) (hpower : Hit.PowerOne)
    (hextended : options.extended = false) (hnorm : options.ignoreFieldNorm = true)
    (query : String) (limit : Int) :
    ∃ scored results,
      scored.map (·.position) = (engine.hitsOf (textMatches (.fuzzy
        (options.fuzzyPattern query)))).map (·.position) ∧
      engine.search (.text query) limit = .ok results ∧
      List.Forall₂ (Shows options engine.docs query) (engine.listed limit scored) results := by
  have hhits := h.hits_eq hextended query
  obtain ⟨scored, hscored, hmatched⟩ := exists_forall₂_of_mapM fun hit hhit =>
    @scored_of_mem _ _ _ query h hpower hit hhit
  have hshown : ∀ hit ∈ engine.listed limit scored, ∃ result,
      hit.report engine.docs options.includeMatches options.includeScore = .ok result ∧
        Shows options engine.docs query hit result := by
    intro hit hhit
    have hmem := (engine.listed_perm scored).subset
      ((engine.listed_sublist limit scored).subset hhit)
    obtain ⟨-, -, k, doc, hdoc, hposition, hscore⟩ := exists_of_mem_forall₂ hmatched hmem
    obtain ⟨result, hreport, hplace, rfl, hshow⟩ :=
      Hit.exists_report_eq options.includeMatches options.includeScore hposition hdoc
    exact ⟨result, hreport, hplace.trans hposition.symm, ⟨k, hplace, hdoc⟩, hscore.symm,
      hscore ▸ hshow⟩
  obtain ⟨results, hresults, hreported⟩ := exists_forall₂_of_mapM hshown
  refine ⟨scored, results,
    map_eq_of_mapM (fun _ _ hscore => position_of_scored hscore) hscored, ?_, hreported⟩
  refine search_eq_ok_iff.mpr ⟨_, scored, hhits, ?_, ?_⟩
  · rw [h.options_eq, hnorm, hscored]
  · rw [h.options_eq, hresults]

/-- **Identical texts rank first.**  In a collection of texts, as it was built or changed since
without being a mixed one in between, a query that is not read in the extended syntax is answered by
documents in the order of their scores, and of their positions where the scores are the same.  The
scores are those of comparing the query with the text of the document: identity scores zero and all
else at least a thousandth, so the identical texts come before all others.  Without a limit none of
them is left out. -/
theorem identical_first (hpower : Hit.PowerOne) {docs : Value}
    (hbuild : Engine.build docs options .absent MatcherFactory.standard = .ok first)
    {before : List (Engine Rat)} (hrun : Run first (engine :: before))
    (huniform : ∀ e ∈ engine :: before, Uniform e.docs)
    (htexts : ∀ doc ∈ engine.docs, doc.isText = true) (hextended : options.extended = false)
    (hnorm : options.ignoreFieldNorm = true) (hsort : options.shouldSort = true)
    (horder : options.order = Hit.before) (query : String) (limit : Int) :
    ∃ results, engine.search (.text query) limit = .ok results ∧
      (∀ result ∈ results,
        (∃ k : Nat, result.position = k ∧ engine.docs[k]? = some result.item) ∧
        result.score
          = (if options.includeScore then some (options.points query result.item) else none) ∧
        (options.Identical query result.item → options.points query result.item = 0) ∧
        (¬options.Identical query result.item → 1 / 1000 ≤ options.points query result.item)) ∧
      results.Pairwise (fun a b =>
        (options.Identical query b.item → options.Identical query a.item) ∧
        (options.points query a.item < options.points query b.item ∨
          options.points query a.item = options.points query b.item ∧ a.position < b.position)) ∧
      (limit = -1 → ∀ (k : Nat) (doc : Value), engine.docs[k]? = some doc →
        Text.isBlank (options.indexedText doc).toList = false → options.Identical query doc →
          ∃ result ∈ results, result.position = k) := by
  have h := overTexts_of_run hbuild hrun huniform htexts
  obtain ⟨scored, results, hpositions, hsearch, hshown⟩ :=
    h.exists_shown hpower hextended hnorm query limit
  refine ⟨results, hsearch, fun result hresult => ?_, ?_, ?_⟩
  · obtain ⟨hit, -, hshow⟩ := exists_of_mem_forall₂ hshown hresult
    exact ⟨hshow.document, hshow.score_eq, EngineOptions.points_eq_zero,
      EngineOptions.floor_le_points⟩
  · -- the positions of the records increase, so those of the hits differ
    have hnodup : (scored.map (·.position)).Nodup := by
      rw [hpositions]
      exact (h.pairwise.sublist (positions_hits (h.hits_eq hextended query))).imp ne_of_lt
    have hlisted := pairwise_listed (h.options_eq ▸ hsort) (h.options_eq ▸ horder) hnodup limit
    refine pairwise_of_forall₂ (fun x a y b hxa hyb hprecedes => ?_) hshown hlisted
    rw [Hit.Precedes, ← hxa.points_eq, ← hyb.points_eq, ← hxa.position_eq, ← hyb.position_eq]
      at hprecedes
    refine ⟨fun hidentical => by_contra fun hdifferent => ?_, hprecedes⟩
    -- what comes first would score at least a thousandth, and what comes after it zero
    have hfloor := EngineOptions.floor_le_points hdifferent
    have hzero := EngineOptions.points_eq_zero hidentical
    rcases hprecedes with hlt | ⟨heq, -⟩ <;> linarith
  · rintro rfl k doc hdoc hblank hidentical
    have hhit := (h.mem_hitsOf_iff _).mpr ⟨k, doc, hdoc, hblank,
      congrArg Comparison.isMatch (EngineOptions.comparison_of_identical hidentical), rfl⟩
    -- without a limit the hit is listed, under the same position
    have hposition : (k : Int) ∈ scored.map (·.position) := by
      rw [hpositions]
      exact List.mem_map.mpr ⟨_, hhit, rfl⟩
    obtain ⟨x, hx, hxk⟩ := List.mem_map.mp hposition
    obtain ⟨result, hresult, hshow⟩ :=
      exists_of_mem_forall₂ hshown.flip ((engine.listed_perm scored).symm.subset hx)
    exact ⟨result, hresult, hshow.position_eq.trans hxk⟩

omit [ExactWeighting] in
/-- The second of two texts is the query but for a capital letter. -/
theorem identical_first_kiwi :
    letI := roundedWeighting
    let options : EngineOptions Rat :=
      { MatchOptions.standard with
        keys := [], includeScore := true, shouldSort := true, order := Hit.before,
        extract := standardExtractor, normalize := none, ignoreFieldNorm := true }
    ∃ engine results,
      Engine.build (.list [.text "a kiwi", .text "Kiwi"]) options .absent MatcherFactory.standard
          = .ok engine ∧
        engine.search (.text "kiwi") (-1) = .ok results ∧
        (∃ result ∈ results, result.position = 1) ∧
        results.Pairwise fun a b =>
          options.Identical "kiwi" b.item → options.Identical "kiwi" a.item := by
  let _ := roundedWeighting
  intro options
  have hdocs : (Engine.build (.list [.text "a kiwi", .text "Kiwi"]) options .absent
      MatcherFactory.standard).map Engine.docs = .ok [.text "a kiwi", .text "Kiwi"] := by
    rfl
  obtain ⟨engine, hbuild, hdocs⟩ := map_eq_ok_iff.mp hdocs
  have htexts : ∀ doc ∈ engine.docs, doc.isText = true := by simp [hdocs, Value.isText]
  obtain ⟨results, hsearch, -, hsorted, hidentical⟩ := @identical_first _ options engine engine
    (fun x _ => congrArg Except.ok (pow_one x)) _ hbuild [] .first
    (List.forall_mem_singleton.mpr (.inl htexts)) htexts rfl rfl rfl rfl "kiwi" (-1)
  exact ⟨engine, results, hbuild, hsearch,
    hidentical rfl 1 (.text "Kiwi") (by rw [hdocs]; rfl) (by decide) (by decide),
    hsorted.imp And.left⟩

end Engine

end FuzzySearch
