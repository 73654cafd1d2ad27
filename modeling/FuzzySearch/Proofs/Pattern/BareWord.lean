import FuzzySearch.Proofs.Decimal.Neutral
import FuzzySearch.Proofs.Pattern.Spelling
import FuzzySearch.Proofs.Text.Case
import Mathlib.Data.Bool.AllAny

/-!
# Bare words

A word without spaces, bars, double quotes and line breaks, and without a mark of another kind of
term at its ends, is a query of the extended syntax as well (`BareWord`).  It is matched there as it
is outside (`TermQuery.matchLetters_bareWord`):

* the word is read as one fuzzy term with all its letters (`termGroups_of_bareWord`), and lowering
  the word first makes it no other kind of word (`BareWord.fold`);
* the pattern of the term and the text are lowered twice, which changes nothing more;
* the mean of a single score is this score, because the scores have no sign
  (`FuzzyPattern.unsigned_score_matchLetters`): the sum with the negative zero would be another
  double.
-/

namespace FuzzySearch

open ScoreNumber Text Decimal

/-! ### Words -/

/-- The marks that a term of another kind than the fuzzy one can begin with. -/
def openingMarks : List Char := ['=', singleQuote, '^', '!']

/-- A word that stands for itself in the extended syntax. -/
structure BareWord (word : List Char) : Prop where
  ne_nil : word ≠ []
  no_space : ' ' ∉ word
  no_bar : '|' ∉ word
  no_quote : doubleQuote ∉ word
  no_break : '\n' ∉ word
  first_not_blank : ∀ c ∈ word.head?, isBlankChar c = false
  last_not_blank : ∀ c ∈ word.getLast?, isBlankChar c = false
  first_not_mark : ∀ c ∈ word.head?, c ∉ openingMarks
  last_not_mark : ∀ c ∈ word.getLast?, c ≠ '$'

/-- Every kind but the fuzzy one has a mark at an end. -/
theorem TermKind.marked (kind : TermKind) (h : kind ≠ .fuzzy) :
    (∃ mark ∈ openingMarks, kind.opening.head? = some mark) ∨ kind.closing = ['$'] := by
  cases kind with
  | fuzzy => exact absurd rfl h
  | endsWith => exact Or.inr rfl
  | _ => exact Or.inl ⟨_, by decide, rfl⟩

/-- A character of ASCII that is no small letter comes from no other one. -/
theorem Text.LoweredTo.eq_of_mark {c mark : Char} (h : LoweredTo c mark)
    (hmark : mark.toNat < 97 ∨ 122 < mark.toNat ∧ mark.toNat < 128) : mark = c := by
  rcases h with ⟨heq, -, -⟩ | hsettled
  · exact heq
  · have := hsettled.isLetter
    omega

theorem Text.LoweredTo.isBlankChar_eq_false {c d : Char} (h : LoweredTo c d)
    (hc : isBlankChar c = false) : isBlankChar d = false := by
  rcases h with ⟨rfl, -, -⟩ | hsettled
  · exact hc
  · exact hsettled.not_blank

namespace BareWord

variable {word : List Char}

/-- **A bare word in lower case is a bare word.** -/
theorem lower (h : BareWord word) : BareWord (Text.lower word) := by
  have hnotMem : ∀ mark : Char, mark.toNat < 97 ∨ 122 < mark.toNat ∧ mark.toNat < 128 →
      mark ∉ word → mark ∉ Text.lower word := by
    intro mark hmark hword hmem
    obtain ⟨c, hc, hlowered⟩ := exists_of_mem_lowerAfter hmem
    exact hword (hlowered.eq_of_mark hmark ▸ hc)
  obtain ⟨first, hfirst⟩ : ∃ c, word.head? = some c :=
    ⟨_, List.head?_eq_some_head h.ne_nil⟩
  obtain ⟨last, hlast⟩ : ∃ c, word.getLast? = some c :=
    ⟨_, List.getLast?_eq_some_getLast h.ne_nil⟩
  obtain ⟨first', hfirst', hlowered⟩ := exists_head?_lowerAfter [] hfirst
  obtain ⟨last', hlast', hlowered'⟩ := exists_getLast?_lowerAfter [] hlast
  have hhead : (Text.lower word).head? = some first' := hfirst'
  have hgetLast : (Text.lower word).getLast? = some last' := hlast'
  refine ⟨?_, hnotMem _ (by decide) h.no_space, hnotMem _ (by decide) h.no_bar,
    hnotMem _ (by decide) h.no_quote, hnotMem _ (by decide) h.no_break, ?_, ?_, ?_, ?_⟩
  · intro hnil
    rw [hnil] at hhead
    cases hhead
  · rw [hhead]
    rintro _ ⟨⟩
    exact hlowered.isBlankChar_eq_false (h.first_not_blank first hfirst)
  · rw [hgetLast]
    rintro _ ⟨⟩
    exact hlowered'.isBlankChar_eq_false (h.last_not_blank last hlast)
  · rw [hhead]
    rintro _ ⟨⟩ hmark
    have hascii : ∀ mark ∈ openingMarks, mark.toNat < 97 ∨ 122 < mark.toNat ∧ mark.toNat < 128 :=
      List.all_iff_forall_prop.mp (by decide)
    exact h.first_not_mark first hfirst (hlowered.eq_of_mark (hascii _ hmark) ▸ hmark)
  · rw [hgetLast]
    rintro _ ⟨⟩ rfl
    exact h.last_not_mark last hlast (hlowered'.eq_of_mark (by decide)).symm

theorem fold (h : BareWord word) (caseSensitive : Bool) :
    BareWord (Text.fold caseSensitive word) := by
  cases caseSensitive with
  | true => exact h
  | false => exact h.lower

/-! ### Reading a word -/

theorem exists_head? (h : BareWord word) : ∃ c ∈ word.head?, isBlankChar c = false :=
  ⟨_, List.head?_eq_some_head h.ne_nil, h.first_not_blank _ (List.head?_eq_some_head h.ne_nil)⟩

theorem exists_getLast? (h : BareWord word) : ∃ c ∈ word.getLast?, isBlankChar c = false :=
  ⟨_, List.getLast?_eq_some_getLast h.ne_nil,
    h.last_not_blank _ (List.getLast?_eq_some_getLast h.ne_nil)⟩

theorem quotedPattern?_eq_none (h : BareWord word) (kind : TermKind) :
    kind.quotedPattern? word = none := by
  rw [Option.eq_none_iff_forall_ne_some]
  intro body hbody
  rw [TermKind.quotedPattern?, between?_eq_some_iff] at hbody
  refine h.no_quote ?_
  rw [hbody.1]
  simp

theorem barePattern?_eq (h : BareWord word) (kind : TermKind) :
    kind.barePattern? word = if kind = .fuzzy then some word else none := by
  have hread : ∀ body, kind.barePattern? word = some body → kind = .fuzzy := by
    intro body hbody
    rw [TermKind.barePattern?, between?_eq_some_iff] at hbody
    by_contra hkind
    rcases kind.marked hkind with ⟨mark, hmark, hopening⟩ | hclosing
    · refine h.first_not_mark mark ?_ hmark
      rw [hbody.1, List.head?_append, hopening]
      rfl
    · refine h.last_not_mark '$' ?_ rfl
      rw [hbody.1, hclosing, ← List.append_assoc, List.getLast?_append]
      rfl
  split_ifs with hkind
  · rw [hkind, TermKind.barePattern?, between?_eq_some_iff]
    exact ⟨by simp [TermKind.opening, TermKind.closing], h.ne_nil, h.no_break⟩
  · exact Option.eq_none_iff_forall_ne_some.mpr fun body hbody => hkind (hread body hbody)

/-- A bare word is read as a fuzzy term. -/
theorem ofToken?_eq (h : BareWord word) : Term.ofToken? word = some ⟨.fuzzy, word⟩ := by
  simp only [Term.ofToken?, h.quotedPattern?_eq_none, h.barePattern?_eq]
  rfl

theorem tokens_eq (h : BareWord word) : tokens word = [word] := by
  have hstrip : strip word = word := by
    have := @strip_append [] word [] rfl rfl h.exists_head? h.exists_getLast?
    rwa [List.nil_append, List.append_nil] at this
  have hparts : (spacedParts word).2 = [word] := by
    have := @spacedParts_append word [] h.no_quote fun _ => h.no_space
    rw [List.append_nil] at this
    rw [this]
    simp [spacedParts, glue]
  have hword : isBlank word = false := by
    obtain ⟨c, hc, hletter⟩ := h.exists_head?
    exact List.all_eq_false.mpr ⟨c, List.mem_of_head? hc, by simp [hletter]⟩
  simp [tokens, hstrip, hparts, hword]

end BareWord

/-- **A bare word is read as one fuzzy term with all its letters.** -/
theorem termGroups_of_bareWord {word : List Char} (h : BareWord word) :
    termGroups word = [[⟨.fuzzy, word⟩]] := by
  rw [termGroups, splitAt_of_notMem h.no_bar, List.map_singleton, groupTerms, h.tokens_eq,
    List.filterMap_cons_some h.ofToken?_eq, List.filterMap_nil]

/-! ### A query with one fuzzy term -/

section

variable {α : Type} [ScoreNumber α]

namespace FuzzyPattern

/-- A comparison that does not match is the failed one. -/
theorem matchLetters_eq_failed {p : FuzzyPattern α} {text : List Char}
    (h : (p.matchLetters text).isMatch = false) : p.matchLetters text = Comparison.failed := by
  unfold matchLetters combine at h ⊢
  dsimp only at h ⊢
  split_ifs at h ⊢
  rfl

theorem spans_matchLetters_eq_nil {p : FuzzyPattern α} {text : List Char}
    (h : p.options.includeMatches = false) : (p.matchLetters text).spans = [] := by
  unfold matchLetters combine
  dsimp only
  split_ifs <;> simp_all [Comparison.failed]

omit [ScoreNumber α] in
theorem ofLetters_fold (word : List Char) (options : MatchOptions α) :
    ofLetters (fold options.caseSensitive word) options = ofLetters word options := by
  simp only [ofLetters, fold_fold]

theorem matchLetters_fold (p : FuzzyPattern α) (text : List Char) :
    p.matchLetters (fold p.options.caseSensitive text) = p.matchLetters text := by
  simp only [matchLetters, fold_fold]

end FuzzyPattern

/-- A query with one fuzzy term is matched as the pattern of the term, if the mean of the score alone
is the score. -/
theorem TermQuery.matchLetters_singleton {word text : List Char} {options : MatchOptions α}
    (hmean : let score := ((FuzzyPattern.ofLetters word options).matchLetters text).score
      mean (sum [score]) 1 = score) :
    (TermQuery.mk [[⟨.fuzzy, fold options.caseSensitive word⟩]] options).matchLetters text
      = (FuzzyPattern.ofLetters word options).matchLetters text := by
  have hterm : Term.matchLetters options ⟨.fuzzy, fold options.caseSensitive word⟩
      (fold options.caseSensitive text)
      = (FuzzyPattern.ofLetters word options).matchLetters text := by
    rw [← FuzzyPattern.matchLetters_fold, ← FuzzyPattern.ofLetters_fold]
    rfl
  have hfailed := @FuzzyPattern.matchLetters_eq_failed α _ (.ofLetters word options) text
  have hspans := @FuzzyPattern.spans_matchLetters_eq_nil α _ (.ofLetters word options) text
  simp only [matchLetters, groupResults?, List.findSome?_cons, List.findSome?_nil, List.map_cons,
    List.map_nil, List.any_cons, List.any_nil, List.isEmpty_cons, Bool.false_or, Bool.or_false,
    hterm]
  generalize (FuzzyPattern.ofLetters word options).matchLetters text = result at *
  obtain ⟨isMatch, score, spans⟩ := result
  cases isMatch with
  | false => exact (hfailed rfl).symm
  | true =>
    refine (Comparison.mk.injEq ..).mpr ⟨rfl, hmean, ?_⟩
    show (if options.includeMatches then [spans].flatMap id else []) = spans
    split_ifs with hinclude
    · simp
    · exact (hspans (Bool.eq_false_iff.mpr hinclude)).symm

end

/-! ### Scores without a sign -/

theorem unsigned_ratio {num den : Int} (hnum : 0 ≤ num) (hden : 0 ≤ den) :
    Unsigned (ratio num den) := unsigned_nearestRatio hnum hden

/-- Scores without a sign have a mean without one. -/
theorem unsigned_mean {scores : List Float} (h : ∀ x ∈ scores, Unsigned x) (count : Nat) :
    Unsigned (mean (sum scores) count) := by
  have hfold : ∀ start, Unsigned start → Unsigned (scores.foldl (· + ·) start) := by
    induction scores with
    | nil => exact fun _ hstart => hstart
    | cons x rest ih =>
      obtain ⟨hx, hrest⟩ := List.forall_mem_cons.mp h
      exact fun start hstart => ih hrest _ (hstart.add hx)
  exact (hfold _ (unsigned_ratio (by decide) (by decide))).div
    (unsigned_ratio (Int.natCast_nonneg count) (by decide))

/-- The mean of one score without a sign is the score. -/
theorem mean_sum_singleton {x : Float} (h : Unsigned x) : mean (sum [x]) 1 = x := by
  have hzero : (zero : Float) = 0.0 := rfl
  have hone : (ratio 1 1 : Float) = 1.0 := div_one 1.0
  show (zero + x) / ratio 1 1 = x
  rw [hzero, hone, zero_add_of_unsigned h, div_one]

/-- The score of a located pattern is at least the least score of all. -/
theorem Bitap.unsigned_score_locate (text pattern : List Char) (c : Criteria Float) :
    Unsigned (locate text pattern c).score := by
  have hfloor : Unsigned (floorScore : Float) := unsigned_ratio (by decide) (by decide)
  have hgreater : ∀ x : Float, Unsigned (greater floorScore x) := by
    intro x
    unfold greater
    split_ifs with hlt
    · exact hfloor.of_lt hlt
    · exact hfloor
  exact hgreater _

/-- **The score of a fuzzy pattern has no sign.** -/
theorem FuzzyPattern.unsigned_score_matchLetters (p : FuzzyPattern Float) (text : List Char) :
    Unsigned (p.matchLetters text).score := by
  have hzero : Unsigned (zero : Float) := unsigned_ratio (by decide) (by decide)
  have hone : Unsigned (one : Float) := unsigned_ratio (by decide) (by decide)
  have hmean : ∀ folded, Unsigned
      (mean (sum ((p.chunkResults folded).map (·.score))) (p.chunkResults folded).length) := by
    refine fun folded => unsigned_mean (fun x hx => ?_) _
    obtain ⟨result, hresult, rfl⟩ := List.mem_map.mp hx
    obtain ⟨chunk, -, rfl⟩ := List.mem_map.mp hresult
    exact Bitap.unsigned_score_locate _ _ _
  simp only [matchLetters, combine, apply_ite Comparison.score]
  split_ifs
  · exact hzero
  · exact hone
  · exact hmean _

/-! ### Matching -/

/-- **A bare word is matched in the extended syntax as outside it**, whatever the options and the
text are: with the same score and the same spans. -/
theorem TermQuery.matchLetters_bareWord {word : List Char} (h : BareWord word)
    (options : MatchOptions Float) (text : List Char) :
    (TermQuery.ofLetters word options).matchLetters text
      = (FuzzyPattern.ofLetters word options).matchLetters text := by
  rw [TermQuery.ofLetters, termGroups_of_bareWord (h.fold options.caseSensitive)]
  exact matchLetters_singleton
    (mean_sum_singleton (FuzzyPattern.unsigned_score_matchLetters _ text))

/-- The marks inside a word are letters like the others. -/
theorem TermQuery.matchLetters_bareWord_marks_inside :
    let word := "A$=!b^'C".toList
    let options : MatchOptions Float := { MatchOptions.standard with includeMatches := true }
    let result := (TermQuery.ofLetters word options).matchLetters "a$=!B^'c".toList
    BareWord word ∧ result = (FuzzyPattern.ofLetters word options).matchLetters "a$=!B^'c".toList ∧
      result.isMatch = true ∧ result.spans = [⟨0, 7⟩] := by
  intro word options result
  have hhead : ∀ c ∈ word.head?, c = 'A' := fun c hc => (Option.some.inj hc).symm
  have hlast : ∀ c ∈ word.getLast?, c = 'C' := fun c hc => (Option.some.inj hc).symm
  have hword : BareWord word := by
    refine ⟨by decide +kernel, by decide +kernel, by decide +kernel, by decide +kernel,
      by decide +kernel, ?_, ?_, ?_, ?_⟩
    · exact fun c hc => hhead c hc ▸ by decide +kernel
    · exact fun c hc => hlast c hc ▸ by decide +kernel
    · exact fun c hc => hhead c hc ▸ by decide +kernel
    · exact fun c hc => hlast c hc ▸ by decide +kernel
  have hresult := matchLetters_bareWord hword options "a$=!B^'c".toList
  refine ⟨hword, hresult, ?_⟩
  rw [show result = _ from hresult]
  decide +kernel

end FuzzySearch
