import FuzzySearch.Proofs.Bitap.Bounds
import FuzzySearch.Proofs.Pattern.Meaning
import FuzzySearch.Proofs.Pattern.Tokens
import FuzzySearch.Proofs.Text.Case

/-!
# The bounds of the spans of a match

The spans of a match are positions of the text in the form in which it is compared.  They fit that
form (`Span.Fits`), whether they come from chunks of a fuzzy pattern, from a term of the extended
syntax or from a query (`MatcherFactory.fits_of_mem_spans`).

The text itself is shorter when it has dotted capital letters and letter case does not count.  Then,
and only then, some pattern has a span that is no part of it
(`MatcherFactory.inside_of_every_pattern_iff`).
-/

namespace FuzzySearch

open Text ScoreNumber

/-- A span that lies inside a text of some size; the whole of an empty text ends in front of its
beginning. -/
def Span.Fits (s : Span) (size : Nat) : Prop := s.Inside size ∨ size = 0 ∧ s = ⟨0, -1⟩

theorem Span.Fits.inside {s : Span} {size : Nat} (h : s.Fits size) (hsize : size ≠ 0) :
    s.Inside size :=
  h.resolve_right fun hempty => hsize hempty.1

variable {α : Type} [ScoreNumber α]

/-! ### Patterns -/

theorem Term.fits_firstPositions (size : Nat) : (firstPositions size).Fits size := by
  rcases Nat.eq_zero_or_pos size with rfl | hpos
  · exact Or.inr ⟨rfl, rfl⟩
  · refine Or.inl ?_
    rw [firstPositions, Span.inside_mk]
    omega

/-- **The spans of a fuzzy pattern fit the text in the form in which it is compared.** -/
theorem FuzzyPattern.fits_of_mem_spans {p : FuzzyPattern α} {text : List Char} {s : Span}
    (h : s ∈ (p.matchLetters text).spans) :
    s.Fits (fold p.options.caseSensitive text).length := by
  unfold matchLetters combine at h
  simp only at h
  split_ifs at h
  · -- the text is the pattern
    rw [List.mem_singleton.mp h]
    exact Term.fits_firstPositions _
  · exact absurd h List.not_mem_nil
  · exact absurd h List.not_mem_nil
  · obtain ⟨result, hresult, hs⟩ := List.mem_flatMap.mp h
    obtain ⟨chunk, -, rfl⟩ := List.mem_map.mp (List.mem_of_mem_filter hresult)
    exact Or.inl (Bitap.inside_of_mem_spans_locate hs)
  · exact absurd h List.not_mem_nil

namespace Term

/-- **The spans of a term that matches fit its text**, if the text is folded. -/
theorem fits_of_mem_spans {options : MatchOptions α} {term : Term} {text : List Char}
    (hpattern : term.pattern ≠ []) (hfold : fold options.caseSensitive text = text)
    (hmatch : (term.matchLetters options text).isMatch = true) {s : Span}
    (h : s ∈ (term.matchLetters options text).spans) : s.Fits text.length := by
  have hholds := (isMatch_matchLetters_iff options hpattern text).mp hmatch
  obtain ⟨kind, pattern⟩ := term
  have hpos : 0 < pattern.length := List.length_pos_iff.mpr hpattern
  cases kind with
  | equals =>
    obtain rfl : text = pattern := hholds
    rw [List.mem_singleton.mp h]
    exact fits_firstPositions _
  | includes =>
    have hspan : s ∈ occurrenceSpans pattern text := h
    obtain ⟨start, hstart, rfl⟩ := List.mem_map.mp hspan
    obtain ⟨-, -, hprefix⟩ := Bitap.mem_occurrencesFrom hstart
    have hlength := hprefix.length_le
    rw [Nat.sub_zero, List.length_drop] at hlength
    refine Or.inl ((Span.inside_mk ..).mpr ?_)
    omega
  | startsWith =>
    have hlength : pattern.length ≤ text.length := List.IsPrefix.length_le hholds
    have hinside : (firstPositions pattern.length).Inside text.length := by
      rw [firstPositions, Span.inside_mk]
      omega
    rw [List.mem_singleton.mp h]
    exact Or.inl hinside
  | endsWith =>
    have hlength : pattern.length ≤ text.length := List.IsSuffix.length_le hholds
    have hinside : (lastPositions text.length pattern.length).Inside text.length := by
      rw [lastPositions, Span.inside_mk]
      omega
    rw [List.mem_singleton.mp h]
    exact Or.inl hinside
  | startsNotWith | endsNotWith | excludes =>
    rw [List.mem_singleton.mp h]
    exact fits_firstPositions _
  | fuzzy =>
    have hfits := FuzzyPattern.fits_of_mem_spans h
    rwa [show (FuzzyPattern.ofLetters pattern options).options = options from rfl, hfold] at hfits

end Term

/-! ### Queries and matchers -/

theorem pattern_ne_nil_of_mem_termGroups {letters : List Char} {terms : List Term}
    (hterms : terms ∈ termGroups letters) {term : Term} (hterm : term ∈ terms) :
    term.pattern ≠ [] := by
  obtain ⟨group, -, rfl⟩ := List.mem_map.mp hterms
  obtain ⟨token, -, htoken⟩ := List.mem_filterMap.mp hterm
  exact (Term.spelledBy_of_ofToken? htoken).1.1

/-- **The spans of a query fit the text in the form in which it is compared.** -/
theorem TermQuery.fits_of_mem_spans {letters text : List Char} {options : MatchOptions α} {s : Span}
    (h : s ∈ ((ofLetters letters options).matchLetters text).spans) :
    s.Fits (fold options.caseSensitive text).length := by
  unfold matchLetters answer at h
  simp only at h
  split at h
  · exact absurd h List.not_mem_nil
  · rename_i results hresults
    simp only at h
    split_ifs at h
    · obtain ⟨terms, hterms, hgroup⟩ := List.exists_of_findSome?_eq_some hresults
      obtain ⟨result, hresult, hs⟩ := List.mem_flatMap.mp h
      have hall := ((isSome_groupResults?_iff ..).mp (hgroup ▸ Option.isSome_some)).2
      simp only [groupResults?, Option.ite_none_left_eq_some] at hgroup
      obtain rfl := Option.some.inj hgroup.2
      obtain ⟨term, hterm, rfl⟩ := List.mem_map.mp hresult
      exact Term.fits_of_mem_spans (pattern_ne_nil_of_mem_termGroups hterms hterm)
        (fold_fold options.caseSensitive text) (hall term hterm) hs
    · exact absurd h List.not_mem_nil

/-! ### Whole texts -/

/-- A term for texts without a word of so many letters. -/
def Term.withoutWord (size : Nat) : Term := ⟨.excludes, List.replicate (size + 1) 'a'⟩

theorem Term.termGroups_withoutWord (caseSensitive : Bool) (size : Nat) :
    termGroups (fold caseSensitive (withoutWord size).written) = [[withoutWord size]] := by
  have hwritable : (withoutWord size).Writable := by
    constructor <;> simp [withoutWord, doubleQuote]
  have hfixed : ∀ d ∈ (withoutWord size).written, d ≠ '\u03a3' ∧ lowerChar d = [d] := by
    intro d hd
    simp only [Term.written, withoutWord, List.mem_cons, List.mem_append, List.mem_replicate,
      List.not_mem_nil, or_false] at hd
    rcases hd with rfl | (rfl | ⟨-, rfl⟩) | rfl <;> decide
  have hfold : fold caseSensitive (withoutWord size).written = (withoutWord size).written := by
    cases caseSensitive with
    | true => rfl
    | false => exact lowerAfter_of_fixed hfixed
  have hwritten : WrittenQuery [[withoutWord size]] ([] ++ (withoutWord size).written ++ []) :=
    .single rfl (.single _) rfl
  rw [List.nil_append, List.append_nil] at hwritten
  rw [hfold]
  exact termGroups_of_written hwritten (by simpa using hwritable)

/-- A text has no word that is longer than itself. -/
theorem TermQuery.matchLetters_withoutWord {options : MatchOptions α}
    (hinclude : options.includeMatches = true) (text : List Char) :
    let size := (fold options.caseSensitive text).length
    let result := (ofLetters (Term.withoutWord size).written options).matchLetters text
    result.isMatch = true ∧ result.spans = [Term.firstPositions size] := by
  intro size result
  have hnot : contains (Term.withoutWord size).pattern (fold options.caseSensitive text) = false := by
    rw [← Bool.not_eq_true, contains_iff]
    intro hinfix
    have hlength := hinfix.length_le
    rw [Term.withoutWord, List.length_replicate] at hlength
    omega
  have hverdict : (Term.withoutWord size).matchLetters options (fold options.caseSensitive text)
      = Term.verdict true [Term.firstPositions size] := by
    show Term.verdict (!contains _ _) _ = _
    rw [hnot]
    rfl
  have hgroup : groupResults? options [Term.withoutWord size] (fold options.caseSensitive text)
      = some [Term.verdict true [Term.firstPositions size]] := by
    simp only [groupResults?, List.map_singleton, hverdict]
    rfl
  have hresult : result = ⟨true, mean (sum [zero]) 1, [Term.firstPositions size]⟩ := by
    simp only [result, matchLetters, ofLetters, Term.termGroups_withoutWord, List.findSome?_cons,
      hgroup, hinclude]
    rfl
  rw [hresult]
  exact ⟨rfl, rfl⟩

namespace MatcherFactory

variable {options : MatchOptions α}

/-- **The spans of a matcher of the standard factories fit the text in the form in which it is
compared.** -/
theorem fits_of_mem_spans {pattern text : String} {s : Span}
    (h : s ∈ ((matcher standard pattern options).compareText text).spans) :
    s.Fits (fold options.caseSensitive text.toList).length := by
  rw [matcher_standard] at h
  split_ifs at h
  · exact TermQuery.fits_of_mem_spans h
  · exact FuzzyPattern.fits_of_mem_spans h

/-- Every text is matched as a whole by some pattern: by itself, or in the extended syntax by a query
for texts without a longer word. -/
theorem exists_whole_span (hinclude : options.includeMatches = true) (text : String) :
    ∃ pattern, let result := (matcher standard pattern options).compareText text
      result.isMatch = true ∧
        result.spans = [Term.firstPositions (fold options.caseSensitive text.toList).length] := by
  cases hextended : options.extended with
  | true =>
    let size := (fold options.caseSensitive text.toList).length
    refine ⟨String.ofList (Term.withoutWord size).written, ?_⟩
    simp only [matcher_standard, hextended, if_true, String.toList_ofList]
    exact TermQuery.matchLetters_withoutWord hinclude text.toList
  | false =>
    refine ⟨text, ?_⟩
    simp only [matcher_standard, hextended, Bool.false_eq_true, if_false]
    show (FuzzyPattern.matchLetters _ _).isMatch = true ∧ (FuzzyPattern.matchLetters _ _).spans = _
    simp only [FuzzyPattern.matchLetters, FuzzyPattern.ofLetters, hinclude, if_true]
    exact ⟨trivial, rfl⟩

/-- **Every span of every pattern is a part of a text exactly if letter case counts or the text has
no dotted capital letter.** -/
theorem inside_of_every_pattern_iff (hinclude : options.includeMatches = true) {text : String}
    (htext : text ≠ "") :
    (∀ pattern, let result := (matcher standard pattern options).compareText text
        result.isMatch = true → ∀ s ∈ result.spans, s.Inside text.length) ↔
      options.caseSensitive = true ∨ '\u0130' ∉ text.toList := by
  have hpos : 0 < text.length := Nat.pos_of_ne_zero fun h => htext (String.length_eq_zero_iff.mp h)
  have hlength := length_fold options.caseSensitive text.toList
  rw [← length_fold_eq_iff, String.length_toList]
  rw [String.length_toList] at hlength
  constructor
  · intro h
    obtain ⟨pattern, hmatch, hspans⟩ := exists_whole_span hinclude text
    have hinside := h pattern hmatch _ (hspans ▸ List.mem_singleton_self _)
    rw [Term.firstPositions, Span.inside_mk] at hinside
    omega
  · intro hsame pattern result hmatch s hs
    have hfits := fits_of_mem_spans hs
    rw [hsame] at hfits
    exact hfits.inside hpos.ne'

end MatcherFactory

end FuzzySearch
