import FuzzySearch.Proofs.Pattern.Spelling
import Mathlib.Data.List.Count

/-!
# The terms of a query

Any text is a query of the extended syntax.  A group of it is cut at the spaces that have an even
number of double quotes behind them, spaces side by side being one cut (`CutAtSpaces`), and the parts
that are not blank are its tokens (`CutAtSpaces.tokens_eq`).

A token spells a term exactly if it has no line break (`exists_ofToken?_iff`): a fuzzy term is
written without marks, so what is no other term is a fuzzy one, but no term is read across a line
break.  Hence the terms of a group are those of its tokens without line breaks, one for each of them
and in order (`terms_of_query`), and a token with a line break is lost (`term_lost_at_line_break`).
-/

namespace FuzzySearch

open Text

/-! ### Cutting a group -/

/-- Characters with an even number of double quotes, so that a space in front of them separates. -/
def QuotesClosed (behind : List Char) : Prop := behind.count doubleQuote % 2 = 0

instance (behind : List Char) : Decidable (QuotesClosed behind) :=
  inferInstanceAs (Decidable (_ = _))

/-- No space of a part separates, when some characters stand behind the part. -/
def Undivided (part behind : List Char) : Prop :=
  ∀ before after, part = before ++ ' ' :: after → ¬ QuotesClosed (after ++ behind)

/-- A text and the parts that it is cut into at its separating spaces.  A cut takes all the spaces
that stand side by side. -/
inductive CutAtSpaces : List Char → List (List Char) → Prop
  | whole {part : List Char} : Undivided part [] → CutAtSpaces part [part]
  | cut {part rest : List Char} {parts : List (List Char)} (spaces : Nat) :
      Undivided part rest → QuotesClosed rest → rest.head? ≠ some ' ' → CutAtSpaces rest parts →
      CutAtSpaces (part ++ List.replicate (spaces + 1) ' ' ++ rest) (part :: parts)

theorem quotesClosed_cons (c : Char) (rest : List Char) :
    QuotesClosed (c :: rest) ↔ if c = doubleQuote then ¬ QuotesClosed rest else QuotesClosed rest := by
  unfold QuotesClosed
  split_ifs with hquote
  · rw [hquote, List.count_cons_self]
    omega
  · rw [List.count_cons_of_ne hquote]

/-- Spaces hold no quotes. -/
theorem quotesClosed_spaces (before rest : List Char) (spaces : Nat) :
    QuotesClosed (before ++ (List.replicate spaces ' ' ++ rest)) ↔ QuotesClosed (before ++ rest) := by
  have hspaces : (List.replicate spaces ' ').count doubleQuote = 0 := by
    rw [List.count_replicate, if_neg (by decide)]
  unfold QuotesClosed
  simp only [List.count_append, hspaces, Nat.zero_add]

theorem undivided_cons_iff {c : Char} {part behind : List Char} :
    Undivided (c :: part) behind ↔
      ¬(c = ' ' ∧ QuotesClosed (part ++ behind)) ∧ Undivided part behind := by
  constructor
  · intro h
    refine ⟨?_, fun before after hpart => h (c :: before) after (by rw [hpart]; rfl)⟩
    rintro ⟨rfl, hclosed⟩
    exact h [] part rfl hclosed
  · rintro ⟨hfirst, hpart⟩ before after hcons
    cases before with
    | nil =>
      obtain ⟨rfl, rfl⟩ := List.cons.inj hcons
      exact fun hclosed => hfirst ⟨rfl, hclosed⟩
    | cons b before => exact hpart before after (List.cons.inj hcons).2

theorem undivided_nil (behind : List Char) : Undivided [] behind := by
  intro before after h
  cases before <;> cases h

/-- **Every text can be cut.** -/
theorem exists_cutAtSpaces (text : List Char) : ∃ parts, CutAtSpaces text parts := by
  induction text with
  | nil => exact ⟨[[]], .whole (undivided_nil [])⟩
  | cons c text ih =>
    obtain ⟨parts, hcut⟩ := ih
    by_cases hsep : c = ' ' ∧ QuotesClosed text
    · obtain ⟨rfl, hclosed⟩ := hsep
      by_cases hnext : text.head? = some ' '
      -- the space joins the cut that the rest begins with
      · cases hcut with
        | @whole part hpart =>
          obtain ⟨rest, rfl⟩ := List.head?_eq_some_iff.mp hnext
          rw [undivided_cons_iff, List.append_nil] at hpart
          exact absurd ⟨rfl, (quotesClosed_cons ' ' rest).mp hclosed⟩ hpart.1
        | @cut part rest parts spaces hpart hrest hhead hcut =>
          cases part with
          | nil => exact ⟨_, .cut (spaces + 1) hpart hrest hhead hcut⟩
          | cons b part =>
            obtain rfl : b = ' ' := Option.some.inj hnext
            rw [List.append_assoc, List.cons_append, quotesClosed_cons, if_neg (by decide),
              quotesClosed_spaces] at hclosed
            exact absurd ⟨rfl, hclosed⟩ (undivided_cons_iff.mp hpart).1
      · exact ⟨_, .cut 0 (undivided_nil text) hclosed hnext hcut⟩
    -- a character that does not separate belongs to the first part
    · cases hcut with
      | whole hpart =>
        refine ⟨_, .whole (undivided_cons_iff.mpr ⟨?_, hpart⟩)⟩
        rwa [List.append_nil]
      | @cut part rest parts spaces hpart hrest hhead hcut =>
        refine ⟨_, .cut spaces (undivided_cons_iff.mpr ⟨?_, hpart⟩) hrest hhead hcut⟩
        rwa [List.append_assoc, quotesClosed_spaces] at hsep

/-! ### Tokens -/

theorem spacedParts_fst (cs : List Char) : (spacedParts cs).1 = decide (QuotesClosed cs) := by
  induction cs with
  | nil => rfl
  | cons c rest ih =>
    by_cases hsep : (c = ' ' && (spacedParts rest).1) = true
    · obtain ⟨hspace, heven⟩ := Bool.and_eq_true_iff.mp hsep
      obtain rfl := of_decide_eq_true hspace
      rw [ih, decide_eq_true_iff] at heven
      have hcons := (quotesClosed_cons ' ' rest).mpr heven
      simp [spacedParts, ih, heven, hcons]
    · rw [spacedParts_cons c rest (Bool.eq_false_iff.mpr hsep), ih]
      simp only [quotesClosed_cons]
      split_ifs <;> simp

/-- What no space divides stays together. -/
theorem spacedParts_of_undivided {part behind : List Char} (h : Undivided part behind) :
    (spacedParts (part ++ behind)).2 = glue part (spacedParts behind).2 := by
  induction part with
  | nil => rw [List.nil_append, glue_nil (spacedParts_ne_nil behind)]
  | cons c part ih =>
    obtain ⟨hfirst, hpart⟩ := undivided_cons_iff.mp h
    have hkeep : (c = ' ' && (spacedParts (part ++ behind)).1) = false := by
      rw [spacedParts_fst, Bool.eq_false_iff]
      intro hsep
      apply hfirst
      simpa using hsep
    rw [List.cons_append, spacedParts_cons c _ hkeep]
    simp only [ih hpart, glue_append, List.cons_append, List.nil_append]

/-- **The tokens of a group are the parts that are not blank**, in whatever way it is cut. -/
theorem CutAtSpaces.tokens_eq {group : List Char} {parts : List (List Char)}
    (h : CutAtSpaces (strip group) parts) :
    tokens group = parts.filter fun part => !isBlank part := by
  rw [tokens]
  generalize strip group = text at h
  induction h with
  | @whole part hpart =>
    have hparts := spacedParts_of_undivided hpart
    rw [List.append_nil] at hparts
    simp [hparts, spacedParts, glue]
  | @cut part rest parts spaces hpart hclosed _ _ ih =>
    have hspaces := @spacedParts_spaces rest (by rw [spacedParts_fst, decide_eq_true hclosed])
      (spaces + 1)
    have hbehind : Undivided part (List.replicate (spaces + 1) ' ' ++ rest) := by
      intro before after heq
      rw [quotesClosed_spaces]
      exact hpart before after heq
    have hparts := spacedParts_of_undivided hbehind
    rw [List.append_assoc, hparts, hspaces, List.replicate_succ, List.cons_append, glue,
      List.append_nil, List.filter_cons, List.filter_cons, List.filter_append, ih]
    -- between the spaces of a cut stand empty parts
    have hempty : (List.replicate spaces ([] : List Char)).filter (fun part => !isBlank part) = [] :=
      List.filter_eq_nil_iff.mpr fun part hmem => by simp [List.eq_of_mem_replicate hmem, isBlank]
    rw [hempty, List.nil_append]

/-! ### Terms -/

/-- A token consists of the pattern of a term, which is not empty, and the marks of its kind; the
pattern may stand between double quotes. -/
def Term.SpelledBy (term : Term) (token : List Char) : Prop :=
  term.pattern ≠ [] ∧
    (token = term.written ∨ token = term.kind.opening ++ (term.pattern ++ term.kind.closing))

theorem Term.spelledBy_of_ofToken? {token : List Char} {term : Term}
    (h : Term.ofToken? token = some term) : term.SpelledBy token ∧ '\n' ∉ term.pattern := by
  rw [ofToken?, Option.or_eq_some_iff] at h
  have hread : ∀ pattern? : TermKind → Option (List Char),
      (TermKind.all.findSome? fun kind => (pattern? kind).map (Term.mk kind)) = some term →
        pattern? term.kind = some term.pattern := by
    intro pattern? hfound
    obtain ⟨kind, -, hkind⟩ := List.exists_of_findSome?_eq_some hfound
    obtain ⟨pattern, hpattern, rfl⟩ := Option.map_eq_some_iff.mp hkind
    exact hpattern
  rcases h with hquoted | ⟨-, hbare⟩
  · have hpattern := hread _ hquoted
    rw [TermKind.quotedPattern?, between?_eq_some_iff] at hpattern
    obtain ⟨htoken, hne, hbreak⟩ := hpattern
    refine ⟨⟨hne, Or.inl ?_⟩, hbreak⟩
    rw [htoken, Term.written_eq]
    simp
  · have hpattern := hread _ hbare
    rw [TermKind.barePattern?, between?_eq_some_iff] at hpattern
    exact ⟨⟨hpattern.2.1, Or.inr hpattern.1⟩, hpattern.2.2⟩

theorem TermKind.lineBreak_notMem_marks (kind : TermKind) :
    '\n' ∉ kind.opening ∧ '\n' ∉ kind.closing := by
  cases kind <;> decide

/-- **A token spells a term exactly if it has no line break.** -/
theorem exists_ofToken?_iff {token : List Char} (h : token ≠ []) :
    (∃ term, Term.ofToken? token = some term) ↔ '\n' ∉ token := by
  constructor
  · rintro ⟨term, hterm⟩
    obtain ⟨⟨-, hspelled⟩, hbreak⟩ := Term.spelledBy_of_ofToken? hterm
    obtain ⟨hopening, hclosing⟩ := term.kind.lineBreak_notMem_marks
    have hquote : '\n' ≠ doubleQuote := by decide
    rcases hspelled with rfl | rfl
    · rw [Term.written_eq]
      simp [hopening, hclosing, hbreak, hquote]
    · simp [hopening, hclosing, hbreak]
  · intro hbreak
    -- at the latest it is a fuzzy term without quotes
    have hfuzzy : TermKind.fuzzy.barePattern? token = some token := by
      rw [TermKind.barePattern?, between?_eq_some_iff]
      exact ⟨by simp [TermKind.opening, TermKind.closing], h, hbreak⟩
    apply Option.isSome_iff_exists.mp
    rw [Term.ofToken?, Option.isSome_or, Bool.or_eq_true]
    apply Or.inr
    rw [List.findSome?_isSome_iff]
    exact ⟨.fuzzy, by decide, by rw [hfuzzy]; rfl⟩

/-- The terms of some tokens are those of the tokens without line breaks, one for each. -/
theorem forall₂_terms {tokens : List (List Char)} (h : ∀ token ∈ tokens, token ≠ []) :
    List.Forall₂ (fun token term => term.SpelledBy token)
      (tokens.filter fun token => !token.contains '\n') (tokens.filterMap Term.ofToken?) := by
  induction tokens with
  | nil => exact .nil
  | cons token tokens ih =>
    obtain ⟨hne, hrest⟩ := List.forall_mem_cons.mp h
    by_cases hbreak : '\n' ∈ token
    · have hnone : Term.ofToken? token = none := by
        apply Option.eq_none_iff_forall_ne_some.mpr
        intro term hterm
        exact (exists_ofToken?_iff hne).mp ⟨term, hterm⟩ hbreak
      rw [List.filterMap_cons_none hnone, List.filter_cons_of_neg (by simpa using hbreak)]
      exact ih hrest
    · obtain ⟨term, hterm⟩ := (exists_ofToken?_iff hne).mpr hbreak
      rw [List.filterMap_cons_some hterm, List.filter_cons_of_pos (by simpa using hbreak)]
      exact .cons (Term.spelledBy_of_ofToken? hterm).1 (ih hrest)

/-- **No token without a line break is dropped from a query.**  The groups of a query stand between
its bars.  Each of them, without the blanks at its ends, can be cut at its separating spaces; and
the terms of the group are those that its tokens without line breaks spell, one for each of them and
in their order.  So there are as many terms as tokens exactly if no token has a line break. -/
theorem terms_of_query (query : List Char) :
    List.Forall₂ (fun group terms =>
      (∃ parts, CutAtSpaces (strip group) parts) ∧
        ∀ parts, CutAtSpaces (strip group) parts →
          let tokens := parts.filter fun part => !isBlank part
          List.Forall₂ (fun token term => term.SpelledBy token)
              (tokens.filter fun token => !token.contains '\n') terms ∧
            (terms.length = tokens.length ↔ ∀ token ∈ tokens, '\n' ∉ token))
      (splitAt '|' query) (termGroups query) := by
  rw [termGroups, List.forall₂_map_right_iff, List.forall₂_same]
  intro group _
  refine ⟨exists_cutAtSpaces _, ?_⟩
  intro parts hcut tokens
  have hne : ∀ token ∈ tokens, token ≠ [] := by
    rintro token htoken rfl
    simp [tokens, isBlank] at htoken
  have hterms := forall₂_terms hne
  rw [groupTerms, hcut.tokens_eq]
  refine ⟨hterms, ?_⟩
  rw [← hterms.length_eq, List.length_filter_eq_length_iff]
  simp

/-- A line break in a token leaves its group with one term less: what is asked for besides the first
word is not looked at. -/
theorem term_lost_at_line_break :
    let query := "kiwi plum\nfig".toList
    CutAtSpaces (strip query) ["kiwi".toList, "plum\nfig".toList] ∧
      isBlank "kiwi".toList = false ∧ isBlank "plum\nfig".toList = false ∧
      splitAt '|' query = [query] ∧ termGroups query = [[⟨.fuzzy, "kiwi".toList⟩]] := by
  intro query
  have hword : ∀ word behind : List Char, ' ' ∉ word → Undivided word behind := by
    rintro word behind hword before after rfl
    simp at hword
  refine ⟨?_, by decide, by decide, by decide, by decide⟩
  exact .cut 0 (hword "kiwi".toList _ (by decide)) (by decide) (by decide)
    (.whole (hword "plum\nfig".toList [] (by decide)))

end FuzzySearch
