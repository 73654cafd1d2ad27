import FuzzySearch.Proofs.Pattern.Meaning

/-!
# Written queries

A term can be written with its pattern between double quotes (`Term.written`), a group by its terms
with spaces between them, and a query by its groups with bars between them and blanks around each
(`WrittenGroup`, `WrittenQuery`).  Reading gives the groups back, whatever stands in the patterns
apart from double quotes, bars and line breaks (`termGroups_of_written`):

* the bars are those between groups, and the blanks around a group are stripped;
* the spaces between terms have an even number of double quotes behind them and those inside a
  pattern an odd one, so the tokens of a group are its written terms (`tokens_of_writtenGroup`);
* a written term has two double quotes, so what stands before, between and behind them is its
  opening mark, its pattern and its closing mark, and no other kind of term reads the token
  (`quotedPattern?_written`).
-/

namespace FuzzySearch

open Text

/-! ### Writing -/

/-- A term with its pattern between double quotes. -/
def Term.written (term : Term) : List Char :=
  let quoted := doubleQuote :: term.pattern ++ [doubleQuote]
  match term.kind with
  | .equals => '=' :: quoted
  | .includes => singleQuote :: quoted
  | .startsWith => '^' :: quoted
  | .startsNotWith => '!' :: '^' :: quoted
  | .endsNotWith => '!' :: quoted ++ ['$']
  | .endsWith => quoted ++ ['$']
  | .excludes => '!' :: quoted
  | .fuzzy => quoted

/-- A term whose pattern can stand between double quotes. -/
structure Term.Writable (term : Term) : Prop where
  pattern_ne_nil : term.pattern ≠ []
  no_quote : doubleQuote ∉ term.pattern
  no_bar : '|' ∉ term.pattern
  no_break : '\n' ∉ term.pattern

instance (term : Term) : Decidable term.Writable :=
  decidable_of_iff (term.pattern ≠ [] ∧ doubleQuote ∉ term.pattern ∧ '|' ∉ term.pattern ∧
      '\n' ∉ term.pattern)
    ⟨fun ⟨hne, hquote, hbar, hbreak⟩ => ⟨hne, hquote, hbar, hbreak⟩,
      fun ⟨hne, hquote, hbar, hbreak⟩ => ⟨hne, hquote, hbar, hbreak⟩⟩

/-- The terms of a group, written with one or more spaces between them. -/
inductive WrittenGroup : List Term → List Char → Prop
  | single (term : Term) : WrittenGroup [term] term.written
  | cons (term : Term) (spaces : Nat) {terms : List Term} {text : List Char} :
      WrittenGroup terms text →
      WrittenGroup (term :: terms) (term.written ++ List.replicate (spaces + 1) ' ' ++ text)

/-- The groups of a query, written with bars between them and any blanks around each group. -/
inductive WrittenQuery : List (List Term) → List Char → Prop
  | single {terms : List Term} {before text after : List Char} :
      isBlank before = true → WrittenGroup terms text → isBlank after = true →
      WrittenQuery [terms] (before ++ text ++ after)
  | cons {terms : List Term} {before text after : List Char} {groups : List (List Term)}
      {query : List Char} :
      isBlank before = true → WrittenGroup terms text → isBlank after = true →
      WrittenQuery groups query →
      WrittenQuery (terms :: groups) (before ++ text ++ after ++ '|' :: query)

/-! ### Reading a term -/

theorem Term.written_eq (term : Term) :
    term.written
      = term.kind.opening ++ doubleQuote :: (term.pattern ++ doubleQuote :: term.kind.closing) := by
  obtain ⟨kind, pattern⟩ := term
  cases kind <;> simp [written, TermKind.opening, TermKind.closing]

theorem TermKind.doubleQuote_notMem_opening (kind : TermKind) : doubleQuote ∉ kind.opening := by
  cases kind <;> decide

theorem TermKind.doubleQuote_notMem_closing (kind : TermKind) : doubleQuote ∉ kind.closing := by
  cases kind <;> decide

/-- A kind is told from its marks. -/
theorem TermKind.eq_of_marks {kind kind' : TermKind} (hopening : kind.opening = kind'.opening)
    (hclosing : kind.closing = kind'.closing) : kind = kind' := by
  revert hopening hclosing
  cases kind <;> cases kind' <;> decide

theorem between?_append (opening body closing : List Char) :
    between? opening closing (opening ++ (body ++ closing))
      = if body.isEmpty || body.contains '\n' then none else some body := by
  simp [between?]

/-- What stands between two marks. -/
theorem between?_eq_some_iff {opening closing token body : List Char} :
    between? opening closing token = some body ↔
      token = opening ++ (body ++ closing) ∧ body ≠ [] ∧ '\n' ∉ body := by
  have hbetween : ∀ found, (if found.isEmpty || found.contains '\n' then none else some found)
      = some body ↔ found = body ∧ body ≠ [] ∧ '\n' ∉ body := by
    intro found
    rw [Option.ite_none_left_eq_some, Option.some_inj]
    constructor
    · rintro ⟨h, rfl⟩
      simpa using h
    · rintro ⟨rfl, h⟩
      simpa using h
  constructor
  · intro h
    -- without both marks nothing stands between them
    have hopening : opening.isPrefixOf token = true := by
      by_contra hno
      simp [between?, hno] at h
    obtain ⟨rest, rfl⟩ := List.isPrefixOf_iff_prefix.mp hopening
    have hclosing : closing.isSuffixOf rest = true := by
      by_contra hno
      simp [between?, hno] at h
    obtain ⟨found, rfl⟩ := List.isSuffixOf_iff_suffix.mp hclosing
    rw [between?_append, hbetween] at h
    exact ⟨by rw [h.1], h.2⟩
  · rintro ⟨rfl, hbody⟩
    rw [between?_append, hbetween]
    exact ⟨rfl, hbody⟩

/-- **No kind of term reads what another kind has written.** -/
theorem quotedPattern?_written {term : Term} (h : term.Writable) (kind : TermKind) :
    kind.quotedPattern? term.written = if kind = term.kind then some term.pattern else none := by
  have hread : ∀ body, kind.quotedPattern? term.written = some body ↔
      kind = term.kind ∧ body = term.pattern := by
    intro body
    rw [TermKind.quotedPattern?, between?_eq_some_iff, Term.written_eq]
    constructor
    · rintro ⟨heq, -, -⟩
      -- both sides are cut at their double quotes
      have hpieces := congrArg (splitAt doubleQuote) heq
      simp only [List.append_assoc, List.cons_append, List.nil_append, splitAt_append_cons,
        splitAt_of_notMem (TermKind.doubleQuote_notMem_opening _),
        splitAt_of_notMem (TermKind.doubleQuote_notMem_closing _),
        splitAt_of_notMem h.no_quote] at hpieces
      obtain ⟨hopening, hrest⟩ := List.cons_eq_cons.mp hpieces
      have hparts : [term.pattern] ++ [term.kind.closing]
          = splitAt doubleQuote body ++ [kind.closing] := hrest
      obtain ⟨hpattern, hclosing⟩ := List.append_inj' hparts rfl
      refine ⟨TermKind.eq_of_marks hopening.symm (List.cons.inj hclosing).1.symm, ?_⟩
      rw [← join_splitAt doubleQuote body, ← hpattern]
      simp
    · rintro ⟨rfl, rfl⟩
      exact ⟨by simp, h.pattern_ne_nil, h.no_break⟩
  split_ifs with hkind
  · exact (hread _).mpr ⟨hkind, rfl⟩
  · exact Option.eq_none_iff_forall_ne_some.mpr fun body hbody => hkind ((hread body).mp hbody).1

/-- A written term is read back. -/
theorem ofToken?_written {term : Term} (h : term.Writable) :
    Term.ofToken? term.written = some term := by
  have hquoted : (TermKind.all.findSome? fun kind =>
      (kind.quotedPattern? term.written).map (Term.mk kind)) = some term := by
    simp only [quotedPattern?_written h]
    obtain ⟨kind, pattern⟩ := term
    cases kind <;> rfl
  rw [Term.ofToken?, hquoted, Option.some_or]

/-! ### Reading a group -/

/-- Characters put before the first of some parts. -/
def glue (cs : List Char) : List (List Char) → List (List Char)
  | [] => [cs]
  | part :: more => (cs ++ part) :: more

theorem spacedParts_ne_nil (cs : List Char) : (spacedParts cs).2 ≠ [] := by
  cases cs with
  | nil => simp [spacedParts]
  | cons c rest =>
    rw [spacedParts]
    rcases spacedParts rest with ⟨even, _ | ⟨part, more⟩⟩ <;> dsimp only <;> split_ifs <;> simp

theorem glue_nil {parts : List (List Char)} (h : parts ≠ []) : glue [] parts = parts := by
  cases parts with
  | nil => exact absurd rfl h
  | cons part more => rfl

theorem glue_append (cs cs' : List Char) (parts : List (List Char)) :
    glue cs (glue cs' parts) = glue (cs ++ cs') parts := by
  cases parts <;> simp [glue]

/-- A character that separates nothing is put before the first part. -/
theorem spacedParts_cons (c : Char) (rest : List Char)
    (h : (c = ' ' && (spacedParts rest).1) = false) :
    spacedParts (c :: rest)
      = ((if c = doubleQuote then !(spacedParts rest).1 else (spacedParts rest).1),
          glue [c] (spacedParts rest).2) := by
  rw [spacedParts]
  simp only [h, Bool.false_eq_true, if_false]
  cases (spacedParts rest).2 <;> rfl

/-- Spaces separate when the number of double quotes behind them is even. -/
theorem spacedParts_spaces {rest : List Char} (h : (spacedParts rest).1 = true) (n : Nat) :
    spacedParts (List.replicate n ' ' ++ rest)
      = (true, List.replicate n [] ++ (spacedParts rest).2) := by
  induction n with
  | zero => rw [← h]; rfl
  | succ n ih =>
    rw [List.replicate_succ, List.cons_append, spacedParts, ih]
    rfl

/-- Characters without double quotes stay together unless a space among them separates. -/
theorem spacedParts_append {cs rest : List Char} (hquote : doubleQuote ∉ cs)
    (hspace : (spacedParts rest).1 = true → ' ' ∉ cs) :
    spacedParts (cs ++ rest) = ((spacedParts rest).1, glue cs (spacedParts rest).2) := by
  induction cs with
  | nil => rw [List.nil_append, glue_nil (spacedParts_ne_nil rest)]
  | cons c cs ih =>
    rw [List.mem_cons, not_or] at hquote
    have hrest := ih hquote.2 fun heven hmem => hspace heven (List.mem_cons_of_mem c hmem)
    have hkeep : (c = ' ' && (spacedParts (cs ++ rest)).1) = false := by
      rw [hrest]
      by_contra hsep
      simp only [Bool.not_eq_false, Bool.and_eq_true, decide_eq_true_eq] at hsep
      exact hspace hsep.2 (hsep.1 ▸ List.mem_cons_self)
    rw [List.cons_append, spacedParts_cons c _ hkeep, hrest, if_neg (Ne.symm hquote.1), glue_append]
    rfl

theorem TermKind.space_notMem_opening (kind : TermKind) : ' ' ∉ kind.opening := by
  cases kind <;> decide

theorem TermKind.space_notMem_closing (kind : TermKind) : ' ' ∉ kind.closing := by
  cases kind <;> decide

/-- **A written term is one part**, whatever spaces its pattern has. -/
theorem spacedParts_written {term : Term} (h : term.Writable) {rest : List Char}
    (heven : (spacedParts rest).1 = true) :
    spacedParts (term.written ++ rest) = (true, glue term.written (spacedParts rest).2) := by
  have hquote : ∀ cs, spacedParts (doubleQuote :: cs)
      = (!(spacedParts cs).1, glue [doubleQuote] (spacedParts cs).2) := by
    intro cs
    rw [spacedParts_cons doubleQuote cs rfl, if_pos rfl]
  have hclosing := @spacedParts_append term.kind.closing rest
    (TermKind.doubleQuote_notMem_closing _) fun _ => TermKind.space_notMem_closing _
  -- an odd number of quotes is behind the pattern
  have hpattern := @spacedParts_append term.pattern (doubleQuote :: (term.kind.closing ++ rest))
    h.no_quote (by rw [hquote, hclosing, heven]; exact fun hodd => Bool.noConfusion hodd)
  have hopening := @spacedParts_append term.kind.opening
    (doubleQuote :: (term.pattern ++ doubleQuote :: (term.kind.closing ++ rest)))
    (TermKind.doubleQuote_notMem_opening _) fun _ => TermKind.space_notMem_opening _
  rw [Term.written_eq]
  simp only [List.append_assoc, List.cons_append]
  rw [hopening, hquote, hpattern, hquote, hclosing, heven]
  simp only [glue_append, List.cons_append, List.nil_append, Bool.not_not]

theorem isBlank_written (term : Term) : isBlank term.written = false := by
  have hquote : doubleQuote ∈ term.written := by
    rw [Term.written_eq]
    simp
  exact List.all_eq_false.mpr ⟨doubleQuote, hquote, by decide⟩

/-- The parts of a written group that are not blank are its written terms. -/
theorem spacedParts_writtenGroup {terms : List Term} {text : List Char}
    (h : WrittenGroup terms text) (hwritable : ∀ term ∈ terms, term.Writable) :
    (spacedParts text).1 = true ∧
      ((spacedParts text).2.filter fun part => !isBlank part) = terms.map Term.written := by
  induction h with
  | single term =>
    have hparts := @spacedParts_written term (hwritable term List.mem_cons_self) [] rfl
    rw [List.append_nil] at hparts
    rw [hparts]
    simp [glue, spacedParts, isBlank_written]
  | @cons term spaces terms text hgroup ih =>
    obtain ⟨heven, hterms⟩ := ih fun t ht => hwritable t (List.mem_cons_of_mem term ht)
    have hspaces := spacedParts_spaces heven (spaces + 1)
    have hparts := @spacedParts_written term (hwritable term List.mem_cons_self)
      (List.replicate (spaces + 1) ' ' ++ text) (by rw [hspaces])
    rw [List.append_assoc, hparts, hspaces]
    -- the spaces leave blank parts behind the term
    have hblank : isBlank [] = true := rfl
    simp [glue, List.replicate_succ, isBlank_written, hblank, hterms]

/-! ### Stripping -/

theorem dropWhile_isBlankChar {blanks cs : List Char} (hblanks : isBlank blanks = true)
    (hcs : ∃ c ∈ cs.head?, isBlankChar c = false) :
    (blanks ++ cs).dropWhile isBlankChar = cs := by
  obtain ⟨c, hc, hword⟩ := hcs
  obtain ⟨rest, rfl⟩ := List.head?_eq_some_iff.mp hc
  rw [List.dropWhile_append_of_pos fun b hb => List.all_eq_true.mp hblanks b hb,
    List.dropWhile_cons_of_neg (by rw [hword]; exact Bool.false_ne_true)]

/-- Blanks around a text are stripped. -/
theorem strip_append {before text after : List Char} (hbefore : isBlank before = true)
    (hafter : isBlank after = true) (hfirst : ∃ c ∈ text.head?, isBlankChar c = false)
    (hlast : ∃ c ∈ text.getLast?, isBlankChar c = false) :
    strip (before ++ text ++ after) = text := by
  have hhead : ∃ c ∈ (text ++ after).head?, isBlankChar c = false := by
    obtain ⟨c, hc, hword⟩ := hfirst
    exact ⟨c, by rw [List.head?_append, hc]; rfl, hword⟩
  have hreverse : isBlank after.reverse = true := by
    rw [isBlank, List.all_reverse]
    exact hafter
  rw [List.getLast?_eq_head?_reverse] at hlast
  rw [strip, stripEnd, List.append_assoc, dropWhile_isBlankChar hbefore hhead, List.reverse_append,
    dropWhile_isBlankChar hreverse hlast, List.reverse_reverse]

theorem exists_head?_written (term : Term) :
    ∃ c ∈ term.written.head?, isBlankChar c = false := by
  obtain ⟨kind, pattern⟩ := term
  cases kind <;> exact ⟨_, rfl, by decide⟩

theorem exists_getLast?_written (term : Term) :
    ∃ c ∈ term.written.getLast?, isBlankChar c = false := by
  have hclosing : ∃ c ∈ (doubleQuote :: term.kind.closing).getLast?, isBlankChar c = false := by
    cases term.kind <;> exact ⟨_, rfl, by decide⟩
  obtain ⟨c, hc, hword⟩ := hclosing
  refine ⟨c, ?_, hword⟩
  rw [Term.written_eq, ← List.cons_append, ← List.append_assoc, List.getLast?_append, hc]
  rfl

/-- A written group neither begins nor ends with a blank. -/
theorem exists_ends_writtenGroup {terms : List Term} {text : List Char}
    (h : WrittenGroup terms text) :
    (∃ c ∈ text.head?, isBlankChar c = false) ∧ ∃ c ∈ text.getLast?, isBlankChar c = false := by
  induction h with
  | single term => exact ⟨exists_head?_written term, exists_getLast?_written term⟩
  | cons term spaces hgroup ih =>
    obtain ⟨first, hfirst, hfirstword⟩ := exists_head?_written term
    obtain ⟨last, hlast, hlastword⟩ := ih.2
    refine ⟨⟨first, ?_, hfirstword⟩, last, ?_, hlastword⟩
    · rw [List.append_assoc, List.head?_append, hfirst]
      rfl
    · rw [List.getLast?_append, hlast]
      rfl

/-- **The tokens of a written group are its written terms.** -/
theorem tokens_of_writtenGroup {terms : List Term} {before text after : List Char}
    (h : WrittenGroup terms text) (hwritable : ∀ term ∈ terms, term.Writable)
    (hbefore : isBlank before = true) (hafter : isBlank after = true) :
    tokens (before ++ text ++ after) = terms.map Term.written := by
  obtain ⟨hfirst, hlast⟩ := exists_ends_writtenGroup h
  rw [tokens, strip_append hbefore hafter hfirst hlast]
  exact (spacedParts_writtenGroup h hwritable).2

theorem groupTerms_of_writtenGroup {terms : List Term} {before text after : List Char}
    (h : WrittenGroup terms text) (hwritable : ∀ term ∈ terms, term.Writable)
    (hbefore : isBlank before = true) (hafter : isBlank after = true) :
    groupTerms (before ++ text ++ after) = terms := by
  rw [groupTerms, tokens_of_writtenGroup h hwritable hbefore hafter, List.filterMap_map]
  calc terms.filterMap (Term.ofToken? ∘ Term.written)
      = terms.filterMap some :=
        List.filterMap_congr fun term hterm => ofToken?_written (hwritable term hterm)
    _ = terms := List.filterMap_some

/-! ### Reading a query -/

theorem bar_notMem_written {term : Term} (h : term.Writable) : '|' ∉ term.written := by
  have hmarks : ∀ kind : TermKind, '|' ∉ kind.opening ∧ '|' ∉ kind.closing := by
    intro kind
    cases kind <;> decide
  have hquote : '|' ≠ doubleQuote := by decide
  simp [Term.written_eq, hmarks term.kind, hquote, h.no_bar]

theorem bar_notMem_writtenGroup {terms : List Term} {text : List Char}
    (h : WrittenGroup terms text) (hwritable : ∀ term ∈ terms, term.Writable) : '|' ∉ text := by
  induction h with
  | single term => exact bar_notMem_written (hwritable term List.mem_cons_self)
  | cons term spaces hgroup ih =>
    have hterm := bar_notMem_written (hwritable term List.mem_cons_self)
    have hrest := ih fun t ht => hwritable t (List.mem_cons_of_mem term ht)
    simp [hterm, hrest]

theorem bar_notMem_blanks {blanks : List Char} (h : isBlank blanks = true) : '|' ∉ blanks := by
  intro hmem
  have hblank := List.all_eq_true.mp h '|' hmem
  exact absurd hblank (by decide)

/-- **Reading a written query gives its groups back.** -/
theorem termGroups_of_written {groups : List (List Term)} {query : List Char}
    (h : WrittenQuery groups query)
    (hwritable : ∀ terms ∈ groups, ∀ term ∈ terms, term.Writable) :
    termGroups query = groups := by
  have hbar : ∀ {terms : List Term} {before text after : List Char}, isBlank before = true →
      WrittenGroup terms text → isBlank after = true → (∀ term ∈ terms, term.Writable) →
        '|' ∉ before ++ text ++ after := by
    intro terms before text after hbefore hgroup hafter hterms
    simp [bar_notMem_blanks hbefore, bar_notMem_blanks hafter,
      bar_notMem_writtenGroup hgroup hterms]
  induction h with
  | single hbefore hgroup hafter =>
    have hterms := hwritable _ List.mem_cons_self
    rw [termGroups, splitAt_of_notMem (hbar hbefore hgroup hafter hterms), List.map_singleton,
      groupTerms_of_writtenGroup hgroup hterms hbefore hafter]
  | cons hbefore hgroup hafter hquery ih =>
    have hterms := hwritable _ List.mem_cons_self
    have hrest := ih fun terms hmem => hwritable terms (List.mem_cons_of_mem _ hmem)
    rw [termGroups, splitAt_append_cons, splitAt_of_notMem (hbar hbefore hgroup hafter hterms),
      List.map_append, List.map_singleton,
      groupTerms_of_writtenGroup hgroup hterms hbefore hafter]
    exact congrArg (_ :: ·) hrest

/-! ### What a written query matches -/

theorem WrittenGroup.ne_nil {terms : List Term} {text : List Char} (h : WrittenGroup terms text) :
    terms ≠ [] := by
  cases h <;> exact List.cons_ne_nil _ _

theorem WrittenQuery.ne_nil {groups : List (List Term)} {query : List Char}
    (h : WrittenQuery groups query) : ∀ terms ∈ groups, terms ≠ [] := by
  induction h with
  | single _ hgroup _ => simpa using hgroup.ne_nil
  | cons _ hgroup _ _ ih => simpa using ⟨hgroup.ne_nil, ih⟩

/-- **A written query means what it says**: it is read as its groups, and if letter case counts it
matches the texts that all terms of some group hold of. -/
theorem written_query {α : Type} [ScoreNumber α] {groups : List (List Term)} {query : List Char}
    (h : WrittenQuery groups query)
    (hwritable : ∀ terms ∈ groups, ∀ term ∈ terms, term.Writable) :
    termGroups query = groups ∧
      ∀ options : MatchOptions α, options.caseSensitive = true → ∀ text,
        ((TermQuery.ofLetters query options).matchLetters text).isMatch = true ↔
          ∃ terms ∈ groups, ∀ term ∈ terms, term.Holds options text := by
  have hgroups := termGroups_of_written h hwritable
  refine ⟨hgroups, fun options hcase text => ?_⟩
  have hread : (TermQuery.ofLetters query options).groups = groups := by
    rw [TermQuery.ofLetters, hcase]
    exact hgroups
  have hmatch := @TermQuery.isMatch_iff_holds α _ (TermQuery.ofLetters query options) hcase
  rw [hread] at hmatch
  exact hmatch (fun terms hterms => ⟨h.ne_nil terms hterms,
    fun term hterm => (hwritable terms hterms term hterm).pattern_ne_nil⟩) text

/-- Spaces and marks inside a pattern are part of it. -/
theorem written_query_with_marks_inside :
    let groups : List (List Term) :=
      [[⟨.startsWith, "core".toList⟩, ⟨.endsWith, "go !x".toList⟩], [⟨.fuzzy, "= ^r".toList⟩]]
    let query := "^\"core\"  \"go !x\"$ | \"= ^r\"".toList
    let options : MatchOptions Rat := { MatchOptions.standard with caseSensitive := true }
    WrittenQuery groups query ∧ (∀ terms ∈ groups, ∀ term ∈ terms, term.Writable) ∧
      termGroups query = groups ∧
      ((TermQuery.ofLetters query options).matchLetters "core = go !x".toList).isMatch = true := by
  intro groups query options
  have hquery : query = [] ++ (Term.written ⟨.startsWith, "core".toList⟩ ++ List.replicate 2 ' ' ++
      Term.written ⟨.endsWith, "go !x".toList⟩) ++ [' '] ++
        '|' :: ([' '] ++ Term.written ⟨.fuzzy, "= ^r".toList⟩ ++ []) := by decide +kernel
  have hwritten : WrittenQuery groups query := by
    rw [hquery]
    exact .cons rfl (.cons _ 1 (.single _)) rfl (.single rfl (.single _) rfl)
  have hwritable : ∀ terms ∈ groups, ∀ term ∈ terms, term.Writable := by decide +kernel
  obtain ⟨hgroups, hmatch⟩ := @written_query Rat _ _ _ hwritten hwritable
  refine ⟨hwritten, hwritable, hgroups, (hmatch options rfl _).mpr ⟨_, List.mem_cons_self, ?_⟩⟩
  have hprefix : "core".toList <+: "core = go !x".toList := by decide +kernel
  have hsuffix : "go !x".toList <:+ "core = go !x".toList := by decide +kernel
  intro term hterm
  rcases List.mem_cons.mp hterm with rfl | hterm
  · exact hprefix
  · obtain rfl := List.mem_singleton.mp hterm
    exact hsuffix

end FuzzySearch
