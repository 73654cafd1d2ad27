import FuzzySearch.Proofs.Bitap.Search

/-!
# What a search looks at

A scan looks at a match wherever it meets the whole pattern.  It accepts the match if its score
passes the threshold of that moment, and then the score is the new threshold; otherwise it goes on.
`looks` are the matches that a search looks at, in the order of its scan, and `acceptedLooks` those
that it accepts.

* `best_scanRows`: what a run of rows hands on follows from its looks.
* `foldl_follow`: the position and the threshold are those of the last look that was accepted, but
  the score is that of the last look of all.
* `score_of_match`: so the score of a match is that of the last accepted look only if no worse one
  came after it.
* `lastScore_le_one`: and a score above one is that of a refused look, near an expected position.
-/

namespace FuzzySearch.Bitap

open ScoreNumber Text

/-- A match that a scan meets: the errors of its row, and its position. -/
structure Look where
  errors : Nat
  position : Nat
  deriving DecidableEq, Repr

variable {α : Type} [ScoreNumber α]

def Problem.scoreOf (p : Problem) (look : Look) : α := p.score look.errors look.position

/-! ### The looks of a run -/

/-- The matches that a sweep from vector `j` down meets. -/
def sweepLooks (p : Problem) (errors : Nat) (hit : Nat → Bool) :
    (j : Nat) → (start : Nat) → Best α → List Look
  | 0, _, _ => []
  | j + 1, start, best =>
    if j + 1 < start then []
    else if hit (j + 1) then
      let score : α := p.score errors j
      ⟨errors, j⟩ ::
        if score ≤ best.threshold then
          if j ≤ p.expected then []
          else sweepLooks p errors hit j (max 1 (2 * p.expected - j)) ⟨score, some j, score⟩
        else sweepLooks p errors hit j start { best with score := score }
    else sweepLooks p errors hit j start best

/-- The matches that a row looks at. -/
def rowLooks (p : Problem) (errors : Nat) (s : Progress α) : List Look :=
  sweepLooks p errors (hitAt p (rowBits p errors s)) (finish p (rowReach p errors s))
    (start p (rowReach p errors s)) s.best

/-- The matches that some rows look at. -/
def runLooks (p : Problem) : (remaining errors : Nat) → Progress α → List Look
  | 0, _, _ => []
  | remaining + 1, errors, s =>
    rowLooks p errors s ++
      let next := scanRow p errors s
      if next.best.threshold < (p.score (errors + 1) p.expected : α) then []
      else runLooks p remaining (errors + 1) next

/-- The matches that a search looks at. -/
def looks (text pattern : List Char) (c : Criteria α) : List Look :=
  runLooks (problem text pattern c) pattern.length 0 (initial text pattern c)

/-- The looks that pass a threshold which each of them replaces by its score. -/
def accepting (p : Problem) : α → List Look → List Look
  | _, [] => []
  | threshold, look :: rest =>
    if p.scoreOf look ≤ threshold then look :: accepting p (p.scoreOf look) rest
    else accepting p threshold rest

/-- The score of the match that a search looks at last; one if it looks at none. -/
def lastScore (text pattern : List Char) (c : Criteria α) : α :=
  ((looks text pattern c).getLast?.map (problem text pattern c).scoreOf).getD one

/-- The matches that a search accepts. -/
def acceptedLooks (text pattern : List Char) (c : Criteria α) : List Look :=
  accepting (problem text pattern c) (exactThreshold text pattern c) (looks text pattern c)

/-! ### The best match follows from the looks -/

/-- The best match after one more look. -/
def follow (p : Problem) (best : Best α) (look : Look) : Best α :=
  if p.scoreOf look ≤ best.threshold then ⟨p.scoreOf look, some look.position, p.scoreOf look⟩
  else { best with score := p.scoreOf look }

theorem best_sweep (p : Problem) (errors : Nat) (hit : Nat → Bool) (j start : Nat)
    (best : Best α) :
    (sweep p errors hit j start best).1
      = (sweepLooks p errors hit j start best).foldl (follow p) best := by
  induction j generalizing start best with
  | zero => rfl
  | succ j ih =>
    rcases sweep_cases p errors hit j start best with h | ⟨h, hhit | ⟨hhit, hs⟩ | ⟨hhit, hs⟩⟩
    · rw [sweep_of_lt p errors hit best h, sweepLooks, if_pos h]
      rfl
    · rw [sweep_of_not_hit p errors hit best h hhit, sweepLooks, if_neg (Nat.not_lt.mpr h), hhit,
        if_neg Bool.false_ne_true]
      exact ih start best
    · have hfollow : follow p best ⟨errors, j⟩ = { best with score := p.score errors j } :=
        if_neg hs
      rw [sweep_of_rejected p errors hit best h hhit hs, sweepLooks, if_neg (Nat.not_lt.mpr h),
        hhit, if_pos rfl]
      simp only
      rw [if_neg hs, List.foldl_cons, hfollow]
      exact ih _ _
    · have hfollow : follow p best ⟨errors, j⟩ = ⟨p.score errors j, some j, p.score errors j⟩ :=
        if_pos hs
      rw [sweep_of_accepted p errors hit best h hhit hs, sweepLooks, if_neg (Nat.not_lt.mpr h),
        hhit, if_pos rfl]
      simp only
      rw [if_pos hs, List.foldl_cons, hfollow]
      split_ifs
      · rfl
      · exact ih _ _

theorem best_scanRow (p : Problem) (errors : Nat) (s : Progress α) :
    (scanRow p errors s).best = (rowLooks p errors s).foldl (follow p) s.best := by
  rw [scanRow_best]
  exact best_sweep ..

/-- **What rows hand on follows from their looks.** -/
theorem best_scanRows (p : Problem) (remaining errors : Nat) (s : Progress α) :
    (scanRows p remaining errors s).best
      = (runLooks p remaining errors s).foldl (follow p) s.best := by
  induction remaining generalizing errors s with
  | zero => rfl
  | succ remaining ih =>
    rw [scanRows_succ, runLooks, List.foldl_append, ← best_scanRow]
    simp only
    split_ifs
    · rfl
    · exact ih _ _

/-- **The position and the threshold are those of the last accepted look, the score is that of the
last look.** -/
theorem foldl_follow (p : Problem) (ks : List Look) (best : Best α) :
    ks.foldl (follow p) best =
      { threshold := ((accepting p best.threshold ks).getLast?.map p.scoreOf).getD best.threshold
        position := ((accepting p best.threshold ks).getLast?.map fun k => some k.position).getD
          best.position
        score := (ks.getLast?.map p.scoreOf).getD best.score } := by
  induction ks generalizing best with
  | nil => rfl
  | cons look rest ih =>
    rw [List.foldl_cons, ih, List.getLast?_cons, accepting, follow]
    split_ifs with hscore
    · rw [List.getLast?_cons]
      cases rest.getLast? <;> cases (accepting p (p.scoreOf look : α) rest).getLast? <;> rfl
    · cases rest.getLast? <;> rfl

theorem best_of_looks (text pattern : List Char) (c : Criteria α) :
    (final text pattern c).best =
      { threshold := ((acceptedLooks text pattern c).getLast?.map
          (problem text pattern c).scoreOf).getD (exactThreshold text pattern c)
        position := ((acceptedLooks text pattern c).getLast?.map fun k => some k.position).getD none
        score := lastScore text pattern c } :=
  (best_scanRows ..).trans (foldl_follow ..)

/-! ### The errors of the looks -/

theorem errors_of_mem_sweepLooks {p : Problem} {errors : Nat} {hit : Nat → Bool} {j start : Nat}
    {best : Best α} {look : Look} (h : look ∈ sweepLooks p errors hit j start best) :
    look.errors = errors := by
  induction j generalizing start best with
  | zero => exact absurd h List.not_mem_nil
  | succ j ih =>
    rw [sweepLooks] at h
    by_cases hstart : j + 1 < start
    · rw [if_pos hstart] at h
      exact absurd h List.not_mem_nil
    · rw [if_neg hstart] at h
      cases hhit : hit (j + 1) with
      | false =>
        rw [hhit, if_neg Bool.false_ne_true] at h
        exact ih h
      | true =>
        rw [hhit, if_pos rfl] at h
        simp only at h
        rcases List.mem_cons.mp h with rfl | h
        · rfl
        · split_ifs at h
          · exact absurd h List.not_mem_nil
          · exact ih h
          · exact ih h

theorem errors_lt_of_mem_runLooks {p : Problem} {remaining errors : Nat} {s : Progress α}
    {look : Look} (h : look ∈ runLooks p remaining errors s) :
    look.errors < errors + remaining := by
  induction remaining generalizing errors s with
  | zero => exact absurd h List.not_mem_nil
  | succ remaining ih =>
    rcases List.mem_append.mp h with h | h
    · rw [errors_of_mem_sweepLooks h]
      omega
    · simp only at h
      split_ifs at h
      · exact absurd h List.not_mem_nil
      · have := ih h
        omega

/-- A search looks at matches with fewer errors than the pattern has letters. -/
theorem errors_lt_of_mem_looks {text pattern : List Char} {c : Criteria α} {look : Look}
    (h : look ∈ looks text pattern c) : look.errors < pattern.length := by
  have := errors_lt_of_mem_runLooks h
  omega

/-! ### The last look and the last accepted one -/

section

variable {p : Problem} {threshold : Rat} {ks : List Look}

theorem scoreOf_le_of_mem_accepting {look : Look} (h : look ∈ accepting p threshold ks) :
    p.scoreOf look ≤ threshold := by
  induction ks generalizing threshold with
  | nil => exact absurd h List.not_mem_nil
  | cons first rest ih =>
    rw [accepting] at h
    split_ifs at h with hscore
    · rcases List.mem_cons.mp h with rfl | h
      · exact hscore
      · exact (ih h).trans hscore
    · exact ih h

theorem lt_scoreOf_of_accepting_eq_nil (h : accepting p threshold ks = []) :
    ∀ look ∈ ks, threshold < p.scoreOf look := by
  induction ks with
  | nil => exact List.forall_mem_nil _
  | cons first rest ih =>
    rw [accepting] at h
    split_ifs at h with hscore
    exact List.forall_mem_cons.mpr ⟨not_le.mp hscore, ih h⟩

/-- All that was looked at after the last accepted look scores worse. -/
theorem exists_after_of_getLast?_accepting {accepted : Look}
    (h : (accepting p threshold ks).getLast? = some accepted) :
    ∃ before after, ks = before ++ accepted :: after ∧
      ∀ look ∈ after, (p.scoreOf accepted : Rat) < p.scoreOf look := by
  induction ks generalizing threshold with
  | nil => cases h
  | cons first rest ih =>
    -- what holds for the rest of the looks holds for all of them
    have hrest : ∀ {threshold' : Rat}, (accepting p threshold' rest).getLast? = some accepted →
        ∃ before after, first :: rest = before ++ accepted :: after ∧
          ∀ look ∈ after, (p.scoreOf accepted : Rat) < p.scoreOf look := by
      intro threshold' h'
      obtain ⟨before, after, heq, hafter⟩ := ih h'
      exact ⟨first :: before, after, by rw [heq, List.cons_append], hafter⟩
    rw [accepting] at h
    split_ifs at h with hscore
    · cases hlast : (accepting p (p.scoreOf first : Rat) rest).getLast? with
      | none =>
        rw [List.getLast?_cons, hlast] at h
        obtain rfl : first = accepted := Option.some.inj h
        exact ⟨[], rest, rfl, lt_scoreOf_of_accepting_eq_nil (List.getLast?_eq_none_iff.mp hlast)⟩
      | some look =>
        rw [List.getLast?_cons, hlast] at h
        obtain rfl : look = accepted := Option.some.inj h
        exact hrest hlast
    · exact hrest h

/-- The last look is the last accepted one, or it was refused and scores worse. -/
theorem exists_last_look {accepted : Look}
    (h : (accepting p threshold ks).getLast? = some accepted) :
    ∃ last, ks.getLast? = some last ∧
      (last = accepted ∨ (p.scoreOf accepted : Rat) < p.scoreOf last) := by
  obtain ⟨before, after, rfl, hafter⟩ := exists_after_of_getLast?_accepting h
  rw [List.getLast?_append_cons, List.getLast?_cons]
  cases hlast : after.getLast? with
  | none => exact ⟨accepted, rfl, Or.inl rfl⟩
  | some last => exact ⟨last, rfl, Or.inr (hafter last (List.mem_of_getLast? hlast))⟩

end

/-! ### The score of a match -/

/-- **A search reports the score of its last look**, or the floor of scores. -/
theorem score_locate (text pattern : List Char) (c : Criteria Rat) :
    (locate text pattern c).score = max (1 / 1000) (lastScore text pattern c) := by
  rw [locate_eq, greater_rat, best_of_looks, floorScore_rat]

/-- The floor of scores hides a worse look only if that look scores no more than the floor. -/
theorem max_floor_eq_iff {x y : Rat} (h : x < y) :
    max (1 / 1000) y = max (1 / 1000) x ↔ y ≤ 1 / 1000 := by
  constructor
  · intro heq
    by_contra hy
    rw [max_eq_right (not_le.mp hy).le] at heq
    exact (max_lt (not_le.mp hy) h).ne' heq
  · intro hy
    rw [max_eq_left hy, max_eq_left (h.le.trans hy)]

/-- **A match is found where its last accepted look is, which passes the threshold, but has the score
of the last look of all.**  That is the score of the accepted one only if no worse look came after
it, or none that the floor does not hide. -/
theorem score_of_match (text : List Char) {pattern : List Char} (c : Criteria Rat)
    (hpattern : pattern ≠ []) (hword : pattern.length ≤ wordSize) :
    let scoreOf : Look → Rat := (problem text pattern c).scoreOf
    ∃ result, search text pattern c = .ok result ∧
      (result.isMatch = true →
        ∃ accepted last,
          (acceptedLooks text pattern c).getLast? = some accepted ∧
            (looks text pattern c).getLast? = some last ∧
            (final text pattern c).best.position = some accepted.position ∧
            scoreOf accepted ≤ c.threshold ∧
            result.score = max (1 / 1000) (scoreOf last) ∧
            (last = accepted ∨ scoreOf accepted < scoreOf last) ∧
            (result.score = max (1 / 1000) (scoreOf accepted) ↔
              last = accepted ∨ scoreOf last ≤ 1 / 1000) ∧
            (last = accepted → result.score ≤ max (1 / 1000) c.threshold)) := by
  intro scoreOf
  refine ⟨locate text pattern c, ?_, fun hmatch => ?_⟩
  · rw [search, if_neg (Nat.not_lt.mpr hword), if_neg hpattern]
  · have hsome := ((isMatch_locate_iff text pattern c).mp hmatch).1
    cases haccepted : (acceptedLooks text pattern c).getLast? with
    | none =>
      rw [best_of_looks, haccepted] at hsome
      cases hsome
    | some accepted =>
      obtain ⟨last, hlast, hcases⟩ := exists_last_look haccepted
      have hscore : (locate text pattern c).score = max (1 / 1000) (scoreOf last) := by
        rw [score_locate, lastScore, hlast]
        rfl
      have hle : scoreOf accepted ≤ c.threshold :=
        (scoreOf_le_of_mem_accepting (List.mem_of_getLast? haccepted)).trans exactThreshold_le
      refine ⟨accepted, last, rfl, hlast, ?_, hle, hscore, hcases, ?_, ?_⟩
      · rw [best_of_looks, haccepted]
        rfl
      · rw [hscore]
        rcases hcases with rfl | hlt
        · exact iff_of_true rfl (Or.inl rfl)
        · have hne : last ≠ accepted := fun heq => hlt.ne (congrArg scoreOf heq).symm
          rw [max_floor_eq_iff hlt, or_iff_right hne]
      · rintro rfl
        rw [hscore]
        exact max_le_max_left _ hle

/-- The only look is accepted, so its score is reported. -/
theorem score_of_match_single_look :
    ∃ result, search "bbba".toList "a".toList (⟨2, 2, 1 / 2, false, 1, false, false⟩ : Criteria Rat)
        = .ok result ∧
      result.isMatch = true ∧ result.score = 1 / 2 := by
  obtain ⟨result, hresult, h⟩ := @score_of_match "bbba".toList "a".toList
    ⟨2, 2, 1 / 2, false, 1, false, false⟩ (by decide) (by decide)
  obtain rfl : _ = result := Except.ok.inj hresult
  obtain ⟨accepted, last, -, hlast, -, -, hscore, -⟩ := h (by decide +kernel)
  obtain rfl : last = ⟨0, 3⟩ := Option.some.inj (hlast.symm.trans (by decide +kernel))
  exact ⟨_, hresult, by decide +kernel, hscore.trans (by decide +kernel)⟩

/-- A match at the end of the text is accepted with a score of one half.  The scan goes on to the
beginning of the text, where it refuses the same letter, and reports the score of that. -/
theorem score_of_refused_look :
    let c : Criteria Rat := ⟨2, 2, 1 / 2, false, 1, false, false⟩
    looks "abba".toList "a".toList c = [⟨0, 3⟩, ⟨0, 0⟩] ∧
      acceptedLooks "abba".toList "a".toList c = [⟨0, 3⟩] ∧
      ((problem "abba".toList "a".toList c).scoreOf ⟨0, 3⟩ : Rat) = 1 / 2 ∧
      (locate "abba".toList "a".toList c).isMatch = true ∧
      (locate "abba".toList "a".toList c).score = 1 := by
  decide +kernel

/-! ### Scores above one -/

/-- **The last look scores more than one only if it was refused and positions count.** -/
theorem lastScore_le_one {text pattern : List Char} {c : Criteria Rat} (hone : c.threshold ≤ 1)
    (h : (looks text pattern c).getLast? = (acceptedLooks text pattern c).getLast? ∨
      c.ignoreLocation = true ∨ c.distance = 0) : lastScore text pattern c ≤ 1 := by
  unfold lastScore
  cases hlast : (looks text pattern c).getLast? with
  | none => exact one_rat.le
  | some last =>
    have herr := errors_lt_of_mem_looks (List.mem_of_getLast? hlast)
    have hlen : (0 : Rat) < pattern.length := by exact_mod_cast Nat.zero_lt_of_lt herr
    have hshare : (last.errors : Rat) / pattern.length ≤ 1 := by
      rw [div_le_one hlen]
      exact_mod_cast herr.le
    show ((problem text pattern c).score last.errors last.position : Rat) ≤ 1
    rcases h with h | h | h
    · rw [hlast] at h
      have hmem := List.mem_of_getLast? h.symm
      exact ((scoreOf_le_of_mem_accepting hmem).trans exactThreshold_le).trans hone
    · rw [score_anywhere h]
      exact hshare
    · cases hanywhere : c.ignoreLocation with
      | true =>
        rw [score_anywhere hanywhere]
        exact hshare
      | false =>
        have hzero : (problem text pattern c).distance = 0 := h
        rw [score_located hanywhere, if_pos hzero]
        split_ifs
        · exact hshare
        · exact le_rfl

end FuzzySearch.Bitap
