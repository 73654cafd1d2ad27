/-!
# Letter masks

`letterMask pattern c` has one bit for every place of the pattern where `c` stands; the last place
has bit zero.  `alphabet` tabulates it for the letters of the pattern.
-/

namespace FuzzySearch.Bitap

/-- The places of a pattern where a character stands, as bits; the last place has bit zero. -/
def letterMask : List Char → Char → Nat
  | [], _ => 0
  | p :: rest, c => (if p = c then 1 <<< rest.length else 0) ||| letterMask rest c

/-- The distinct characters of a pattern, in the order of their first place. -/
def letters : List Char → List Char
  | [] => []
  | c :: rest => c :: (letters rest).filter (· ≠ c)

/-- The masks of the letters of a pattern. -/
def alphabet (pattern : List Char) : List (Char × Nat) :=
  (letters pattern).map fun c => (c, letterMask pattern c)

/-- Bit `k` of a letter mask tells whether the letter stands `k` places before the last. -/
theorem testBit_letterMask (pattern : List Char) (c : Char) (k : Nat) :
    (letterMask pattern c).testBit k = true ↔
      k < pattern.length ∧ pattern[pattern.length - 1 - k]? = some c := by
  induction pattern with
  | nil => simp [letterMask]
  | cons p rest ih =>
    simp only [letterMask, Nat.testBit_or, Bool.or_eq_true, ih, List.length_cons]
    by_cases hk : k < rest.length
    · have hne : rest.length ≠ k := by omega
      have hidx : rest.length + 1 - 1 - k = rest.length - 1 - k + 1 := by omega
      rw [hidx, List.getElem?_cons_succ]
      by_cases hp : p = c
      · simp [hp, Nat.one_shiftLeft, hne, hk]
        omega
      · simp [hp, hk]
        omega
    · by_cases hk' : k = rest.length
      · subst hk'
        by_cases hp : p = c
        · simp [hp, Nat.one_shiftLeft]
        · simp [hp]
      · have hne : rest.length ≠ k := by omega
        by_cases hp : p = c
        · simp [hp, Nat.one_shiftLeft, hne, hk]
          omega
        · simp [hp, hk]
          omega

/-- A letter mask has no more bits than the pattern has characters. -/
theorem letterMask_lt (pattern : List Char) (c : Char) :
    letterMask pattern c < 1 <<< pattern.length := by
  rw [Nat.one_shiftLeft]
  apply Nat.lt_pow_two_of_testBit
  intro k hk
  apply Bool.eq_false_iff.2
  intro hbit
  have := ((testBit_letterMask pattern c k).1 hbit).1
  omega

end FuzzySearch.Bitap
