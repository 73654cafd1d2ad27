import FuzzySearch.Decimal.Binary

/-!
# The fewest digits that read back

The reals that round to a double form an interval around it.  `shortest?` finds the decimal with
the fewest digits in that interval: on the grid of one, two, … seventeen digits it tests the two
neighbours of the value, takes the first grid with a hit, and of two hits the nearer one.
-/

namespace FuzzySearch.Decimal

/-- A decimal fraction `coefficient * 10 ^ exponent`. -/
structure Digits where
  /-- The digits, read as a natural number. -/
  coefficient : Nat
  /-- The power of ten that the last digit counts. -/
  exponent : Int
  deriving DecidableEq, Repr

/-- `num / den * 10 ^ -exponent` as a fraction. -/
def shifted (num den : Nat) (exponent : Int) : Nat × Nat :=
  (num * tenPow (-exponent).toNat, den * tenPow exponent.toNat)

/-- The exponent `e` with `10 ^ e ≤ num / den < 10 ^ (e + 1)`, for a fraction that is not zero. -/
def decimalExponent (num den : Nat) : Int :=
  let estimate : Int := ((num.log2 : Int) - (den.log2 : Int) - 1) * 30103 / 100000
  let atLeast (e : Int) : Bool :=
    let (n, d) := shifted num den e
    d ≤ n
  if atLeast (estimate + 2) then estimate + 2
  else if atLeast (estimate + 1) then estimate + 1
  else if atLeast estimate then estimate
  else estimate - 1

/-- The open or closed interval of the reals that round to a double.  Both ends are given in
units of a quarter of the last place of the significand. -/
structure RoundingInterval where
  /-- Lower end. -/
  low : Nat
  /-- Upper end. -/
  high : Nat
  /-- Whether the ends round to the double as well. -/
  closed : Bool

/-- The reals that round to a positive double.  Below a power of two the grid is twice as fine. -/
def Binary.interval (b : Binary) : RoundingInterval where
  low := 4 * b.significand - (if b.significand = 1 <<< 52 && b.exponent ≠ -1074 then 1 else 2)
  high := 4 * b.significand + 2
  closed := b.significand % 2 = 0

/-- Whether `coefficient * 10 ^ exponent` rounds to the double. -/
def readsBack (b : Binary) (coefficient : Nat) (exponent : Int) : Bool :=
  -- Both sides in units of a quarter of the last place.
  let left := coefficient * tenPow exponent.toNat * 4 * b.den
  let unit := tenPow (-exponent).toNat * (1 <<< b.exponent.toNat)
  let ends := b.interval
  if ends.closed then ends.low * unit ≤ left && left ≤ ends.high * unit
  else ends.low * unit < left && left < ends.high * unit

/-- The nearest hit on the grid `10 ^ exponent`. -/
def hitOnGrid? (b : Binary) (exponent : Int) : Option Nat :=
  let (n, d) := shifted b.num b.den exponent
  let floor := n / d
  let below := readsBack b floor exponent
  let above := readsBack b (floor + 1) exponent
  if below && above then some (roundQuotient n d)
  else if below then some floor
  else if above then some (floor + 1)
  else none

/-- The first hit with at least `count` digits, trying `fuel` grids. -/
def firstHit (b : Binary) (lead : Int) : (fuel count : Nat) → Digits
  | 0, count => ⟨roundQuotient (shifted b.num b.den (lead + 1 - count)).1
      (shifted b.num b.den (lead + 1 - count)).2, lead + 1 - count⟩
  | fuel + 1, count =>
    match hitOnGrid? b (lead + 1 - count) with
    | some coefficient => ⟨coefficient, lead + 1 - count⟩
    | none => firstHit b lead fuel (count + 1)

/-- Moves zeros from the end of the coefficient into the exponent. -/
def dropZeros : (fuel : Nat) → Digits → Digits
  | 0, d => d
  | fuel + 1, d =>
    if d.coefficient ≠ 0 && d.coefficient % 10 = 0 then
      dropZeros fuel ⟨d.coefficient / 10, d.exponent + 1⟩
    else d

/-- The shortest decimal that reads back as the absolute value of the double. -/
def shortest (b : Binary) : Digits :=
  if b.significand = 0 then ⟨0, 0⟩
  else dropZeros 20 (firstHit b (decimalExponent b.num b.den) 16 1)

end FuzzySearch.Decimal
