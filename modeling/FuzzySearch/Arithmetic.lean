import FuzzySearch.Decimal.Binary
import FuzzySearch.Error

/-!
# The arithmetic of scores

Scores, thresholds, norms and weights are numbers of a type with the operations of `ScoreNumber`.
The program computes with doubles; the same definitions at the rationals are the exact scores that
the doubles approximate.  `Weighting` adds the two operations that a rational has no exact result
for, a power and the norm of a field length.
-/

namespace FuzzySearch

/-- Numbers that scores are computed with. -/
class ScoreNumber (α : Type) extends Add α, Mul α, Div α, LE α, LT α where
  /-- The quotient of two integers. -/
  ratio : Int → Int → α
  /-- An integer, unless it is too large. -/
  ofInt? : Int → Option α
  /-- The value of a double; one for a double that has no value of this kind. -/
  ofFloat : Float → α
  /-- Scores can be compared. -/
  decidableLE : DecidableLE α
  /-- Scores can be compared strictly. -/
  decidableLT : DecidableLT α

namespace ScoreNumber

variable {α : Type} [ScoreNumber α]

instance : DecidableLE α := decidableLE

instance : DecidableLT α := decidableLT

/-- The score of identity. -/
def zero : α := ratio 0 1

/-- The score of what does not match. -/
def one : α := ratio 1 1

/-- The smaller of two numbers; the first when they are equal. -/
def smaller (a b : α) : α := if b < a then b else a

/-- The greater of two numbers; the first when they are equal. -/
def greater (a b : α) : α := if a < b then b else a

/-- Whether a number is zero. -/
def isZero (x : α) : Bool := x ≤ zero && zero ≤ x

/-- The sum of numbers, from left to right. -/
def sum (xs : List α) : α := xs.foldl (· + ·) zero

/-- The mean of `count` numbers with a given sum. -/
def mean (total : α) (count : Nat) : α := total / ratio count 1

end ScoreNumber

/-- Doubles, every quotient of integers being rounded once. -/
instance : ScoreNumber Float where
  ratio := Decimal.nearestRatio
  ofInt? n := let x := Decimal.nearestInt n; if x.isInf then none else some x
  ofFloat x := x
  decidableLE := inferInstance
  decidableLT := inferInstance

/-- Exact fractions. -/
instance : ScoreNumber Rat where
  ratio n d := (n : Rat) / (d : Rat)
  ofInt? n := some (n : Rat)
  ofFloat x := ((Decimal.decode? x).map Decimal.Binary.toRat).getD 1
  decidableLE := inferInstance
  decidableLT := inferInstance

/-- Numbers by which the parts of a score can be weighted. -/
class Weighting (α : Type) extends ScoreNumber α where
  /-- A power, unless it does not exist or is too large. -/
  power : α → α → Except SearchError α
  /-- The norm of a field of so many words: the longer the field, the smaller the norm. -/
  lengthNorm : Nat → α

/-- The power of two doubles. -/
def floatPower (base exponent : Float) : Except SearchError Float :=
  if base == 0.0 && exponent < 0.0 && !exponent.isInf then .error .divisionByZero
  else
    let result := base.pow exponent
    if result.isInf && !base.isInf && !exponent.isInf then .error .tooLarge else .ok result

/-- One over the square root of a count, rounded to a multiple of one over `factor`, a half going
up. -/
def roundedInverseRoot (factor : Float) (count : Nat) : Float :=
  Decimal.floor ((1.0 / (Float.ofNat count).sqrt) * factor + 0.5) / factor

instance : Weighting Float where
  power := floatPower
  lengthNorm := roundedInverseRoot 1000.0

end FuzzySearch
