import FuzzySearch.Decimal.Rounding

/-!
# Binary floating-point numbers as fractions

A finite double is a sign, a significand and a power of two.  `decode?` takes a double apart, `compose`
puts one together, and `nearest num den` is the double nearest to a fraction, a tie going to the even
significand.
-/

namespace FuzzySearch.Decimal

/-- A finite double: `significand * 2 ^ exponent`, with a sign. -/
structure Binary where
  /-- Whether the sign bit is set. -/
  negative : Bool
  /-- At most 53 bits. -/
  significand : Nat
  /-- The power of two that the last bit of the significand counts. -/
  exponent : Int

/-- The parts of a double; nothing for an infinity or a value that is no number. -/
def decode? (x : Float) : Option Binary :=
  let bits := x.toBits.toNat
  let negative := bits >>> 63 == 1
  let exponent := (bits >>> 52) &&& 0x7ff
  let fraction := bits % (1 <<< 52)
  if exponent = 0x7ff then none
  else if exponent = 0 then some ⟨negative, fraction, -1074⟩
  else some ⟨negative, fraction + (1 <<< 52), (exponent : Int) - 1075⟩

namespace Binary

/-- Numerator of the absolute value. -/
def num (b : Binary) : Nat := b.significand <<< b.exponent.toNat

/-- Denominator of the absolute value. -/
def den (b : Binary) : Nat := 1 <<< (-b.exponent).toNat

/-- The value as an exact fraction. -/
def toRat (b : Binary) : Rat :=
  let size : Rat := (b.num : Rat) / (b.den : Rat)
  if b.negative then -size else size

/-- The integer part, rounded toward zero. -/
def truncate (b : Binary) : Int :=
  let size : Int := (b.num / b.den : Nat)
  if b.negative then -size else size

/-- The greatest integer that is not greater than the value. -/
def floor (b : Binary) : Int := (if b.negative then -(b.num : Int) else b.num) / b.den

/-- Whether the value is an integer. -/
def isInteger (b : Binary) : Bool := b.num % b.den == 0

end Binary

/-- The greatest integer that is not greater than a double, as a double. -/
def floor (x : Float) : Float :=
  match decode? x with
  | some b => Float.ofInt b.floor
  | none => x

/-- The double `significand * 2 ^ exponent`; infinite when that is too large.  The significand has at
most 53 bits, or is the least number of 54, and it has 53 unless the exponent is -1074. -/
def compose (significand : Nat) (exponent : Int) : Float :=
  -- The first bit of the significand is counted by the exponent field, which carries when it is too
  -- large.
  let bits := ((exponent + 1074).toNat <<< 52) + significand
  Float.ofBits (UInt64.ofNat (min bits (0x7ff <<< 52)))

/-- The double nearest to `num / den`; infinite when the fraction is too large. -/
def nearest (num den : Nat) : Float :=
  if num = 0 then 0.0
  else
    -- The quotient lies between 2 ^ (size - 1) and 2 ^ (size + 1).
    let size : Int := (num.log2 : Int) - (den.log2 : Int)
    let scaled (exponent : Int) : Nat × Nat :=
      (num <<< (-exponent).toNat, den <<< exponent.toNat)
    let low : Int := max (size - 53) (-1074)
    let (n, d) := scaled low
    let exponent := if n / d < 1 <<< 53 then low else low + 1
    let (n, d) := scaled exponent
    compose (roundQuotient n d) exponent

/-- The double nearest to an integer. -/
def nearestInt (n : Int) : Float :=
  let size := nearest n.natAbs 1
  if n < 0 then -size else size

/-- The double nearest to the quotient of two integers. -/
def nearestRatio (num den : Int) : Float :=
  if num.natAbs ≤ 1 <<< 53 && den.natAbs ≤ 1 <<< 53 then Float.ofInt num / Float.ofInt den
  else
    let size := nearest num.natAbs den.natAbs
    if (num < 0) != (den < 0) then -size else size

end FuzzySearch.Decimal
