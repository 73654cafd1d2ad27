import FuzzySearch.Arithmetic

/-!
# Field lengths

A field counts the more the fewer words it has: its norm is one over the square root of the number
of words, rounded to a number of decimal places.
-/

namespace FuzzySearch

/-- The number of words of a text.  Only the plain space stands between words. -/
def wordCount : List Char → Nat
  | [] => 0
  | [c] => if c = ' ' then 0 else 1
  | c :: d :: rest =>
    if c ≠ ' ' && d = ' ' then 1 + wordCount (d :: rest) else wordCount (d :: rest)

/-- The norm of a text, with the precision of an index. -/
def textNorm {α : Type} [Weighting α] (text : String) : α :=
  Weighting.lengthNorm (wordCount text.toList)

/-- Ten to the power of `places`, exactly if it is an integer; norms can be rounded only if it is
neither too large nor too small for a double. -/
def decimalFactor (places : Int) : Except SearchError Float :=
  if 0 ≤ places then
    let factor := Decimal.nearest (Decimal.tenPow places.toNat) 1
    if factor.isInf then .error .tooLarge else .ok factor
  else
    let factor := (10.0 : Float).pow (Float.ofInt places)
    if factor == 0.0 then .error .divisionByZero else .ok factor

/-- The norm of a text, rounded to a number of places. -/
def normWithPlaces (places : Int) (text : String) : Except SearchError Float :=
  match wordCount text.toList with
  | 0 => .error .divisionByZero
  | count => (decimalFactor places).map fun factor => roundedInverseRoot factor count

example : wordCount "  a bc  d ".toList = 3 := by decide

end FuzzySearch
