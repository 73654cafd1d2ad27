import FuzzySearch.Decimal.Layout

/-!
# Scientific notation

`scientificDigits` writes a fixed number of digits after the point of the first digit and then the
exponent.  `generalDigits` has a fixed number of significant digits, and writes them positionally
when the exponent is neither small nor large.
-/

namespace FuzzySearch.Decimal

/-- The first `count` significant digits of an absolute value, and the exponent of the first. -/
def significantDigits (count : Nat) (b : Binary) : List Char × Int :=
  let d := significant count b
  if d.coefficient = 0 then (List.replicate count '0', 0)
  else
    let digits := natText d.coefficient
    (digits, d.exponent + digits.length - 1)

/-- A digit, a point with `places` digits after it, and an exponent of at least two digits. -/
def scientificDigits (places : Nat) (b : Binary) : List Char :=
  let (digits, exponent) := significantDigits (places + 1) b
  pointAfterFirst digits ++ exponentText true 2 exponent

/-- Digits without zeros at the end of their fraction. -/
def dropFractionZeros (digits : List Char) : List Char :=
  if digits.contains '.' then
    let kept := (digits.reverse.dropWhile (· = '0')).reverse
    if kept.getLast? == some '.' then kept.dropLast else kept
  else digits

/-- At most `count` significant digits; all of them are written if `padded`. -/
def generalDigits (count : Nat) (padded : Bool) (b : Binary) : List Char :=
  let count := max 1 count
  let (digits, exponent) := significantDigits count b
  let trim (cs : List Char) : List Char := if padded then cs else dropFractionZeros cs
  if -4 ≤ exponent && exponent < count then
    trim (fixedDigits ((count : Int) - 1 - exponent).toNat b)
  else trim (pointAfterFirst digits) ++ exponentText true 2 exponent

/-- Digits with a point behind their whole part, even if no fraction follows. -/
def withPoint (digits : List Char) : List Char :=
  let (front, exponent) := digits.span (· ≠ 'e')
  if front.contains '.' then digits else front ++ '.' :: exponent

example : withPoint "1e+05".toList = "1.e+05".toList := by decide

end FuzzySearch.Decimal
