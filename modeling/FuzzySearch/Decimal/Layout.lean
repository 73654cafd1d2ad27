import FuzzySearch.Decimal.Shortest

/-!
# Laying out decimal digits

A `Layout` holds the decisions of an output format about floating-point numbers: where positional
notation ends, how an exponent is written, and the texts of what is not finite.  `Layout.text`
writes the shortest digits of a double in it.  Fixed places and fixed counts of digits are written
by `fixedText` and `significant`.
-/

namespace FuzzySearch.Decimal

/-- How a format writes floating-point numbers. -/
structure Layout where
  /-- The least power of ten of a first digit that is written positionally. -/
  leastPositional : Int
  /-- The greatest power of ten of a first digit that is written positionally. -/
  greatestPositional : Int
  /-- Whether a positive exponent has a sign. -/
  plusSign : Bool
  /-- The least number of digits of an exponent. -/
  exponentWidth : Nat

/-- The decimal digits of a natural number. -/
def natText (n : Nat) : List Char := Nat.toDigits 10 n

/-- The decimal digits of an integer, after a minus sign if it is negative. -/
def intText (n : Int) : String :=
  String.ofList (if n < 0 then '-' :: natText n.natAbs else natText n.natAbs)

/-- Zeros in front of digits, up to a width. -/
def padZeros (width : Nat) (digits : List Char) : List Char :=
  List.replicate (width - digits.length) '0' ++ digits

/-- The exponent mark, sign and digits. -/
def exponentText (plusSign : Bool) (width : Nat) (exponent : Int) : List Char :=
  let sign := if exponent < 0 then ['-'] else if plusSign then ['+'] else []
  'e' :: sign ++ padZeros width (natText exponent.natAbs)

/-- The digits with a point after the first, if there are more. -/
def pointAfterFirst : List Char → List Char
  | [] => []
  | [d] => [d]
  | d :: rest => d :: '.' :: rest

/-- Digits in positional notation, with at least one digit on each side of the point. -/
def positional (d : Digits) : List Char :=
  let digits := natText d.coefficient
  if 0 ≤ d.exponent then digits ++ List.replicate d.exponent.toNat '0' ++ ['.', '0']
  else
    let places := (-d.exponent).toNat
    let padded := padZeros (places + 1) digits
    let whole := padded.length - places
    padded.take whole ++ '.' :: padded.drop whole

namespace Layout

/-- The digits of a finite number in this layout. -/
def digitsText (layout : Layout) (d : Digits) : List Char :=
  let digits := natText d.coefficient
  let lead : Int := d.exponent + digits.length - 1
  if d.coefficient = 0 || (layout.leastPositional ≤ lead && lead ≤ layout.greatestPositional) then
    positional d
  else pointAfterFirst digits ++ exponentText layout.plusSign layout.exponentWidth lead

/-- A double in this layout. -/
def text (layout : Layout) (x : Float) : String :=
  match decode? x with
  | none => if x.isNaN then "nan" else if x < 0 then "-inf" else "inf"
  | some b =>
    let digits := layout.digitsText (shortest b)
    String.ofList (if b.negative then '-' :: digits else digits)

end Layout

/-- `places` digits after the point, correctly rounded. -/
def fixedDigits (places : Nat) (b : Binary) : List Char :=
  let scaled := roundQuotient (b.num * tenPow places) b.den
  let padded := padZeros (places + 1) (natText scaled)
  let whole := padded.length - places
  if places = 0 then padded else padded.take whole ++ '.' :: padded.drop whole

/-- A double with `places` digits after the point. -/
def fixedText (places : Nat) (x : Float) : String :=
  match decode? x with
  | none => if x.isNaN then "nan" else if x < 0 then "-inf" else "inf"
  | some b =>
    let digits := fixedDigits places b
    String.ofList (if b.negative then '-' :: digits else digits)

/-- The absolute value rounded to `count` significant digits. -/
def significant (count : Nat) (b : Binary) : Digits :=
  if b.significand = 0 then ⟨0, 0⟩
  else
    let exponent : Int := decimalExponent b.num b.den + 1 - count
    let (n, d) := shifted b.num b.den exponent
    let coefficient := roundQuotient n d
    if coefficient = tenPow count then ⟨tenPow (count - 1), exponent + 1⟩
    else ⟨coefficient, exponent⟩

end FuzzySearch.Decimal
