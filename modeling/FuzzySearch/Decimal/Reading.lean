import FuzzySearch.Decimal.Binary
import FuzzySearch.Text.Blank

/-!
# Numbers in text

A number may be surrounded by white space, have a sign, and have single underscores between
its digits; its digits may be of any script.  `readInt?` reads an integer, and `readFloat?` a
decimal fraction with an optional exponent, an infinity or the text of what is no number.
-/

namespace FuzzySearch.Decimal

/-- The zeros of the scripts that have decimal digits; the other nine follow each. -/
def digitZeros : List Nat :=
  [48, 1632, 1776, 1984, 2406, 2534, 2662, 2790, 2918, 3046, 3174, 3302, 3430, 3558, 3664, 3792,
    3872, 4160, 4240, 6112, 6160, 6470, 6608, 6784, 6800, 6992, 7088, 7232, 7248, 42528, 43216,
    43264, 43472, 43504, 43600, 44016, 65296, 66720, 68912, 69734, 69872, 69942, 70096, 70384,
    70736, 70864, 71248, 71360, 71472, 71904, 72016, 72784, 73040, 73120, 92768, 92864, 93008,
    120782, 120792, 120802, 120812, 120822, 123200, 123632, 125264, 130032]

/-- The value of a decimal digit of any script. -/
def digitValue? (c : Char) : Option Nat :=
  (digitZeros.find? fun first => first ≤ c.toNat && c.toNat < first + 10).map (c.toNat - ·)

/-- The digits at the front, single underscores between them allowed, and the rest. -/
def takeDigits : List Char → List Nat × List Char
  | [] => ([], [])
  | c :: rest =>
    match digitValue? c with
    | some d =>
      let (digits, rest') := takeDigits rest
      (d :: digits, rest')
    | none =>
      match c, rest with
      | '_', next :: rest' =>
        match digitValue? next with
        | some d =>
          let (digits, rest'') := takeDigits rest'
          (d :: digits, rest'')
        | none => ([], c :: rest)
      | _, _ => ([], c :: rest)

/-- The digits at the front; an underscore in front of them is not skipped. -/
def leadingDigits (cs : List Char) : List Nat × List Char :=
  match cs with
  | '_' :: _ => ([], cs)
  | _ => takeDigits cs

/-- The number that digits spell. -/
def ofDigits (digits : List Nat) : Nat := digits.foldl (fun n d => 10 * n + d) 0

/-- Whether a sign says negative, and the rest. -/
def takeSign : List Char → Bool × List Char
  | '-' :: rest => (true, rest)
  | '+' :: rest => (false, rest)
  | cs => (false, cs)

/-- The greatest number of digits an integer is read from. -/
def longestInteger : Nat := 4300

/-- The integer that a text spells. -/
def readInt? (cs : List Char) : Option Int :=
  let (negative, rest) := takeSign (Text.trim cs)
  match leadingDigits rest with
  | ([], _) => none
  | (digits, []) =>
    if longestInteger < digits.length then none
    else
      let size : Int := ofDigits digits
      some (if negative then -size else size)
  | _ => none

/-- The double nearest to `coefficient * 10 ^ exponent`. -/
def scaleTen (coefficient : Nat) (exponent : Int) : Float :=
  if coefficient = 0 then 0.0
  else if 0 ≤ exponent then
    if 400 < exponent then nearest (1 <<< 2000) 1
    else nearest (coefficient * tenPow exponent.toNat) 1
  else
    -- The coefficient has at most as many digits as bits.
    if (coefficient.log2 : Int) + 1 + exponent < -400 then 0.0
    else nearest coefficient (tenPow (-exponent).toNat)

/-- The exponent part at the front, zero if there is none, and the rest. -/
def takeExponent (cs : List Char) : Int × List Char :=
  match cs with
  | mark :: rest =>
    if mark = 'e' || mark = 'E' then
      let (negative, rest) := takeSign rest
      match leadingDigits rest with
      | ([], _) => (0, cs)
      | (digits, rest') =>
        let size : Int := ofDigits digits
        (if negative then -size else size, rest')
    else (0, cs)
  | [] => (0, [])

/-- The decimal fraction that a text without a sign spells. -/
def readFraction? (cs : List Char) : Option Float :=
  let (whole, rest) := leadingDigits cs
  let (places, rest) :=
    match rest with
    | '.' :: rest' => leadingDigits rest'
    | _ => ([], rest)
  if whole.isEmpty && places.isEmpty then none
  else
    match takeExponent rest with
    | (exponent, []) => some (scaleTen (ofDigits (whole ++ places)) (exponent - places.length))
    | _ => none

/-- The number that a text spells. -/
def readFloat? (cs : List Char) : Option Float :=
  let (negative, rest) := takeSign (Text.trim cs)
  let word := String.ofList (rest.map Char.toLower)
  let size? : Option Float :=
    if word = "inf" || word = "infinity" then some (1.0 / 0.0)
    else if word = "nan" then some (0.0 / 0.0)
    else readFraction? rest
  size?.map fun size => if negative then -size else size

end FuzzySearch.Decimal
