import FuzzySearch.Decimal.Reading
import FuzzySearch.Value.Basic

/-!
# Tokens of JSON

`tokens?` cuts a JSON text into brackets, braces, commas, colons, texts and single values.  Numbers,
words and texts have to be written as JSON asks for: no leading zeros, no control characters, and
surrogates only in pairs.
-/

namespace FuzzySearch.Json

/-- A token of a JSON text. -/
inductive Token where
  | openList
  | closeList
  | openMapping
  | closeMapping
  | comma
  | colon
  | text (s : String)
  /-- A number, a truth value or a null. -/
  | scalar (v : Value)

/-! ### Numbers and words -/

/-- Whether a character is an ASCII digit. -/
def isDigit (c : Char) : Bool := '0' ≤ c && c ≤ '9'

/-- The digits at the front, unless there are none, and the rest. -/
def digits? (cs : List Char) : Option (List Nat × List Char) :=
  match cs.takeWhile isDigit with
  | [] => none
  | digits => some (digits.map (·.toNat - 48), cs.dropWhile isDigit)

/-- The digits of a whole number, which has no leading zero, and the rest. -/
def whole? (cs : List Char) : Option (List Nat × List Char) :=
  match digits? cs with
  | some (0 :: _ :: _, _) => none
  | found => found

/-- The digits after a point, if there is one, and the rest. -/
def places? (cs : List Char) : Option (List Nat × List Char) :=
  match cs with
  | '.' :: rest => digits? rest
  | _ => some ([], cs)

/-- The exponent, if there is one, and the rest. -/
def exponent? (cs : List Char) : Option (Int × List Char) :=
  match cs with
  | mark :: rest =>
    if mark = 'e' || mark = 'E' then
      let (negative, rest) := Decimal.takeSign rest
      (digits? rest).map fun (digits, rest) =>
        let size : Int := Decimal.ofDigits digits
        (if negative then -size else size, rest)
    else some (0, cs)
  | [] => some (0, [])

/-- Whether an integer fits in a machine word, signed or not. -/
def isMachineInteger (n : Int) : Bool := -(1 <<< 63 : Nat) ≤ n && n < (1 <<< 64 : Nat)

/-- A floating-point number, unless it is too large. -/
def finite? (negative : Bool) (size : Float) : Option Value :=
  if size.isInf then none else some (.float (if negative then -size else size))

/-- The number that is written; integers that do not fit in a machine word become floating-point
numbers. -/
def number? (cs : List Char) : Option Value := do
  let (negative, rest) := match cs with
    | '-' :: rest => (true, rest)
    | cs => (false, cs)
  let (whole, rest) ← whole? rest
  let (places, tail) ← places? rest
  let (exponent, final) ← exponent? tail
  if !final.isEmpty then none
  else if rest.isEmpty then
    let size : Int := Decimal.ofDigits whole
    let n := if negative then -size else size
    if isMachineInteger n then some (.int n) else finite? negative (Decimal.nearestInt size)
  else
    finite? negative (Decimal.scaleTen (Decimal.ofDigits (whole ++ places))
      (exponent - places.length))

/-- The value of a word or number. -/
def scalar? (cs : List Char) : Option Value :=
  if cs = "null".toList then some .null
  else if cs = "true".toList then some (.bool true)
  else if cs = "false".toList then some (.bool false)
  else number? cs

/-! ### Texts -/

/-- The value of a hexadecimal digit. -/
def hexDigit? (c : Char) : Option Nat :=
  if isDigit c then some (c.toNat - 48)
  else if 'a' ≤ c && c ≤ 'f' then some (c.toNat - 87)
  else if 'A' ≤ c && c ≤ 'F' then some (c.toNat - 55)
  else none

/-- The value of hexadecimal digits. -/
def hexValue? (cs : List Char) : Option Nat :=
  cs.foldlM (fun n c => (hexDigit? c).map (16 * n + ·)) 0

/-- The characters that are written as a backslash and a letter. -/
def shortEscapes : List (Char × Char) :=
  [('"', '"'), ('\\', '\\'), ('/', '/'), ('b', '\x08'), ('f', '\x0c'), ('n', '\n'), ('r', '\r'),
    ('t', '\t')]

/-- The code units of a text between quotes; escapes give one unit each. -/
def units? : List Char → Option (List Nat)
  | [] => some []
  | '\\' :: 'u' :: a :: b :: c :: d :: rest => do
    let unit ← hexValue? [a, b, c, d]
    let units ← units? rest
    return unit :: units
  | '\\' :: c :: rest => do
    let (_, escaped) ← shortEscapes.find? (·.1 == c)
    let units ← units? rest
    return escaped.toNat :: units
  | c :: rest => if c.toNat < 32 || c = '\\' then none else (units? rest).map (c.toNat :: ·)

/-- Whether a unit is the first half of a surrogate pair. -/
def isHighSurrogate (unit : Nat) : Bool := 0xd800 ≤ unit && unit < 0xdc00

/-- Whether a unit is the second half of a surrogate pair. -/
def isLowSurrogate (unit : Nat) : Bool := 0xdc00 ≤ unit && unit < 0xe000

/-- The characters of code units; surrogates have to come in pairs. -/
def characters? : List Nat → Option (List Char)
  | [] => some []
  | high :: low :: rest =>
    if isHighSurrogate high then
      if isLowSurrogate low then
        let code := 0x10000 + 1024 * (high - 0xd800) + (low - 0xdc00)
        (characters? rest).map (Char.ofNat code :: ·)
      else none
    else if isLowSurrogate high then none
    else (characters? (low :: rest)).map (Char.ofNat high :: ·)
  | [unit] =>
    if isHighSurrogate unit || isLowSurrogate unit then none else some [Char.ofNat unit]

/-- The text that is written between quotes. -/
def text? (cs : List Char) : Option String := do
  let units ← units? cs
  let characters ← characters? units
  return String.ofList characters

/-! ### Scanning -/

/-- Where a scan is. -/
inductive Place where
  | between
  /-- Inside a word or number. -/
  | word (backwards : List Char)
  /-- Inside a text, perhaps after a backslash. -/
  | text (backwards : List Char) (escaped : Bool)

/-- What was scanned so far. -/
structure Scan where
  /-- The tokens, the last one first. -/
  made : List Token
  /-- Where the scan is. -/
  place : Place

/-- The token of a mark. -/
def mark? (c : Char) : Option Token :=
  if c = '[' then some .openList
  else if c = ']' then some .closeList
  else if c = '\x7b' then some .openMapping
  else if c = '\x7d' then some .closeMapping
  else if c = ',' then some .comma
  else if c = ':' then some .colon
  else none

/-- Whether a character separates tokens and means nothing. -/
def isSpace (c : Char) : Bool := c = ' ' || c = '\t' || c = '\n' || c = '\r'

namespace Scan

/-- The scan with the word in progress ended; none inside a text. -/
def endWord (scan : Scan) : Option Scan :=
  match scan.place with
  | .between => some scan
  | .word backwards =>
    (scalar? backwards.reverse).map fun v => ⟨.scalar v :: scan.made, .between⟩
  | .text _ _ => none

/-- The scan after a character that is not inside a text. -/
def stepOutside (scan : Scan) (c : Char) : Option Scan :=
  if isSpace c then scan.endWord
  else if c = '"' then scan.endWord.map fun scan => { scan with place := .text [] false }
  else
    match mark? c with
    | some token => scan.endWord.map fun scan => { scan with made := token :: scan.made }
    | none =>
      match scan.place with
      | .word backwards => some { scan with place := .word (c :: backwards) }
      | _ => some { scan with place := .word [c] }

/-- The scan after one more character. -/
def step (scan : Scan) (c : Char) : Option Scan :=
  match scan.place with
  | .text backwards true => some { scan with place := .text (c :: backwards) false }
  | .text backwards false =>
    if c = '"' then (text? backwards.reverse).map fun s => ⟨.text s :: scan.made, .between⟩
    else some { scan with place := .text (c :: backwards) (c == '\\') }
  | _ => scan.stepOutside c

end Scan

/-- The tokens of a JSON text. -/
def tokens? (cs : List Char) : Option (List Token) := do
  let scan ← cs.foldlM Scan.step ⟨[], .between⟩
  let scan ← scan.endWord
  return scan.made.reverse

example : text? "\\ud83d\\ude00".toList = some "😀" := by decide
example : text? "\\ud83d".toList = none := by decide

end FuzzySearch.Json
