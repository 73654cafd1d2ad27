/-!
# Text in octets

`decodeUtf8` reads octets as UTF-8.  Every longest part that begins a character and does not complete
it, and every octet that begins none, is read as the replacement character.
-/

namespace FuzzySearch.Text

/-- What stands for octets that are no character. -/
def replacementChar : Char := '\ufffd'

/-- The number of octets that follow a first octet, and the range of the second one. -/
def followers? (first : Nat) : Option (Nat × Nat × Nat) :=
  if first < 0x80 then some (0, 0x80, 0xbf)
  else if 0xc2 ≤ first && first ≤ 0xdf then some (1, 0x80, 0xbf)
  else if first = 0xe0 then some (2, 0xa0, 0xbf)
  else if first = 0xed then some (2, 0x80, 0x9f)
  else if 0xe1 ≤ first && first ≤ 0xef then some (2, 0x80, 0xbf)
  else if first = 0xf0 then some (3, 0x90, 0xbf)
  else if 0xf1 ≤ first && first ≤ 0xf3 then some (3, 0x80, 0xbf)
  else if first = 0xf4 then some (3, 0x80, 0x8f)
  else none

/-- The octets at the front that continue a character: at most `count`, the first one in a range. -/
def continuing : (count low high : Nat) → List Nat → List Nat
  | count + 1, low, high, octet :: rest =>
    if low ≤ octet && octet ≤ high then octet :: continuing count 0x80 0xbf rest else []
  | _, _, _, _ => []

/-- The bits of a first octet that belong to the code point. -/
def leadingBits (first count : Nat) : Nat :=
  if count = 0 then first else first % (64 >>> count)

/-- The character at the front, and the number of octets after the first that it takes. -/
def firstCharacter (first : Nat) (rest : List Nat) : Char × Nat :=
  match followers? first with
  | none => (replacementChar, 0)
  | some (count, low, high) =>
    let more := continuing count low high rest
    if more.length = count then
      (Char.ofNat (more.foldl (fun code octet => 64 * code + octet % 64) (leadingBits first count)),
        count)
    else (replacementChar, more.length)

/-- The characters of octets, the first `skip` octets left out. -/
def decodeFrom : (skip : Nat) → List Nat → List Char
  | _, [] => []
  | skip + 1, _ :: rest => decodeFrom skip rest
  | 0, first :: rest =>
    let (c, taken) := firstCharacter first rest
    c :: decodeFrom taken rest

/-- The text of octets. -/
def decodeUtf8 (octets : List UInt8) : String :=
  String.ofList (decodeFrom 0 (octets.map UInt8.toNat))

example : decodeUtf8 [0x61, 0xc3, 0xa9, 0xff, 0xe4, 0xb8, 0xf0, 0x9f, 0x98, 0x80] = "aé\ufffd\ufffd😀" := by
  decide

end FuzzySearch.Text
