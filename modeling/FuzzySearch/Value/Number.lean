import FuzzySearch.Decimal.Reading
import FuzzySearch.Error
import FuzzySearch.Value.Basic

/-!
# Values as numbers, sequences and mappings

`Value.toInt` and `Value.toFloat` read a number out of a truth value, a number or a text.
`Value.elements` are the values met by going through a value, `Value.entries` and `Value.required`
ask for a mapping.  `Value.same` compares values, a
number being the same as any number of equal size, whatever its kind.

A `Listing` is gone through like a value, but may have items of its own in the place of values.
-/

namespace FuzzySearch

namespace Value

/-- The integer that a value stands for; fractions are cut off. -/
def toInt : Value → Except SearchError Int
  | bool b => .ok (if b then 1 else 0)
  | int n => .ok n
  | float x =>
    match Decimal.decode? x with
    | some b => .ok b.truncate
    | none => .error (if x.isNaN then .malformed else .tooLarge)
  | text s =>
    match Decimal.readInt? s.toList with
    | some n => .ok n
    | none => .error .malformed
  | _ => .error .wrongKind

/-- The floating-point number nearest to an integer. -/
def floatOfInt (n : Int) : Except SearchError Float :=
  let x := Decimal.nearestInt n
  if x.isInf then .error .tooLarge else .ok x

/-- The floating-point number that a value stands for. -/
def toFloat : Value → Except SearchError Float
  | bool b => .ok (if b then 1.0 else 0.0)
  | int n => floatOfInt n
  | float x => .ok x
  | text s =>
    match Decimal.readFloat? s.toList with
    | some x => .ok x
    | none => .error .malformed
  | _ => .error .wrongKind

/-- The values met by going through a value: items, characters, names or octets. -/
def elements : Value → Except SearchError (List Value)
  | list items | tuple items | set items => .ok items
  | text s => .ok (s.toList.map fun c => text (String.singleton c))
  | mapping entries => .ok (entries.map fun entry => text entry.1)
  | octets bytes => .ok (bytes.map fun octet => int octet.toNat)
  | _ => .error .wrongKind

/-- The entry of a mapping under a name that it must have. -/
def required (v : Value) (name : String) : Except SearchError Value :=
  match v with
  | .mapping entries => (lookup? name entries).elim (.error .missingEntry) .ok
  | _ => .error .wrongKind

/-- The entries of a mapping. -/
def entries : Value → Except SearchError (List (String × Value))
  | .mapping entries => .ok entries
  | _ => .error .unsupported

mutual

/-- Whether a value can be the name under which another is kept: it must not be changeable. -/
def isHashable : Value → Bool
  | list _ | mapping _ | object _ | set _ => false
  | tuple items => allHashable items
  | _ => true

/-- Whether all values can be names. -/
def allHashable : List Value → Bool
  | [] => true
  | item :: rest => isHashable item && allHashable rest

end

/-- Whether an integer and a floating-point number are of equal size. -/
def sameNumber (n : Int) (x : Float) : Bool :=
  match Decimal.decode? x with
  | some b => b.isInteger && b.truncate == n
  | none => false

/-- A truth value or integer as an integer. -/
def integer? : Value → Option Int
  | bool b => some (if b then 1 else 0)
  | int n => some n
  | _ => none

/-- Comparison of two single values. -/
def sameLeaf (a b : Value) : Bool :=
  match a, b with
  | null, null => true
  | text s, text t => s == t
  | path s, path t => s == t
  | octets s, octets t => s == t
  | float x, float y => x == y
  | float x, w => (integer? w).any (sameNumber · x)
  | v, float y => (integer? v).any (sameNumber · y)
  | v, w =>
    match integer? v, integer? w with
    | some m, some n => m == n
    | _, _ => false

mutual

/-- Whether two values are equal. -/
def same : Value → Value → Bool
  | list xs, w => match w with
    | list ys => sameItems xs ys
    | _ => false
  | tuple xs, w => match w with
    | tuple ys => sameItems xs ys
    | _ => false
  | mapping xs, w => match w with
    | mapping ys => xs.length == ys.length && sameEntries xs ys
    | _ => false
  | object xs, w => match w with
    | object ys => xs.length == ys.length && sameEntries xs ys
    | _ => false
  | set xs, w => match w with
    | set ys => xs.length == ys.length && allAmong xs ys
    | _ => false
  | v, w => sameLeaf v w

/-- Whether two lists are equal item by item. -/
def sameItems : List Value → List Value → Bool
  | [], [] => true
  | x :: xs, y :: ys => same x y && sameItems xs ys
  | _, _ => false

/-- Whether every entry has an equal one under the same name. -/
def sameEntries : List (String × Value) → List (String × Value) → Bool
  | [], _ => true
  | (name, x) :: xs, ys => (match lookup? name ys with
    | some y => same x y
    | none => false) && sameEntries xs ys

/-- Whether every item has an equal one in a list. -/
def allAmong : List Value → List Value → Bool
  | [], _ => true
  | x :: xs, ys => ys.any (same x) && allAmong xs ys

end

end Value

/-- What is gone through for its items: a value, or a list of items that need not be values. -/
inductive Listing (β : Type) where
  | value (v : Value)
  | items (given : List β)

namespace Listing

variable {β : Type}

/-- The items of a listing, those of a value taken as they stand for an item. -/
def elements (ofValue : Value → β) : Listing β → Except SearchError (List β)
  | value v => v.elements.map (List.map ofValue)
  | items given => .ok given

end Listing

end FuzzySearch
