import FuzzySearch.Text.Split
import FuzzySearch.Text.Utf8
import FuzzySearch.Value.Number
import FuzzySearch.Value.Written

/-!
# Values in log lines

`Log.shown` turns any value into one that JSON can hold: sets become lists in order, paths, octets
and failures become texts, and an object is shown as it is written.
-/

namespace FuzzySearch.Log

/-- Whether a number is less than another one. -/
def numberLess? (a b : Value) : Option Bool :=
  match a, b with
  | .float x, .float y => some (x < y)
  | .float x, v =>
    v.integer?.map fun n =>
      match Decimal.decode? x with
      | some x => x.toRat < n
      | none => x < 0.0
  | v, .float y =>
    v.integer?.map fun n =>
      match Decimal.decode? y with
      | some y => (n : Rat) < y.toRat
      | none => 0.0 < y
  | v, w =>
    match v.integer?, w.integer? with
    | some m, some n => some (m < n)
    | _, _ => none

mutual

/-- Whether a value comes before another in a sorted list; none if they cannot be compared. -/
def less? : Value → Value → Option Bool
  | .text s, w => match w with
    | .text t => some (s < t)
    | _ => none
  | .path s, w => match w with
    | .path t => some (Text.split '/' s < Text.split '/' t)
    | _ => none
  | .octets s, w => match w with
    | .octets t => some (s.map UInt8.toNat < t.map UInt8.toNat)
    | _ => none
  | .tuple xs, w => match w with
    | .tuple ys => itemsLess? xs ys
    | _ => none
  | v, w => numberLess? v w

/-- Whether a list comes before another, which the first items that differ decide. -/
def itemsLess? : List Value → List Value → Option Bool
  | _, [] => some false
  | [], _ :: _ => some true
  | x :: xs, y :: ys => if x.same y then itemsLess? xs ys else less? x y

end

/-- Whether all items of a list can be compared with each other. -/
def allComparable : List Value → Bool
  | [] => true
  | v :: rest => rest.all (fun w => (less? v w).isSome) && allComparable rest

/-- Items in order, or as they are if they cannot be compared. -/
def inOrder {β : Type} (items : List (Value × β)) : List (Value × β) :=
  if allComparable (items.map (·.1)) then
    items.mergeSort fun a b => !(less? b.1 a.1).getD false
  else items

mutual

/-- A value as it stands in a log line. -/
def shown : Value → Value
  | .list items | .tuple items => .list (shownItems items)
  | .set items => .list ((inOrder (items.zip (shownItems items))).map (·.2))
  | .mapping entries => .mapping (shownEntries entries)
  | .path s => .text s
  | .octets bytes => .text (Text.decodeUtf8 bytes)
  | .failure description => .text description
  | .object attributes => .text (Value.object attributes).written
  | v => v

/-- The items of a list as they stand in a log line. -/
def shownItems : List Value → List Value
  | [] => []
  | item :: rest => shown item :: shownItems rest

/-- The entries of a mapping as they stand in a log line. -/
def shownEntries : List (String × Value) → List (String × Value)
  | [] => []
  | (name, v) :: rest => (name, shown v) :: shownEntries rest

end

end FuzzySearch.Log
