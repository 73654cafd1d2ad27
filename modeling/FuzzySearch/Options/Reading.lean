import FuzzySearch.Decimal.Reading
import FuzzySearch.Error
import FuzzySearch.Value.Basic

/-!
# Reading options

The value of an option may be of several kinds: a number or truth value can be given as a text, a
truth value as zero or one.  `OptionReading.field` reads the option of a name and keeps what is
wrong with it, so that every fault can be reported.
-/

namespace FuzzySearch.OptionReading

/-! ### Values of single options -/

/-- The digits of an integer in a text: no fraction but zeros, and underscores only inside. -/
def integerOfText? (s : String) : Option Int :=
  let cs := Text.trim s.toList
  let whole := cs.takeWhile (· ≠ '.')
  let places := (cs.dropWhile (· ≠ '.')).drop 1
  if places.all (· = '0') && whole.all (·.toNat < 128) then Decimal.readInt? whole else none

/-- An integer that is at least `least`. -/
def integer (least : Int) (v : Value) : Except Fault Nat := do
  let n ← match v with
    | .bool b => .ok (if b then 1 else 0)
    | .int n => .ok n
    | .float x =>
      match Decimal.decode? x with
      | none => .error .infinite
      | some b => if b.isInteger then .ok b.truncate else .error .fractional
    | .text s => (integerOfText? s).elim (.error .notIntegerText) .ok
    | _ => .error .notAnInteger
  if n < least then .error .belowMinimum else .ok n.toNat

/-- A number from zero to one. -/
def share (v : Value) : Except Fault Float := do
  let x ← match v with
    | .bool b => .ok (if b then 1.0 else 0.0)
    | .int n => .ok (Decimal.nearestInt n)
    | .float x => .ok x
    | .text s =>
      let cs := Text.trim s.toList
      if cs.all (·.toNat < 128) then (Decimal.readFloat? cs).elim (.error .notNumberText) .ok
      else .error .notNumberText
    | _ => .error .notANumber
  if 1.0 < x then .error .aboveMaximum else if x < 0.0 then .error .belowMinimum else .ok x

/-- The texts that stand for truth values. -/
def flagOfText? (s : String) : Option Bool :=
  let word := String.ofList (s.toList.map Char.toLower)
  if ["1", "on", "t", "true", "y", "yes"].contains word then some true
  else if ["0", "off", "f", "false", "n", "no"].contains word then some false
  else none

/-- A truth value. -/
def flag : Value → Except Fault Bool
  | .bool b => .ok b
  | .int n => if n = 0 then .ok false else if n = 1 then .ok true else .error .notTruthText
  | .float x =>
    if x == 0.0 then .ok false else if x == 1.0 then .ok true
    else
      match Decimal.decode? x with
      | some b => .error (if b.isInteger then .notTruthText else .notATruthValue)
      | none => .error .notATruthValue
  | .text s => (flagOfText? s).elim (.error .notTruthText) .ok
  | _ => .error .notATruthValue

/-- A list of values. -/
def values : Value → Except Fault (List Value)
  | .list items | .tuple items | .set items => .ok items
  | _ => .error .notAList

/-- The absence of a function. -/
def noFunction : Value → Except Fault Unit
  | .null => .ok ()
  | _ => .error .notAFunction

/-! ### Collecting faults -/

/-- Something that was read, and what was wrong. -/
structure Reading (β : Type) where
  /-- What was read, or what stands in for it. -/
  value : β
  /-- What was wrong. -/
  issues : List Issue

/-- Reads the option of a name, if it is given. -/
def field {β : Type} (given : List (String × Value)) (name : String) (absent : β)
    (read : Value → Except Fault β) : Reading β :=
  match lookup? name given with
  | none => ⟨absent, []⟩
  | some v =>
    match read v with
    | .ok b => ⟨b, []⟩
    | .error fault => ⟨absent, [⟨name, fault⟩]⟩

end FuzzySearch.OptionReading
