import FuzzySearch.Decimal.Layout
import FuzzySearch.Value.Number

/-!
# Timestamps

A moment is given in seconds since the beginning of 1970 and shown as date and time of day in
universal time.  The date is found by counting days in cycles of 400 years, which begin in March so
that a leap day ends its year.
-/

namespace FuzzySearch.Log

/-- A day of the calendar. -/
structure Date where
  /-- The year. -/
  year : Int
  /-- The month, from one. -/
  month : Int
  /-- The day of the month, from one. -/
  day : Int
  deriving DecidableEq, Repr

/-- The date of the day that comes so many days after the first day of 1970. -/
def Date.ofDays (days : Int) : Date :=
  let shifted := days + 719468
  let cycle := shifted.fdiv 146097
  let dayOfCycle := shifted - cycle * 146097
  let yearOfCycle :=
    (dayOfCycle - dayOfCycle / 1460 + dayOfCycle / 36524 - dayOfCycle / 146096) / 365
  let dayOfYear := dayOfCycle - (365 * yearOfCycle + yearOfCycle / 4 - yearOfCycle / 100)
  let monthFromMarch := (5 * dayOfYear + 2) / 153
  let month := if monthFromMarch < 10 then monthFromMarch + 3 else monthFromMarch - 9
  { year := yearOfCycle + cycle * 400 + if month ≤ 2 then 1 else 0
    month := month
    day := dayOfYear - (153 * monthFromMarch + 2) / 5 + 1 }

/-- The digits of a number, at least `width` of them. -/
def paddedNumber (width : Nat) (n : Int) : String :=
  String.ofList (Decimal.padZeros width (Decimal.natText n.toNat))

/-- The seconds of the first and the last moment whose years after 1900, counted back and forth, fit
in 32 bits. -/
def calendarBounds : Int × Int := (-67768040609740800, 67768036191676799)

/-- The text of a moment, given in seconds and millionths; it is shown if its year has one to four
digits. -/
def momentText (seconds micros : Int) : Except SearchError String :=
  let days := seconds.fdiv 86400
  let date := Date.ofDays days
  let rest := seconds - days * 86400
  if seconds < calendarBounds.1 || calendarBounds.2 < seconds then .error .outsideCalendar
  else if date.year < 1 || 9999 < date.year then .error .malformed
  else
    let fraction := if micros = 0 then "" else "." ++ paddedNumber 6 micros
    .ok (paddedNumber 4 date.year ++ "-" ++ paddedNumber 2 date.month ++ "-" ++
      paddedNumber 2 date.day ++ "T" ++ paddedNumber 2 (rest / 3600) ++ ":" ++
      paddedNumber 2 (rest / 60 % 60) ++ ":" ++ paddedNumber 2 (rest % 60) ++ fraction ++ "+00:00")

/-- The integer nearest to a number, a half going to the even neighbour. -/
def nearestInteger (x : Float) : Int :=
  match Decimal.decode? x with
  | none => 0
  | some b =>
    let size : Int := Decimal.roundQuotient b.num b.den
    if b.negative then -size else size

/-- Seconds and millionths of a moment that is given as a number. -/
def splitMoment (x : Float) : Int × Int :=
  let whole := ((Decimal.decode? x).map (·.truncate)).getD 0
  let micros := nearestInteger ((x - Decimal.nearestInt whole) * 1e6)
  if 1000000 ≤ micros then (whole + 1, micros - 1000000)
  else if micros < 0 then (whole - 1, micros + 1000000)
  else (whole, micros)

/-- The greatest number of seconds that a moment can have, and one more. -/
def momentLimit : Int := (1 <<< 63 : Nat)

/-- The text of the moment that a value gives. -/
def timestamp (created : Value) : Except SearchError String :=
  match created with
  | .float x =>
    if x.isNaN then .error .malformed
    else if x.isInf || Decimal.nearestInt momentLimit ≤ x.abs then .error .tooLarge
    else
      let (seconds, micros) := splitMoment x
      momentText seconds micros
  | v =>
    match v.integer? with
    | none => .error .wrongKind
    | some n =>
      if n < -momentLimit || momentLimit ≤ n then .error .tooLarge else momentText n 0

example : Date.ofDays 11016 = ⟨2000, 2, 29⟩ := by decide
example : Date.ofDays (-1) = ⟨1969, 12, 31⟩ := by decide

end FuzzySearch.Log
