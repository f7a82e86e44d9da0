import LosslessSyntax.Value.Basic

/-!
# Timestamps

Instants are whole milliseconds, counted from the start of 1970. A timestamp is the date and the time of day in the
proleptic Gregorian calendar, to the second. Only instants within a hundred million days of the start have one.
-/

namespace LosslessSyntax

/-- A day of the calendar. -/
structure Date where
  year : Int
  month : Nat
  day : Nat
  deriving DecidableEq, Repr

namespace Date

/-- Days in 400 years. -/
def daysPerCycle : Nat := 146097

/-- The date of a day counted from the start of 1970. Years are taken from March to February, so that a leap day is the
last day of its year, and in cycles of 400, which all have the same number of days. -/
def ofDays (days : Int) : Date :=
  let shifted := days + 719468
  let cycle := shifted.fdiv daysPerCycle
  let dayOfCycle := (shifted.fmod daysPerCycle).toNat
  let yearOfCycle := (dayOfCycle - dayOfCycle / 1460 + dayOfCycle / 36524 - dayOfCycle / 146096) / 365
  let dayOfYear := dayOfCycle - (365 * yearOfCycle + yearOfCycle / 4 - yearOfCycle / 100)
  let monthFromMarch := (5 * dayOfYear + 2) / 153
  let day := dayOfYear - (153 * monthFromMarch + 2) / 5 + 1
  let month := if monthFromMarch < 10 then monthFromMarch + 3 else monthFromMarch - 9
  let year := (yearOfCycle : Int) + 400 * cycle + if month ≤ 2 then 1 else 0
  { year, month, day }

end Date

namespace Timestamp

/-- A number with zeros in front, up to a width. -/
def padded (width n : Nat) : String :=
  let digits := Nat.toDigits 10 n
  String.ofList (List.replicate (width - digits.length) '0' ++ digits)

/-- Years have four digits; those before 0 or after 9999 have a sign and six. -/
def yearText (year : Int) : String :=
  if 0 ≤ year ∧ year ≤ 9999 then padded 4 year.toNat
  else (if year < 0 then "-" else "+") ++ padded 6 year.natAbs

/-- Milliseconds in a day. -/
def millisPerDay : Int := 86400000

/-- The timestamp of a number of milliseconds. -/
def ofMillis (millis : Int) : Text :=
  let date := Date.ofDays (millis.fdiv millisPerDay)
  let seconds := (millis.fmod millisPerDay).toNat / 1000
  let year := yearText date.year
  let month := padded 2 date.month
  let day := padded 2 date.day
  let hour := padded 2 (seconds / 3600)
  let minute := padded 2 (seconds / 60 % 60)
  let second := padded 2 (seconds % 60)
  s!"{year}-{month}-{day}T{hour}:{minute}:{second}"

/-- The number of milliseconds to which instants reach from the start on both sides. -/
def reach : Nat := 8640000000000000

/-- The instant that a number of milliseconds names: a whole one, without the fraction, or none. -/
def instant : Number → Number
  | .finite q => if (Number.truncate q).natAbs ≤ reach then .ofInt (Number.truncate q) else .nan
  | _ => .nan

/-- The timestamp of an instant. -/
def ofInstant (n : Number) : Except Misuse Text :=
  match n.toInt? with
  | some millis => .ok (ofMillis millis)
  | none => .error .noInstant

end Timestamp

end LosslessSyntax
