import Depot.Decimal.Reading

/-!
Dates of the Gregorian calendar and times of day. Days are counted from the
first of January 1970. Dates that a program may name run from year 1 to year
9999; others come up only where a number of seconds is shown.
-/
namespace Depot.Calendar

structure Date where
  year : Int
  month : Nat
  day : Nat
  deriving DecidableEq, Repr

def isLeap (year : Int) : Bool := year % 4 = 0 && (year % 100 ≠ 0 || year % 400 = 0)

def monthLength (year : Int) (month : Nat) : Nat :=
  if month = 2 then (if isLeap year then 29 else 28)
  else if month ∈ [4, 6, 9, 11] then 30
  else 31

inductive Misfit
  | year (n : Int)
  | month
  | day
  | hour
  | minute
  | second
  /-- An offset of a day or more, in seconds. -/
  | offset (seconds : Int)
  deriving DecidableEq, Repr

def date? (year : Int) (month day : Nat) : Except Misfit Date :=
  if year < 1 ∨ 9999 < year then .error (.year year)
  else if month < 1 ∨ 12 < month then .error .month
  else if day < 1 ∨ monthLength year month < day then .error .day
  else .ok ⟨year, month, day⟩

def secondOfDay? (hour minute second : Nat) : Except Misfit Nat :=
  if 23 < hour then .error .hour
  else if 59 < minute then .error .minute
  else if 59 < second then .error .second
  else .ok (3600 * hour + 60 * minute + second)

def secondsPerDay : Int := 86400

def offset? (seconds : Int) : Except Misfit Int :=
  if -secondsPerDay < seconds ∧ seconds < secondsPerDay then .ok seconds
  else .error (.offset seconds)

def lengthText (seconds : Int) : String :=
  let days := seconds.fdiv secondsPerDay
  let rest := seconds.fmod secondsPerDay
  let parts := (if days = 0 then [] else ["days=" ++ toString days])
    ++ (if rest = 0 then [] else ["seconds=" ++ toString rest])
  "datetime.timedelta(" ++ (if parts.isEmpty then "0" else ", ".intercalate parts) ++ ")"

def Misfit.message : Misfit → String
  | year n => "year " ++ toString n ++ " is out of range"
  | month => "month must be in 1..12"
  | day => "day is out of range for month"
  | hour => "hour must be in 0..23"
  | minute => "minute must be in 0..59"
  | second => "second must be in 0..59"
  | offset seconds => "offset must be a timedelta strictly between -timedelta(hours=24) and "
      ++ "timedelta(hours=24), not " ++ lengthText seconds ++ "."

def Date.dayNumber (d : Date) : Int :=
  let y := if d.month ≤ 2 then d.year - 1 else d.year
  let m : Int := (d.month + 9) % 12
  365 * y + y.fdiv 4 - y.fdiv 100 + y.fdiv 400 + (153 * m + 2).fdiv 5 + d.day - 1 - 719468

def ofDayNumber (n : Int) : Date :=
  let z := n + 719468
  let era := z.fdiv 146097
  let dayOfEra := (z - era * 146097).toNat
  let yearOfEra := (dayOfEra - dayOfEra / 1460 + dayOfEra / 36524 - dayOfEra / 146096) / 365
  let dayOfYear := dayOfEra - (365 * yearOfEra + yearOfEra / 4 - yearOfEra / 100)
  let shifted := (5 * dayOfYear + 2) / 153
  let month := if shifted < 10 then shifted + 3 else shifted - 9
  let year : Int := yearOfEra + era * 400 + (if month ≤ 2 then 1 else 0)
  ⟨year, month, dayOfYear - (153 * shifted + 2) / 5 + 1⟩

/-- An instant is a number of microseconds since the start of 1970. -/
abbrev Instant := Int

def microsecondsPerDay : Int := 86400000000

def firstInstant : Instant := Date.dayNumber ⟨1, 1, 1⟩ * microsecondsPerDay

def lastInstant : Instant := (Date.dayNumber ⟨9999, 12, 31⟩ + 1) * microsecondsPerDay - 1

def inRange (t : Instant) : Bool := firstInstant ≤ t && t ≤ lastInstant

def padded (width n : Nat) : String :=
  let ds := Nat.toDigits 10 n
  String.ofList (List.replicate (width - ds.length) '0' ++ ds)

def dateText (year : String) (d : Date) : String :=
  year ++ "-" ++ padded 2 d.month ++ "-" ++ padded 2 d.day

def clockText (second : Nat) : String :=
  padded 2 (second / 3600) ++ ":" ++ padded 2 (second / 60 % 60) ++ ":" ++ padded 2 (second % 60)

def dayOf (t : Instant) : Int := t.fdiv microsecondsPerDay

def microsecondOfDay (t : Instant) : Nat := (t.fmod microsecondsPerDay).toNat

/-- Date and time of a second, with a comma before the milliseconds, which take three
places with their sign. The year has as many digits as it needs. -/
def stampText (second milliseconds : Int) : String :=
  let d := ofDayNumber (second.fdiv secondsPerDay)
  dateText (toString d.year) d ++ " " ++ clockText (second.fmod secondsPerDay).toNat ++ ","
    ++ (if milliseconds < 0 then "-" ++ padded 2 milliseconds.natAbs
      else padded 3 milliseconds.toNat)

def isoText (t : Instant) : String :=
  let us := microsecondOfDay t
  let fraction := us % 1000000
  let d := ofDayNumber (dayOf t)
  dateText (padded 4 d.year.toNat) d ++ "T" ++ clockText (us / 1000000)
    ++ (if fraction = 0 then "" else "." ++ padded 6 fraction) ++ "+00:00"

end Depot.Calendar
