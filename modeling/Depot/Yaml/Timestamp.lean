import Depot.Calendar
import Depot.Fault

/-!
Dates in documents. A date alone has two digits for the month and the day; before
a time of day one digit may do. The time of day may have a fraction, of which six
digits count, and an offset from universal time.
-/
namespace Depot.Yaml

structure Timestamp where
  date : Calendar.Date
  /-- The microsecond of the day. -/
  time : Option Nat
  /-- Seconds ahead of universal time. -/
  offset : Option Int
  deriving DecidableEq, Repr

namespace Timestamp

def instant? (t : Timestamp) : Option Calendar.Instant := do
  return t.date.dayNumber * Calendar.microsecondsPerDay + (← t.time) - 1000000 * (← t.offset)

def same (a b : Timestamp) : Bool :=
  match a.instant?, b.instant? with
  | some s, some t => s = t
  | _, _ => a = b

def offsetText (seconds : Int) : String :=
  "tzinfo=datetime.timezone"
    ++ (if seconds = 0 then ".utc" else "(" ++ Calendar.lengthText seconds ++ ")")

def text (t : Timestamp) : String :=
  let day := [toString t.date.year, toString t.date.month, toString t.date.day]
  match t.time with
  | none => "datetime.date(" ++ ", ".intercalate day ++ ")"
  | some us =>
    let second := us / 1000000 % 60
    let fraction := us % 1000000
    let clock := [us / 3600000000, us / 60000000 % 60]
      ++ (if us % 60000000 = 0 then [] else [second])
      ++ (if fraction = 0 then [] else [fraction])
    let parts := day ++ clock.map toString ++ (t.offset.map offsetText).toList
    "datetime.datetime(" ++ ", ".intercalate parts ++ ")"

def isGap (c : Char) : Bool := c = ' ' || c = '\t'

def takeCount? (low high : Nat) (cs : List Char) : Option (Nat × List Char) :=
  let ds := cs.takeWhile Char.isDigit
  if low ≤ ds.length ∧ ds.length ≤ high then
    some (Decimal.natOfDigits ds, cs.drop ds.length)
  else none

def takeMark? (mark : Char) : List Char → Option (List Char)
  | c :: rest => if c = mark then some rest else none
  | [] => none

def readOffset? (cs : List Char) : Option (Option Int) :=
  match cs.dropWhile isGap with
  | [] => if cs.isEmpty then some none else none
  | ['Z'] => some (some 0)
  | sign :: rest => do
    if sign ≠ '+' ∧ sign ≠ '-' then none
    let (hours, rest) ← takeCount? 1 2 rest
    let (minutes, rest) ←
      if rest.isEmpty then some (0, []) else takeCount? 2 2 (← takeMark? ':' rest)
    if !rest.isEmpty then none
    let seconds : Int := 60 * (60 * hours + minutes)
    return some (if sign = '-' then -seconds else seconds)

structure Written where
  year : Nat
  month : Nat
  day : Nat
  /-- Hour, minute, second and microsecond. -/
  clock : Option (Nat × Nat × Nat × Nat)
  offset : Option Int

def readClock? (cs : List Char) : Option ((Nat × Nat × Nat × Nat) × Option Int) := do
  let (hour, rest) ← takeCount? 1 2 cs
  let (minute, rest) ← takeCount? 2 2 (← takeMark? ':' rest)
  let (second, rest) ← takeCount? 2 2 (← takeMark? ':' rest)
  match rest with
  | '.' :: rest =>
    let fraction := rest.takeWhile Char.isDigit
    let offset ← readOffset? (rest.dropWhile Char.isDigit)
    let us := Decimal.natOfDigits ((fraction ++ List.replicate 6 '0').take 6)
    return ((hour, minute, second, us), offset)
  | rest => return ((hour, minute, second, 0), ← readOffset? rest)

def read? (cs : List Char) : Option Written := do
  let (year, rest) ← takeCount? 4 4 cs
  let rest ← takeMark? '-' rest
  let (month, rest') ← takeCount? 1 2 rest
  let (day, after) ← takeCount? 1 2 (← takeMark? '-' rest')
  match after with
  | [] => if cs.length = 10 then return ⟨year, month, day, none, none⟩ else none
  | c :: rest =>
    let rest ← if c = 'T' || c = 't' then some rest
      else if isGap c then some (rest.dropWhile isGap)
      else none
    let (clock, offset) ← readClock? rest
    return ⟨year, month, day, some clock, offset⟩

def ofWritten? (w : Written) : Except Calendar.Misfit Timestamp := do
  let offset ← match w.clock, w.offset with
    | some _, some seconds => (Calendar.offset? seconds).map some
    | _, _ => .ok none
  let date ← Calendar.date? w.year w.month w.day
  match w.clock with
  | none => return ⟨date, none, none⟩
  | some (hour, minute, second, us) =>
    let time ← Calendar.secondOfDay? hour minute second
    return ⟨date, some (1000000 * time + us), offset⟩

end Timestamp

end Depot.Yaml
