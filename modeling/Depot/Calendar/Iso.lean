import Depot.Calendar

/-!
Reading dates and times in ISO 8601. A date is written by month and day or by
week and weekday, with dashes or without. Any one character divides it from the
time of day, whose hours, minutes and seconds may have colons between them and
a fraction at the end; an offset, or `Z`, may follow.
-/
namespace Depot.Calendar.Iso

def next (cs : List Char) : Char := cs.headD '\x00'

def takeDigits? (count : Nat) (cs : List Char) : Option (Nat × List Char) :=
  let ds := cs.take count
  if ds.length = count ∧ ds.all Char.isDigit then
    some (Decimal.natOfDigits ds, cs.drop count)
  else none

/-- Where a date in weeks without dashes ends: an even number of digits follows the
character after it. -/
def weekLength (cs : List Char) : Nat :=
  let length := 7 + ((cs.drop 7).takeWhile Char.isDigit).length
  if length < 9 then length else if length % 2 = 0 then 7 else 8

def dateLength (cs : List Char) : Nat :=
  if cs.length = 7 then 7
  else if cs[4]? = some '-' then
    if cs[5]? = some 'W' then
      if cs[8]? = some '-' then
        if 10 < cs.length ∧ (cs[10]?.any Char.isDigit) then 8 else 10
      else 8
    else 10
  else if cs[4]? = some 'W' then weekLength cs
  else 8

def weekday (n : Int) : Int := (n + 3).fmod 7

def firstMonday (year : Int) : Int :=
  let first := Date.dayNumber ⟨year, 1, 1⟩
  let day := weekday first
  first - day + (if 3 < day then 7 else 0)

def isLong (year : Int) : Bool :=
  let day := weekday (Date.dayNumber ⟨year, 1, 1⟩)
  day = 3 || (day = 2 && isLeap year)

def ofWeek? (year : Int) (week day : Nat) : Option Date :=
  if week < 1 ∨ 53 < week ∨ (week = 53 ∧ !isLong year) ∨ day < 1 ∨ 7 < day then none
  else some (ofDayNumber (firstMonday year + (week - 1) * 7 + day - 1))

def readDate? (length : Nat) (cs : List Char) : Option Date := do
  let (year, rest) ← takeDigits? 4 cs
  let dashed := next rest = '-'
  let rest := if dashed then rest.drop 1 else rest
  let afterDash (rest : List Char) : Option (List Char) :=
    if !dashed then some rest else if next rest = '-' then some (rest.drop 1) else none
  let date ←
    if next rest = 'W' then do
      let (week, rest) ← takeDigits? 2 (rest.drop 1)
      if cs.length - rest.length < length then
        let (day, _) ← takeDigits? 1 (← afterDash rest)
        ofWeek? year week day
      else ofWeek? year week 1
    else do
      let (month, rest) ← takeDigits? 2 rest
      let (day, _) ← takeDigits? 2 (← afterDash rest)
      some ⟨year, month, day⟩
  (date? date.year date.month date.day).toOption

/-- Up to six digits of a fraction as microseconds; further digits are passed over.
Says whether anything else is left. -/
def readFraction? (cs after : List Char) : Option (Nat × Bool) := do
  let count := min 6 cs.length
  let (n, rest) ← takeDigits? count cs
  let left := (rest ++ after).dropWhile Char.isDigit
  return (n * Nat.pow 10 (6 - count), next left ≠ '\x00')

/-- The numbers of a time of day, `left` of them; `after` is the text behind it. Without
a colon after the hours there is none further on. Says whether anything is left. -/
def readClock? (after : List Char) :
    Nat → Option Bool → List Nat → List Char → Option (List Nat × Nat × Bool)
  | 0, _, numbers, cs => do
    let (fraction, left) ← readFraction? cs after
    return (numbers.reverse, fraction, left)
  | left + 1, colons, numbers, cs => do
    let (n, rest) ← takeDigits? 2 cs
    let mark := next (rest ++ after)
    let colons := colons.getD (mark = ':')
    if rest.length ≤ 1 ∧ mark.toNat < 0x80 then return ((n :: numbers).reverse, 0, mark ≠ '\x00')
    else if colons && mark = ':' then
      readClock? after left (some colons) (n :: numbers) (rest.drop 1)
    else if mark = '.' ∨ mark = ',' then do
      let (fraction, more) ← readFraction? (rest.drop 1) after
      return ((n :: numbers).reverse, fraction, more)
    else if colons then none
    else readClock? after left (some colons) (n :: numbers) rest

def numberAt (numbers : List Nat) (i : Nat) : Nat := numbers.getD i 0

def readTime? (cs : List Char) : Option (Nat × Int) := do
  let isMark (c : Char) : Bool := c = '+' || c = '-' || c = 'Z'
  let clock := cs.takeWhile (!isMark ·)
  let zone := cs.dropWhile (!isMark ·)
  let (numbers, fraction, left) ← readClock? zone 3 none [] clock
  let second ←
    (secondOfDay? (numberAt numbers 0) (numberAt numbers 1) (numberAt numbers 2)).toOption
  let time := second * 1000000 + fraction
  match zone with
  | [] => if left then none else some (time, 0)
  | 'Z' :: rest => if next rest = '\x00' then some (time, 0) else none
  | sign :: rest =>
    let (numbers, fraction, left) ← readClock? [] 3 none [] rest
    let seconds := 3600 * numberAt numbers 0 + 60 * numberAt numbers 1 + numberAt numbers 2
    let size := if seconds = 0 then 0 else 1000000 * seconds + fraction
    if left || microsecondsPerDay ≤ size then none
    else some (time, if sign = '-' then -(size : Int) else size)

def parse? (s : String) : Option Instant := do
  let cs := s.toList
  if cs.length < 7 then none
  let length := dateLength cs
  let start := (← readDate? length cs).dayNumber * microsecondsPerDay
  match cs.drop length with
  | [] => return start
  | _ :: rest => do
    let (time, offset) ← readTime? rest
    return start + time - offset

end Depot.Calendar.Iso
