import Depot.Calendar
import Depot.Decimal.Whole
import Depot.Json.Printer
import Depot.Logging.Level

/-!
Log records and their lines. A text line has the time, the level, the logger
and the message, and an exception on a line of its own. A JSON line is one
object, in which the extras stand under names of their own. A time that the
calendar does not reach cannot be shown, nor a number of too many digits, nor in a text
line half of a surrogate pair, and such a record has no line.
-/
namespace Depot.Logging

structure Record where
  /-- Seconds since the start of 1970. -/
  time : Float
  milliseconds : Int
  level : Level
  logger : Text.Loose
  message : Text.Loose
  exception : Option Text.Loose
  extras : List (String × Json)

def extraNames : List String := ["path", "channel", "delay", "batch_size", "state"]

inductive Format
  | text
  | json
  deriving DecidableEq, Repr

def Format.ofName (name : String) : Format := if name = "json" then .json else .text

namespace Record

def timeOf (second milliseconds : Int) : Float :=
  Decimal.ofInt second + Decimal.ofInt milliseconds / 1000.0

/-- The second in which the record was made, if its year is a 32-bit number. -/
def second? (r : Record) : Option Int :=
  (Decimal.floor? r.time).filter fun n => -67768040609740800 ≤ n && n ≤ 67767976233532799

def instant? (r : Record) : Option Calendar.Instant :=
  (Decimal.inUnits? 1000000 r.time).filter fun t => Calendar.inRange t

def textLine? (r : Record) : Option String := do
  let line := Calendar.stampText (← r.second?) r.milliseconds ++ " " ++ levelName r.level ++ " "
    ++ (← r.logger.text?) ++ ": " ++ (← r.message.text?)
  match r.exception with
  | none => return line
  | some exception =>
    return line ++ (if line.toList.getLast? = some '\n' then "" else "\n") ++ (← exception.text?)

def shownExtras (r : Record) : List (String × Json) :=
  extraNames.filterMap fun name =>
    match r.extras.lookup name with
    | none => none
    | some .null => none
    | some v => some (name, v)

def members (r : Record) (t : Calendar.Instant) : List (String × Json) :=
  [("timestamp", .text (Calendar.isoText t)), ("level", .text (levelName r.level)),
    ("logger", .ofLoose r.logger), ("message", .ofLoose r.message)]
    ++ (r.exception.map fun text => ("exception", Json.ofLoose text)).toList ++ r.shownExtras

def jsonLine? (r : Record) : Option String := do
  let t ← r.instant?
  (Json.object (r.members t)).render?

def line? (r : Record) : Format → Option String
  | .text => r.textLine?
  | .json => r.jsonLine?

end Record

end Depot.Logging
