import Depot.Fault

/-!
Log levels. A level is a number, and a record is as severe as its level. Some
levels have two names.
-/
namespace Depot.Logging

abbrev Level := Nat

def info : Level := 20

def warning : Level := 30

def levelNames : List (String × Level) :=
  [("DEBUG", 10), ("INFO", info), ("WARNING", warning), ("WARN", warning), ("ERROR", 40),
   ("CRITICAL", 50), ("FATAL", 50), ("NOTSET", 0)]

def capital (c : Char) : List Char :=
  if c = 'ı' then ['I']
  else if c = 'ſ' then ['S']
  else if c = 'ﬅ' ∨ c = 'ﬆ' then ['S', 'T']
  else [c.toUpper]

def basicTemplate : String := "%(levelname)s:%(name)s:%(message)s"

/-- The level of a name in any case; a name that is not known means the usual level. Two
names stand for something else and are refused. -/
def levelOf (name : String) : Except Fault Level :=
  let key := String.ofList (name.toList.flatMap capital)
  if key = "BASIC_FORMAT" then .error (.unknownLevel basicTemplate)
  else if key = "_STYLES" then .error .wrongType
  else .ok ((levelNames.lookup key).getD info)

def levelName (level : Level) : String :=
  match levelNames.find? (·.2 = level) with
  | some n => n.1
  | none => "Level " ++ toString level

end Depot.Logging
