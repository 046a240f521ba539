import Depot.Action
import Depot.Logging.Hierarchy
import Depot.Logging.Record

/-!
Which records are written, where, and how. A logger without a level of its own has the level of
the nearest logger above it that has one, or that of the root. A setup replaces the root's
handlers and level, and sets the levels that it names.
-/
namespace Depot.Logging

abbrev Stream := Nat

structure Handler where
  stream : Stream
  format : Format
  deriving DecidableEq, Repr

structure Setup where
  rootLevel : Level
  handlers : List Handler
  loggers : Loggers

namespace Setup

/-- Before anything is set up, there is no stream for records. What the root then shows of warnings
for want of a handler is left out. -/
def initial : Setup := ⟨warning, [], .empty⟩

def shownName (logger : String) : String := if logger = "" then rootName else logger

def ask (s : Setup) (logger : Name) : Setup :=
  if isRoot logger then s else { s with loggers := s.loggers.ask logger }

def setLevel (s : Setup) (logger : Name) (level : Level) : Setup :=
  if isRoot logger then { s with rootLevel := level }
  else { s with loggers := (s.loggers.ask logger).setLevel logger level }

def setLevels : List (String × String) → Action Setup Unit
  | [] => pure ()
  | (logger, name) :: rest => do
    modify (·.ask (nameOf logger))
    let level ← levelOf name
    modify (·.setLevel (nameOf logger) level)
    setLevels rest

def configure (level format : String) (loggerLevels : List (String × String)) (stream : Stream) :
    Action Setup Unit := do
  let rootLevel ← levelOf level
  modify fun s => { s with rootLevel := rootLevel, handlers := [⟨stream, .ofName format⟩] }
  setLevels loggerLevels

def effectiveLevel (s : Setup) (logger : Name) : Level :=
  if isRoot logger then s.rootLevel
  else
    let loggers := s.loggers.ask logger
    (((loggers.lineage logger).map loggers.level).find? (· ≠ 0)).getD s.rootLevel

def emits (s : Setup) (logger : Name) (level : Level) : Bool :=
  0 < level && s.effectiveLevel logger ≤ level

def write (s : Setup) (r : Record) : List (Stream × String) :=
  if s.emits r.logger.units r.level then
    s.handlers.filterMap fun h => (r.line? h.format).map fun line => (h.stream, line ++ "\n")
  else []

end Setup

end Depot.Logging
