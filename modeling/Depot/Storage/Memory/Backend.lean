import Depot.Decimal.Reading
import Depot.Storage.Backend
import Depot.Storage.Memory.Snapshot

/-!
The in-memory store with its snapshot file and its clock. With snapshots on,
opening loads the file and starts a timer, closing stops that timer and saves,
and a timer that is due saves and starts anew.
-/
namespace Depot.Storage.Memory

inductive Persistence
  | none
  | snapshot
  deriving DecidableEq, Repr

namespace Persistence

def ofName? : String → Except Fault Persistence
  | "none" => .ok .none
  | "snapshot" => .ok .snapshot
  | other => .error (.unknownPersistence other)

def name : Persistence → String
  | .none => "none"
  | .snapshot => "snapshot"

end Persistence

structure Config where
  hierarchical : Bool := false
  /-- Largest total of content sizes; no limit unless positive. -/
  limit : Int := 0
  persistence : Persistence := .none
  snapshotPath : String := "./data/memory.snap"
  /-- Seconds between saves; no saves in between unless positive. -/
  interval : Int := 300
  deriving DecidableEq, Repr

inductive Owner
  /-- The store, which stops this timer when it closes. -/
  | store
  /-- The store, which has forgotten this timer. -/
  | forgotten
  /-- A store that was given up, with the table it had then. -/
  | gone (table : Table)

structure Timer where
  due : Float
  owner : Owner

def Timer.isKnown (t : Timer) : Bool :=
  match t.owner with
  | .store => true
  | _ => false

structure State where
  table : Table
  file : SnapshotFile
  /-- In seconds. -/
  now : Float
  /-- Running timers in the order in which they began to wait. -/
  timers : List Timer

namespace State

def fresh (times : Times String := .still) : State := ⟨.empty times, .absent, 0, []⟩

def save (s : State) : State := { s with file := s.table.save s.file }

def period (c : Config) : Float := Decimal.ofInt c.interval

def forget (s : State) : List Timer :=
  s.timers.map fun t => if t.isKnown then { t with owner := .forgotten } else t

def opened (c : Config) (s : State) : State :=
  match c.persistence with
  | .none => s
  | .snapshot =>
    let s := { s with table := s.table.load s.file }
    if 0 < c.interval then { s with timers := s.forget ++ [⟨s.now + period c, .store⟩] } else s

def stopped (s : State) : State := { s with timers := s.timers.filter (!·.isKnown) }

def closed (c : Config) (s : State) : State :=
  match c.persistence with
  | .none => s.stopped
  | .snapshot => s.stopped.save

def tableOf (s : State) : Owner → Table
  | .gone table => table
  | _ => s.table

/-- Lets time pass; answers the new state and how many timers were due. Each of
them saves once and is then due a full period later. -/
def advance (c : Config) (seconds : Float) (s : State) : State × Nat :=
  let now := s.now + seconds
  let due := s.timers.filter (·.due ≤ now)
  let waiting := s.timers.filter fun t => !(t.due ≤ now)
  let file := due.foldl (fun file t => (s.tableOf t.owner).save file) s.file
  let again := due.map fun t => { t with due := now + period c }
  ({ s with now := now, file := file, timers := waiting ++ again }, due.length)

/-- A new store over the same file: the old one is closed first, or just dropped. Timers
that the old one had forgotten go on with its table. -/
def reopened (c : Config) (crash : Bool) (s : State) : State :=
  let s := if crash then s.stopped else s.closed c
  let left := s.timers.map fun t => match t.owner with
    | .gone _ => t
    | _ => { t with owner := .gone s.table }
  { fresh s.table.times with file := s.file, now := s.now, timers := left }.opened c

end State

def onTable (f : Table → Except Fault Table) : Action State Unit :=
  Action.ofTransition fun s => (f s.table).map fun t => { s with table := t }

def backend (c : Config) : Backend State where
  hierarchical := c.hierarchical
  init := modify (State.opened c)
  close := modify (State.closed c)
  level s path o := s.table.level c.hierarchical path o
  folders s := s.table.folderBound
  holds s path := .ok (s.table.files.contains path)
  entry? s path := s.table.entry? path
  read s path := s.table.read path
  write path data append :=
    (Table.write c.limit path data append).zoom (·.table) fun t s => { s with table := t }
  delete path := onTable fun t => .ok (t.delete path)
  setMetadata path m := onTable fun t => t.setMetadata path (.ofTexts m)

end Depot.Storage.Memory
