import Depot.Logging.Level
import Depot.OrderedMap
import Depot.Text.Loose

/-!
The loggers that there are. A logger is made when its name is first asked for, and it stands below
the nearest logger whose name it extends after a dot. The names on the way to that one note who is
waiting for them. When such a name is asked for in its turn, those that wait are put below it.
-/
namespace Depot.Logging

abbrev Name := List Nat

def nameOf (s : String) : Name := Text.Loose.units s

def rootName : String := "root"

def root : Name := nameOf rootName

def isRoot (name : Name) : Bool := name = [] || name = root

inductive Seat
  /-- A logger, right below the root if it has no parent. -/
  | logger (level : Level) (parent : Option Name)
  /-- No logger so far, but some that would be below it. -/
  | awaited (below : List Name)

abbrev Loggers := OrderedMap Name Seat

def dot : Nat := 0x2E

/-- The names above a reversed name, nearest first. It is cut before each dot that has something
before it, but not before the first of two dots side by side when it has been cut before the
second. -/
def cuts : Name → List Name
  | [] => []
  | c :: rest =>
    if c = dot then
      match rest with
      | [] => []
      | d :: further => (d :: further).reverse :: cuts further
    else cuts rest

def above (name : Name) : List Name := cuts name.reverse

namespace Loggers

def isLogger (m : Loggers) (name : Name) : Bool :=
  match m.get? name with
  | some (.logger _ _) => true
  | _ => false

def level (m : Loggers) (name : Name) : Level :=
  match m.get? name with
  | some (.logger level _) => level
  | _ => 0

def waiting (m : Loggers) (name : Name) : List Name :=
  match m.get? name with
  | some (.awaited below) => below
  | _ => []

def seek (child : Name) : List Name → Loggers → Option Name × Loggers
  | [], m => (none, m)
  | name :: rest, m =>
    if isLogger m name then (some name, m)
    else seek child rest (m.insert name (.awaited (waiting m name ++ [child])))

/-- Puts a logger below a new one, unless the name of the one that it is below begins with the new
name; the root counts with its own name. -/
def adopt (name : Name) (m : Loggers) (child : Name) : Loggers :=
  match m.get? child with
  | some (.logger level parent) =>
    if name.isPrefixOf (parent.getD root) then m
    else m.insert child (.logger level (some name))
  | _ => m

def make (m : Loggers) (name : Name) : Loggers :=
  let adopted := (waiting m name).foldl (adopt name) (m.insert name (.logger 0 none))
  let (parent, linked) := seek name (above name) adopted
  linked.insert name (.logger 0 parent)

def ask (m : Loggers) (name : Name) : Loggers := if isLogger m name then m else make m name

def setLevel (m : Loggers) (name : Name) (level : Level) : Loggers :=
  match m.get? name with
  | some (.logger _ parent) => m.insert name (.logger level parent)
  | _ => m

def lineage (m : Loggers) (name : Name) : List Name := go name.length name
where
  go : Nat → Name → List Name
    | 0, _ => []
    | k + 1, name =>
      match m.get? name with
      | some (.logger _ (some parent)) => name :: go k parent
      | _ => [name]

end Loggers

end Depot.Logging
