import Depot.Calendar.Iso
import Depot.Json.Parser
import Depot.Json.Printer
import Depot.Storage.Memory.Table

/-!
Snapshots of a table in a file of rows. Saving replaces the file as a whole;
loading adds the rows, one after another, to whatever the table holds. A row
that cannot be read spoils the whole load, and the table starts empty.
-/
namespace Depot.Storage.Memory

/-- What may stand in the data cell of a row. A number stands for that many zeros. -/
inductive Cell
  | bytes (b : Bytes)
  | text (s : String)
  | count (n : Int)
  | null
  deriving DecidableEq

inductive Stamp
  | saved (t : Calendar.Instant)
  | text (s : String)
  deriving DecidableEq

instance : Coe String Stamp := ⟨.text⟩

structure Row where
  path : String
  data : Cell
  metadata : String
  time : Stamp
  deriving DecidableEq

inductive SnapshotFile
  | absent
  | folder
  | garbage
  | rows (rows : List Row)
  deriving DecidableEq

namespace Cell

def countLimit : Int := Int.pow 2 36

def content? : Cell → Option Bytes
  | bytes b => some b
  | count n => if 0 ≤ n ∧ n ≤ countLimit then some (List.replicate n.toNat 0) else none
  | text _ | null => none

end Cell

def Stamp.instant? : Stamp → Option Calendar.Instant
  | saved t => some t
  | text s => Calendar.Iso.parse? s

namespace Row

def ofStored (path : String) (f : Stored) (time : Calendar.Instant) : Row :=
  ⟨path, .bytes f.content, f.metadata.render, .saved time⟩

def stored? (r : Row) : Option (Stored × Calendar.Instant) := do
  let content ← r.data.content?
  let time ← r.time.instant?
  return (⟨content, ← (Json.read Json.usualDepth r.metadata).toOption⟩, time)

end Row

namespace Table

/-- Replaces what is under the path, but counts the new size on top. -/
def addRow (t : Table) (path : String) (f : Stored) (time : Calendar.Instant) : Table where
  files := t.files.insert path f
  size := t.size + f.content.length
  times := t.times.set path time

def loadRows? (t : Table) : List Row → Option Table
  | [] => some t
  | r :: rest => do
    let (f, time) ← r.stored?
    loadRows? (t.addRow r.path f time) rest

def load (t : Table) : SnapshotFile → Table
  | .absent => t
  | .folder | .garbage => empty t.times
  | .rows rows => (t.loadRows? rows).getD (empty t.times)

def toRows (t : Table) : List Row :=
  t.files.entries.map fun e => .ofStored e.1 e.2 (t.times.last e.1)

def save (t : Table) : SnapshotFile → SnapshotFile
  | .folder => .folder
  | _ => .rows t.toRows

end Table

end Depot.Storage.Memory
