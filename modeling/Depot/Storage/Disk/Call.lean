import Depot.Storage.Backend
import Depot.Storage.Disk.Tree

/-!
The calls that change a tree. A call that is refused changes nothing; an
operation of a store is a sequence of calls, and one that is refused leaves
what the calls before it did. Here a call is refused for what stands in the
tree alone; what becomes of calls that fail for other reasons is a matter of
the proofs about interruptions.
-/
namespace Depot.Storage.Disk

inductive Call
  | makeFolder (p : Place)
  | makeLink (p : Place) (target : String)
  /-- An empty file, new or in place of what the file held. -/
  | create (p : Place)
  /-- Adds to the end of a file, which is made if need be, until all is there. -/
  | extend (p : Place) (data : Bytes)
  /-- Adds once as much as the system takes at a time. How much that was is not looked at. -/
  | write (p : Place) (data : Bytes)
  /-- Makes earlier calls on the file durable. -/
  | sync (p : Place)
  /-- Moves a file over whatever file is at the other place, in one step. -/
  | rename (source target : Place)
  | unlink (p : Place)
  | removeFolder (p : Place)
  | removeTree (p : Place)
  deriving DecidableEq

/-- The most that one write call takes. -/
def writeLimit : Nat := 0x7ffff000

def stored (data : Bytes) : Bytes := data.take writeLimit

def Tree.add (t : Tree) (p : Place) (data : Bytes) : Except OsFault Tree := do
  let real ← t.locate .output p
  match t.node? real with
  | some .folder => .error .isDirectory
  | some (.file content) => .ok (t.put real (.file (content ++ data)))
  | _ => .ok (t.put real (.file data))

namespace Call

def exec (t : Tree) : Call → Except OsFault Tree
  | makeFolder p => do
    let real ← t.locate .itself p
    match t.node? real with
    | some _ => .error .alreadyThere
    | none => .ok (t.put real .folder)
  | makeLink p target => do
    if target.toList.contains '\x00' then throw .nulByte
    if target = "" then throw .noEntry
    let real ← t.locate .itself p
    match t.node? real with
    | some _ => .error .alreadyThere
    | none => .ok (t.put real (.link target))
  | create p => do
    let real ← t.locate .output p
    match t.node? real with
    | some .folder => .error .isDirectory
    | _ => .ok (t.put real (.file []))
  | extend p data => t.add p data
  | write p data => t.add p (stored data)
  | sync p => do
    let real ← t.locate .target p
    match t.node? real with
    | some _ => .ok t
    | none => .error .noEntry
  | rename source target => do
    if Tree.hasNul target then .error .nulByte
    let old ← t.locate .itself source
    let new ← t.locate .itself target
    match t.node? old, t.node? new with
    | none, _ => .error .noEntry
    | some _, some .folder => .error .isDirectory
    | some n, _ => .ok ((t.remove old).put new n)
  | unlink p => do
    let real ← t.locate .itself p
    match t.node? real with
    | none => .error .noEntry
    | some .folder => .error .isDirectory
    | some _ => .ok (t.remove real)
  | removeFolder p => do
    let real ← t.locate .itself p
    match t.node? real with
    | none => .error .noEntry
    | some .folder => if t.children real = [] then .ok (t.remove real) else .error .notEmpty
    | some _ => .error .notDirectory
  | removeTree p => do
    let real ← t.locate .itself p
    match t.node? real with
    | none => .error .noEntry
    | some .folder => .ok (t.removeBelow real)
    | some (.file _) => .error .notDirectory
    | some (.link _) =>
      match t.stat p with
      | .ok _ => .error .linkRefused
      | .error e => .error e

end Call

abbrev Os := ExceptT OsFault (StateM Tree)

namespace Os

def perform (c : Call) : Os Unit := do
  match c.exec (← get) with
  | .ok t => set t
  | .error e => throw e

def performAll : List Call → Os Unit
  | [] => pure ()
  | c :: rest => do
    perform c
    performAll rest

def allowing (expected : OsFault → Bool) (a : Os Unit) : Os Unit :=
  tryCatch a fun e => if expected e then pure () else throw e

def act {α : Type} (a : Os α) : Action Tree α := ExceptT.adapt OsFault.toFault a

def ask {α : Type} (f : Tree → Except OsFault α) : Os α := do
  match f (← get) with
  | .ok a => return a
  | .error e => throw e

end Os

end Depot.Storage.Disk
