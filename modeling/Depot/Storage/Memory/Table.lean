import Depot.Action
import Depot.Digest
import Depot.Listing.Options

/-!
Files held in a flat table under the exact text of their path. Folders are not
stored: a folder is there while some file lies under it. The table keeps the
total size of its contents beside them. Metadata that others wrote may be no
object, and then they cannot be shown or kept.
-/
namespace Depot.Storage.Memory

structure Stored where
  content : Bytes
  metadata : Metadata

structure Table where
  files : OrderedMap String Stored
  size : Int
  /-- When each file was last written. -/
  times : Times String

namespace Table

def empty (times : Times String := .still) : Table := ⟨.empty, 0, times⟩

def total (t : Table) : Nat := t.files.values.foldr (fun f n => f.content.length + n) 0

def contentSize (t : Table) (path : String) : Nat :=
  match t.files.get? path with
  | some f => f.content.length
  | none => 0

def folderExists (t : Table) (path : String) : Bool :=
  Path.isRoot path || t.files.keys.any (Path.isUnder · path)

def checkLayout (t : Table) (path : String) : Except Fault Unit :=
  match (Path.properAncestors path).find? t.files.contains with
  | some file => .error (.underFile path file)
  | none =>
    if !t.files.contains path && t.folderExists path then .error (.isFolder path) else .ok ()

def checkCapacity (limit : Int) (t : Table) (path : String) (length : Nat) : Except Fault Unit :=
  let additional : Int := length - t.contentSize path
  if 0 < limit ∧ 0 < additional ∧ limit < t.size + additional then
    .error (.overfull additional t.size limit)
  else .ok ()

/-- The metadata that a file keeps through a write; empty ones become an empty object. -/
def keptMetadata (t : Table) (path : String) : Except Fault Metadata :=
  match t.files.get? path with
  | some f => if f.metadata.isEmpty then .ok .empty else f.metadata.asObject
  | none => .ok .empty

def put (t : Table) (path : String) (content : Bytes) (metadata : Metadata) : Table where
  files := t.files.insert path ⟨content, metadata⟩
  size := t.size - t.contentSize path + content.length
  times := t.times.stamp path

def discount (t : Table) (path : String) : Table := { t with size := t.size - t.contentSize path }

def remove (t : Table) (path : String) : Table :=
  { t with files := t.files.erase path, size := t.size - t.contentSize path }

def written (t : Table) (path : String) (data : Bytes) (append : Bool) : Bytes :=
  match t.files.get? path with
  | some f => if append then f.content ++ data else data
  | none => data

/-- The metadata of a file that is there stay. If they cannot be kept, the old content
is no longer counted. -/
def write (limit : Int) (path : String) (data : Bytes) (append : Bool) : Action Table Unit := do
  let t ← get
  t.checkLayout path
  let content := t.written path data append
  t.checkCapacity limit path content.length
  match t.keptMetadata path with
  | .ok metadata => set (t.put path content metadata)
  | .error f =>
    set (t.discount path)
    throw f

def delete (t : Table) (path : String) : Table :=
  if t.files.contains path then t.remove path
  else (t.files.keys.filter (Path.isUnder · path)).foldl remove t

def setMetadata (t : Table) (path : String) (m : Metadata) : Except Fault Table :=
  match t.files.get? path with
  | none => .error (.notFound path none)
  | some f => .ok { t with files := t.files.insert path { f with metadata := m } }

def read (t : Table) (path : String) : Except Fault Bytes :=
  match t.files.get? path with
  | none => .error (.notFound path none)
  | some f => .ok f.content

def entryOf (t : Table) (path : String) (f : Stored) (withMetadata : Bool) :
    Except Fault Entry := do
  let metadata ← if withMetadata then f.metadata.asObject else .ok .empty
  return .make .file path (some f.content.length) true
    (OrderedMap.empty.insert "md5" (Digest.md5 f.content)) metadata (t.times.last path)

def entry? (t : Table) (path : String) : Except Fault (Option Entry) :=
  (t.files.get? path).mapM fun f => t.entryOf path f true

def sortedKeys (t : Table) : List String := t.files.keys.mergeSort (· ≤ ·)

/-- The folders between a folder of the given depth and a path under it: all of
them, or only the outermost. -/
def foldersBetween (whole : Bool) (depth : Nat) (path : String) : List String :=
  let names := Path.segments path
  let between := names.length - depth - 1
  (List.range (if whole then between else min 1 between)).map fun i =>
    Path.join (names.take (depth + i + 1))

def level (hierarchical : Bool) (t : Table) (path : String) (o : Listing.Options) :
    Except Fault (List Entry) := do
  if t.folderExists path then
    let depth := (Path.segments path).length
    let whole := hierarchical && o.recurse
    let inside := t.sortedKeys.filter (Path.isUnder · path)
    let folders := (inside.flatMap (foldersBetween whole depth)).eraseDups.map fun p =>
      Entry.plain .folder p none
    let shown := inside.filter fun p => whole || (Path.segments p).length = depth + 1
    let stored := shown.filterMap fun p => (t.files.get? p).map (p, ·)
    let files ← stored.mapM fun e => t.entryOf e.1 e.2 o.withMetadata
    return folders ++ files.filter o.isMatch
  else throw (.notFound path none)

def folderBound (t : Table) : Nat :=
  t.files.keys.foldr (fun p n => (Path.segments p).length + n) 0

end Table

end Depot.Storage.Memory
