import Depot.Metadata
import Depot.Path
import Depot.Times

/-!
What a listing shows of one stored object. The path of an entry is always in
normal form, and a folder has no size.
-/
namespace Depot

inductive Entry.Kind
  | file
  | folder
  deriving DecidableEq, Repr

def Entry.Kind.name : Entry.Kind → String
  | .file => "file"
  | .folder => "folder"

structure Entry where
  kind : Entry.Kind
  path : String
  size : Option Int
  /-- When the object was last modified, if the store reports it. -/
  modified : Option Calendar.Instant
  properties : Texts
  metadata : Metadata
  path_normal : Path.normalize path = path
  folder_sizeless : kind = .folder → size = none

namespace Entry

/-- Normalizes the path and drops the size of a folder. Only a dated entry has a time. -/
def make (kind : Kind) (path : String) (size : Option Int) (dated : Bool)
    (properties : Texts) (metadata : Metadata) (time : Calendar.Instant := 0) : Entry where
  kind := kind
  path := Path.normalize path
  size := if kind = .folder then none else size
  modified := if dated then some time else none
  properties := properties
  metadata := metadata
  path_normal := Path.normalize_normalize path
  folder_sizeless h := if_pos h

def plain (kind : Kind) (path : String) (size : Option Int) : Entry :=
  make kind path size false .empty .empty

def dated (e : Entry) : Bool := e.modified.isSome

def timeless (e : Entry) : Entry := { e with modified := e.modified.map fun _ => 0 }

def name (e : Entry) : String := Path.name e.path

def folderPath (e : Entry) : String := Path.orRoot (Path.parent? e.path)

def isFile (e : Entry) : Bool := e.kind = .file

def isFolder (e : Entry) : Bool := e.kind = .folder

def key (e : Entry) : Kind × String := (e.kind, e.path)

@[simp] theorem make_path (kind path size dated properties metadata time) :
    (make kind path size dated properties metadata time).path = Path.normalize path := rfl

@[simp] theorem timeless_path (e : Entry) : e.timeless.path = e.path := rfl

theorem timeless_make (kind path size dated properties metadata time) :
    (make kind path size dated properties metadata time).timeless =
      make kind path size dated properties metadata := by
  cases dated <;> rfl

end Entry

end Depot
