import Depot.Counters
import Depot.Message
import Depot.Storage.Backend

/-!
The operations of a storage over any backend. Paths are normalized first; a
file path may not be the root. A bulk operation checks all its paths before it
asks the backend for anything.
-/
namespace Depot.Storage

def filePath (path : Option String) : Except Fault String :=
  let p := Path.normalize (Path.orRoot path)
  if p = Path.root then .error (.invalidPath path "a file path cannot be the root folder")
  else .ok p

structure ListingDefaults where
  threads : Int := Listing.defaultThreads
  pageSize : Int := Listing.defaultPageSize

namespace ListingDefaults

def options (d : ListingDefaults) : Except Fault Listing.Options :=
  Listing.Options.ofRequest? { pageSize := d.pageSize, threads := d.threads }

end ListingDefaults

namespace Backend

variable {σ : Type} (b : Backend σ)

def listReport (s : σ) (o : Listing.Options) : Listing.Report :=
  Listing.list b.hierarchical o (b.source s)

def holdsAll (paths : List (Option String)) (s : σ) : Except Fault (List Bool) := do
  (← paths.mapM filePath).mapM (b.holds s)

def entries (paths : List (Option String)) (s : σ) : Except Fault (List (Option Entry)) := do
  (← paths.mapM filePath).mapM (b.entry? s)

def deleteAll (paths : List (Option String)) : Action σ Unit :=
  Action.all (paths.map fun p => b.delete (Path.normalize (Path.orRoot p)))

def fetch? (path : Option String) (s : σ) : Except Fault (Option Bytes) := do
  match b.read s (← filePath path) with
  | .ok content => return some content
  | .error e => if e.isMissing then return none else throw e

def codecOf (name : String) : Except Fault Text.Codec :=
  if '\x00' ∈ name.toList then .error .nulInCodec
  else
    match Text.Codec.byName? name with
    | some c => .ok c
    | none => .error .unknownCodec

def fetchText? (path : Option String) (codec : String) (s : σ) : Except Fault (Option String) := do
  match ← b.fetch? path s with
  | none => return none
  | some content =>
    match codecOf codec with
    | .error f => if f = .unknownCodec ∧ content.isEmpty then return some "" else throw f
    | .ok c =>
      match c.decode? content with
      | some text => return some text
      | none => throw .undecodable

def store (path : Option String) (data : Bytes) (append : Bool) : Action σ Unit := do
  let p ← Action.ask fun _ => filePath path
  b.write p data append

def storeText (path : Option String) (text : String) (append : Bool) (codec : String) :
    Action σ Unit := do
  match (← codecOf codec).encode? text with
  | none => throw .unencodable
  | some data => b.store path data append

def annotate (path : Option String) (m : Texts) : Action σ Unit := do
  let p ← Action.ask fun _ => filePath path
  b.setMetadata p m

end Backend

end Depot.Storage
