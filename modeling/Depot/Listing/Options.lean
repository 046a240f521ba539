import Depot.Entry
import Depot.Fault

/-!
How a listing is asked for. A request holds what a caller wrote; options are a
request that passed its checks. The file prefix concerns files only, and the
browse filter is asked only about entries that pass the prefix.
-/
namespace Depot.Listing

inductive Mode
  | localOnly
  | remote
  deriving DecidableEq, Repr

abbrev Filter := Entry → Except Fault Bool

def defaultPageSize : Nat := 1000
def defaultThreads : Nat := 10

structure Request where
  folder : String := Path.root
  filePrefix : Option String := none
  filter : Option Filter := none
  recurse : Bool := false
  limit : Option Int := none
  pageSize : Int := defaultPageSize
  threads : Int := defaultThreads
  withMetadata : Bool := false
  mode : Mode := .remote

structure Options where
  folder : String
  filePrefix : Option String
  filter : Option Filter
  recurse : Bool
  limit : Option Nat
  pageSize : Nat
  /-- How many one-level calls may be in flight at once. -/
  threads : Nat
  withMetadata : Bool
  mode : Mode
  folder_normal : Path.normalize folder = folder
  pageSize_pos : 0 < pageSize
  threads_pos : 0 < threads

namespace Options

def ofRequest? (r : Request) : Except Fault Options :=
  match r.filePrefix.filter fun text => Path.separator ∈ text.toList,
      r.limit.filter (· < 0) with
  | some text, _ => .error (.separatorInPrefix text)
  | none, some n => .error (.negativeLimit n)
  | none, none =>
    if hp : 1 ≤ r.pageSize then
      if ht : 1 ≤ r.threads then
        .ok {
          folder := Path.normalize r.folder
          filePrefix := r.filePrefix
          filter := r.filter
          recurse := r.recurse
          limit := r.limit.map Int.toNat
          pageSize := r.pageSize.toNat
          threads := r.threads.toNat
          withMetadata := r.withMetadata
          mode := r.mode
          folder_normal := Path.normalize_normalize r.folder
          pageSize_pos := by omega
          threads_pos := by omega }
      else .error (.tooFewThreads r.threads)
    else .error (.pageTooSmall r.pageSize)

def toRequest (o : Options) : Request where
  folder := o.folder
  filePrefix := o.filePrefix
  filter := o.filter
  recurse := o.recurse
  limit := o.limit.map Int.ofNat
  pageSize := o.pageSize
  threads := o.threads
  withMetadata := o.withMetadata
  mode := o.mode

def default : Options where
  folder := Path.root
  filePrefix := none
  filter := none
  recurse := false
  limit := none
  pageSize := defaultPageSize
  threads := defaultThreads
  withMetadata := false
  mode := .remote
  folder_normal := by simp [Path.normalize]; rfl
  pageSize_pos := by decide
  threads_pos := by decide

def clone (o : Options) (change : Request → Request) : Except Fault Options :=
  ofRequest? (change o.toRequest)

def oneLevel (o : Options) : Options := { o with recurse := false }

def inFolder (o : Options) (folder : String) : Options :=
  { o with folder := Path.normalize folder, folder_normal := Path.normalize_normalize folder }

def prefixPasses (filePrefix : Option String) (name : String) : Bool :=
  match filePrefix with
  | none => true
  | some text => text.toList.isPrefixOf name.toList

def isMatch (o : Options) (e : Entry) : Bool :=
  !e.isFile || prefixPasses o.filePrefix e.name

def accepts (o : Options) (e : Entry) : Except Fault Bool :=
  if o.isMatch e then
    match o.filter with
    | none => .ok true
    | some test => test e
  else .ok false

end Options

end Depot.Listing
