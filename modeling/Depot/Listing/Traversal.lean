import Depot.Listing.Options

/-!
The walk of one listing over a store that shows one level at a time. Folders
that were found wait; a bounded number of one-level calls is in flight; a call
that comes back is merged as one unit, and the new sub-folders of its level wait
too. Calls may start and come back in any order: `launch`, `absorb` and `abandon`
are the moves, and who moves next is up to a schedule.
-/
namespace Depot.Listing

abbrev Reply := Except Fault (List Entry)

/-- A walk that goes down by itself asks for one level per call; otherwise a
single call answers for the whole listing. -/
structure Plan where
  options : Options
  descends : Bool
  /-- Whether the store is asked for the whole subtree. -/
  native : Bool

namespace Plan

def ofOptions (hierarchical : Bool) (o : Options) : Plan :=
  let native := hierarchical && o.mode = .remote
  { options := o, descends := o.recurse && !native, native := native }

def callOptions (p : Plan) : Options := if p.descends then p.options.oneLevel else p.options

end Plan

structure Traversal where
  result : List Entry
  visited : List String
  /-- Folders that were found and not yet listed, in the order of their turn. -/
  waiting : List String
  /-- Running calls in the order in which they started. -/
  inFlight : List String
  /-- Every call that was ever started. -/
  calls : List String
  /-- The failures that came back, in order. -/
  failures : List Fault

namespace Traversal

def start (p : Plan) : Traversal where
  result := []
  visited := [p.options.folder]
  waiting := [p.options.folder]
  inFlight := []
  calls := []
  failures := []

def isFull (p : Plan) (t : Traversal) : Bool :=
  match p.options.limit with
  | none => false
  | some k => k ≤ t.result.length

def launch (p : Plan) (t : Traversal) (folder : String) : Traversal :=
  let t := { t with waiting := t.waiting.erase folder }
  if t.isFull p then t
  else { t with inFlight := t.inFlight ++ [folder], calls := t.calls ++ [folder] }

def abandon (t : Traversal) (folder : String) : Traversal :=
  { t with waiting := t.waiting.erase folder, inFlight := t.inFlight.erase folder }

def acceptEach (o : Options) : List Entry → List Entry × Option Fault
  | [] => ([], none)
  | e :: rest =>
    match o.accepts e with
    | .error f => ([], some f)
    | .ok pass =>
      let (kept, failure) := acceptEach o rest
      (if pass then e :: kept else kept, failure)

def discover (folder : String) (visited : List String) : List Entry → List String
  | [] => []
  | e :: rest =>
    if e.isFolder && !visited.contains e.path && Path.isUnder e.path folder then
      e.path :: discover folder (e.path :: visited) rest
    else discover folder visited rest

/-- A missing folder has nothing in it. -/
def levelOf (reply : Reply) : Reply :=
  match reply with
  | .error f => if f.isMissing then .ok [] else .error f
  | .ok entries => .ok entries

def fail (t : Traversal) (f : Fault) : Traversal := { t with failures := t.failures ++ [f] }

def absorb (p : Plan) (t : Traversal) (folder : String) (reply : Reply) : Traversal :=
  let t := { t with inFlight := t.inFlight.erase folder }
  match levelOf reply with
  | .error f => t.fail f
  | .ok level =>
    let (kept, failure) := acceptEach p.options level
    let t := { t with result := t.result ++ kept }
    match failure with
    | some f => t.fail f
    | none =>
      if !p.descends || t.isFull p then t
      else
        let found := discover folder t.visited level
        { t with visited := t.visited ++ found, waiting := t.waiting ++ found }

def entries (p : Plan) (t : Traversal) : List Entry :=
  match p.options.limit with
  | none => t.result
  | some k => t.result.take k

end Traversal

end Depot.Listing
