import Depot.Action
import Depot.OrderedMap

/-!
Backends shared by name. A backend is made at most once for a name while the
name is registered; what leaves the registry is closed. Backends are told
apart by the order in which they were made.
-/
namespace Depot.Channel

abbrev BackendId := Nat

structure Registry where
  registered : OrderedMap String BackendId
  made : Nat
  /-- The backends on which a close was begun, in order. -/
  closes : List BackendId

namespace Registry

def empty : Registry := ⟨.empty, 0, []⟩

def get? (name : String) (r : Registry) : Option BackendId := r.registered.get? name

def getOrCreate (name : String) (r : Registry) : BackendId × Registry :=
  match r.registered.get? name with
  | some b => (b, r)
  | none => (r.made, { r with registered := r.registered.insert name r.made, made := r.made + 1 })

def names (r : Registry) : List String := r.registered.keys.mergeSort (· ≤ ·)

def isClosed (r : Registry) (b : BackendId) : Bool := r.closes.contains b

/-- Closes one backend after another; one that fails ends the round. -/
def closeAll (closing : BackendId → Except Fault Unit) : List BackendId → Action Registry Unit
  | [] => pure ()
  | b :: rest => do
    modify fun r => { r with closes := r.closes ++ [b] }
    match closing b with
    | .ok _ => closeAll closing rest
    | .error e => throw e

def dispose (closing : BackendId → Except Fault Unit) (name : String) : Action Registry Unit := do
  let r ← get
  match r.registered.get? name with
  | none => pure ()
  | some b =>
    set { r with registered := r.registered.erase name }
    closeAll closing [b]

/-- Forgets every name first and closes the backends then. -/
def close (closing : BackendId → Except Fault Unit) : Action Registry Unit := do
  let r ← get
  set { r with registered := .empty }
  closeAll closing r.registered.values

end Registry

end Depot.Channel
