import Depot.Action
import Depot.Decimal.Whole
import Depot.Message

/-!
Channels of messages held in memory. A channel is a queue in the order of
sending. Receiving hides a message until the end of a window instead of
removing it; only a deletion by identity removes it.
-/
namespace Depot.Channel

abbrev Window := Int

def Window.ofMilliseconds (ms : Int) : Window := 1000 * ms

def Window.dayLimit : Int := 999999999

def Window.inRange (w : Window) : Bool :=
  -(Window.dayLimit * Calendar.microsecondsPerDay) ≤ w
    && w < (Window.dayLimit + 1) * Calendar.microsecondsPerDay

def Window.checked (w : Window) : Except Fault Window :=
  if w.inRange then .ok w else .error .outOfRange

/-- A number of units of so many microseconds: whole units are exact, and the fraction
goes to the nearest microsecond. -/
def Window.ofUnits? (unit : Nat) (x : Float) : Except Fault Window :=
  match Decimal.inUnits? unit x with
  | some w => Window.checked w
  | none => .error .outOfRange

def Window.ofSeconds? (x : Float) : Except Fault Window := Window.ofUnits? 1000000 x

def after? (now : Calendar.Instant) (w : Window) : Except Fault Calendar.Instant :=
  if w.inRange && Calendar.inRange (now + w) then .ok (now + w) else .error .outOfRange

def usualWindow : Window := .ofMilliseconds 60000

structure Channels where
  defaultWindow : Window
  closed : Bool
  queues : OrderedMap String (List Message)

def visible (now : Calendar.Instant) (m : Message) : Bool :=
  match m.visibleAt with
  | none => true
  | some t => t ≤ now

def hide (expiry : Calendar.Instant) (m : Message) : Message :=
  { m with visibleAt := some expiry, dequeues := some (m.dequeues.getD 0 + 1) }

def enqueued (m : Message) : Message := { m with visibleAt := none, dequeues := some 0 }

def takeVisible (now expiry : Calendar.Instant) : Nat → List Message → List Message × List Message
  | 0, queue => ([], queue)
  | _, [] => ([], [])
  | count + 1, m :: rest =>
    if visible now m then
      let (taken, left) := takeVisible now expiry count rest
      (hide expiry m :: taken, hide expiry m :: left)
    else
      let (taken, left) := takeVisible now expiry (count + 1) rest
      (taken, m :: left)

namespace Channels

def empty (window : Window) : Channels := ⟨window, false, .empty⟩

def queue (c : Channels) (name : String) : List Message := (c.queues.get? name).getD []

def setQueue (c : Channels) (name : String) (queue : List Message) : Channels :=
  { c with queues := c.queues.insert name queue }

def ensure (name : String) (c : Channels) : Except Fault Channels :=
  if name = "" then .error .emptyChannelName else .ok (c.setQueue name (c.queue name))

/-- Stops at the first name that is refused, and keeps the channels made before it. -/
def create : List String → Action Channels Unit
  | [] => pure ()
  | name :: rest => do
    Action.ofTransition (ensure name)
    create rest

def names (c : Channels) : List String := c.queues.keys.mergeSort (· ≤ ·)

def drop (names : List String) (c : Channels) : Channels :=
  { c with queues := c.queues.filter fun name _ => !names.contains name }

def count (c : Channels) (name : String) : Nat := (c.queue name).length

def send (name : String) (messages : List Message) (c : Channels) : Except Fault Channels := do
  let c ← c.ensure name
  return c.setQueue name (c.queue name ++ messages.map enqueued)

def receive (now : Calendar.Instant) (name : String) (count : Int) (window : Option Window)
    (c : Channels) : Except Fault (List Message × Channels) :=
  if count < 1 then .error (.countTooSmall count)
  else
    match after? now (window.getD c.defaultWindow) with
    | .error e => .error e
    | .ok hidden =>
      match c.queues.get? name with
      | none => .ok ([], c)
      | some queue =>
        let (taken, left) := takeVisible now hidden count.toNat queue
        .ok (taken, c.setQueue name left)

def peek (now : Calendar.Instant) (name : String) (count : Int) (c : Channels) : List Message :=
  ((c.queue name).filter (visible now)).take count.toNat

def delete (name : String) (ids : List String) (c : Channels) : Channels :=
  match c.queues.get? name with
  | none => c
  | some queue => c.setQueue name (queue.filter fun m => !ids.contains m.id)

def close (c : Channels) : Channels := { c with closed := true }

end Channels

end Depot.Channel
