import Depot.Pump.Turn

/-!
A pump in time. A call of the pump starts, takes some time, and comes back; a
wait takes as long as the policy says. Time moves only to the next instant at
which the pump has a turn.
-/
namespace Depot.Pump

/-- A call that has started: how long it takes, the world after its start, and
what its end does. -/
structure Call (τ σ α : Type) where
  /-- Whether the start sets the event of the pump. -/
  signals : Bool
  pause : Option τ
  world : σ
  finish : τ → σ → α × σ

structure Calls (τ σ β : Type) where
  poll : τ → Nat → σ → Call τ σ (Poll β)
  deliver : τ → List β → σ → Call τ σ Handling

/-- An event with its instant, and the pump's event as it was then. -/
structure Stamped (τ β : Type) where
  time : τ
  event : Event τ β
  shared : Bool
  signalled : Bool

structure Pending (τ σ β : Type) where
  due : τ
  finish : τ → σ → Resumption β × σ

structure Timeline (τ π σ β : Type) where
  pump : Pump π
  now : τ
  world : σ
  pending : Option (Pending τ σ β)
  /-- Whether the shared event is set, and whether the newest task uses it. -/
  sharedSet : Bool
  onShared : Bool
  /-- What happened, newest first. -/
  log : List (Stamped τ β)

namespace Timeline

variable {τ π σ β : Type} [Delays π τ] [Add τ] [LE τ] [DecidableLE τ]

def create (pump : Pump π) (now : τ) (world : σ) : Timeline τ π σ β :=
  ⟨pump, now, world, none, false, false, []⟩

def signal (s : Timeline τ π σ β) : Timeline τ π σ β :=
  { s with pump := s.pump.signal, sharedSet := s.sharedSet || s.onShared }

def setShared (s : Timeline τ π σ β) : Timeline τ π σ β :=
  { s with
    pump := if s.onShared then s.pump.signal else s.pump
    sharedSet := true }

def clearShared (s : Timeline τ π σ β) : Timeline τ π σ β :=
  { s with
    pump := if s.onShared then s.pump.unsignal else s.pump
    sharedSet := false }

def cancel (s : Timeline τ π σ β) : Timeline τ π σ β := { s with pump := s.pump.cancel }

def stamped (s : Timeline τ π σ β) (event : Event τ β) : Stamped τ β :=
  ⟨s.now, event, s.onShared, s.pump.task.any (·.signalled)⟩

def launch {α : Type} (s : Timeline τ π σ β) (call : Call τ σ α)
    (resumption : α → Resumption β) : Timeline τ π σ β :=
  let s := if call.signals then s.signal else s
  { s with
    world := call.world
    pending := some
      { due := match call.pause with
          | some pause => s.now + pause
          | none => s.now
        finish := fun now world =>
          let (a, world) := call.finish now world
          (resumption a, world) } }

def note (calls : Calls τ σ β) (s : Timeline τ π σ β) (event : Event τ β) : Timeline τ π σ β :=
  let s := { s with log := s.stamped event :: s.log }
  match event with
  | .polled batch => s.launch (calls.poll s.now batch s.world) .answered
  | .delivered messages => s.launch (calls.deliver s.now messages s.world) .handled
  | .delayed delay => { s with pending := some ⟨s.now + delay, fun _ world => (.elapsed, world)⟩ }
  | _ => s

def noteAll (calls : Calls τ σ β) (s : Timeline τ π σ β) (turn : Pump π × List (Event τ β)) :
    Timeline τ π σ β :=
  turn.2.foldl (note calls) { s with pump := turn.1 }

def start? (calls : Calls τ σ β) (s : Timeline τ π σ β) (handler : Bool) (batch : Option Int)
    (shared : Bool) : Except Fault (Timeline τ π σ β) := do
  let turn ← s.pump.start? handler batch (shared && s.sharedSet)
  return { s with
    onShared := shared
    pending := some ⟨s.now, fun _ world => (.begun, world)⟩ }.noteAll calls turn

def later (a b : τ) : τ := if a ≤ b then b else a

/-- The turn that comes next, no later than the limit: an interruption or a
waking at once, anything else when it is due. -/
def next? (limit : Option τ) (s : Timeline τ π σ β) :
    Option (τ × (Resumption β × σ)) :=
  s.pump.task.bind fun t =>
    if t.cancelling then some (s.now, .interrupted, s.world)
    else if t.position = .wait true then some (s.now, .woken, s.world)
    else
      s.pending.bind fun pending =>
        if limit.all (pending.due ≤ ·) then
          let now := later s.now pending.due
          some (now, pending.finish now s.world)
        else none

def step? (calls : Calls τ σ β) (limit : Option τ) (s : Timeline τ π σ β) :
    Option (Timeline τ π σ β) := do
  let (now, resumption, world) ← s.next? limit
  let turn ← s.pump.resume? resumption
  return { s with now := now, world := world, pending := none }.noteAll calls turn

def since (s before : Timeline τ π σ β) : List (Stamped τ β) :=
  (s.log.take (s.log.length - before.log.length)).reverse

def steps (calls : Calls τ σ β) (limit : Option τ) : Nat → Timeline τ π σ β → Timeline τ π σ β
  | 0, s => s
  | fuel + 1, s =>
    match s.step? calls limit with
    | some s' => steps calls limit fuel s'
    | none => s

def pass (calls : Calls τ σ β) (turns : Nat) (time : τ) (s : Timeline τ π σ β) :
    Timeline τ π σ β :=
  let limit := later s.now (s.now + time)
  let s := steps calls (some limit) turns s
  { s with now := later s.now limit }

def stop (calls : Calls τ σ β) (turns : Nat) (s : Timeline τ π σ β) : Timeline τ π σ β :=
  if s.pump.task.isNone then s else steps calls none turns s.signal

end Timeline

end Depot.Pump
