import Depot.Pump.Policy

/-!
The pump polls for messages, hands each batch to a handler, and waits after a
poll that brought nothing and after a handler that failed. Its task runs in
turns. Between two turns the task waits for a poll, for the handler, or for a
wait to end; whatever ends the waiting is the next turn's resumption. At most
one task of a pump has not ended.
-/
namespace Depot.Pump

inductive Phase
  | idle
  | polling
  | delivering
  | backoff
  | stopped
  deriving DecidableEq, Repr

def Phase.name : Phase → String
  | .idle => "idle"
  | .polling => "polling"
  | .delivering => "delivering"
  | .backoff => "backoff"
  | .stopped => "stopped"

def phases : List Phase := [.idle, .polling, .delivering, .backoff, .stopped]

inductive Poll (β : Type)
  | batch (messages : List β)
  | failed
  | cancelled
  deriving Repr

inductive Handling
  | done
  | failed
  | cancelled
  deriving DecidableEq, Repr

inductive Ending
  | finished
  | cancelled
  deriving DecidableEq, Repr

/-- What a task is waiting for. A wait between polls remembers that the event
was set during it. -/
inductive Position
  | beginning
  | poll
  | handler
  | wait (woken : Bool)
  | ended (how : Ending)
  deriving DecidableEq, Repr

structure Task where
  batch : Nat
  /-- Whether the event that ends the pump is set. -/
  signalled : Bool
  /-- Whether the task was asked to be cancelled. -/
  cancelling : Bool
  position : Position
  deriving DecidableEq, Repr

inductive Outcome
  | messages
  | empty
  | error
  deriving DecidableEq, Repr

inductive Event (τ β : Type)
  | entered (phase : Phase)
  | polled (batch : Nat)
  | counted (outcome : Outcome)
  | delivered (messages : List β)
  | delayed (delay : τ)
  | reset
  deriving Repr

inductive Resumption (β : Type)
  | begun
  | answered (poll : Poll β)
  | handled (how : Handling)
  | elapsed
  | woken
  | interrupted
  deriving Repr

end Pump

structure Pump (π : Type) where
  name : String
  /-- The messages asked for in a poll when a start says nothing else. -/
  maxBatch : Nat
  policy : π
  phase : Pump.Phase
  past : List Pump.Ending
  task : Option Pump.Task

namespace Pump

variable {π τ β : Type} [Delays π τ]

def create? (name : String) (policy : π) (maxBatch : Int) : Except Fault (Pump π) :=
  if maxBatch < 1 then .error (.batchTooSmall maxBatch)
  else .ok ⟨name, maxBatch.toNat, policy, .idle, [], none⟩

def Task.ending? (t : Task) : Option Ending :=
  match t.position with
  | .ended how => some how
  | _ => none

def running (p : Pump π) : Bool := p.task.any fun t => t.ending?.isNone

def endings (p : Pump π) : List (Option Ending) :=
  p.past.map some ++ (p.task.map Task.ending?).toList

def taskName (p : Pump π) : String := "polystore-pump-" ++ p.name

def start? (p : Pump π) (handler : Bool) (batch : Option Int) (signalled : Bool) :
    Except Fault (Pump π × List (Event τ β)) :=
  let batch := batch.getD p.maxBatch
  if !handler then .error .handlerMissing
  else if batch < 1 then .error (.batchTooSmall batch)
  else if p.running then .error (.pumpRunning Fault.Kind.pumpRunning.usualWording)
  else
    .ok ({ p with
      policy := Delays.reset p.policy
      phase := .idle
      past := p.past ++ (p.task.bind Task.ending?).toList
      task := some ⟨batch.toNat, signalled, false, .beginning⟩ }, [.reset])

def withTask (p : Pump π) (f : Task → Task) : Pump π := { p with task := p.task.map f }

def signal (p : Pump π) : Pump π :=
  p.withTask fun t =>
    { t with
      signalled := true
      position := match t.position with
        | .wait _ => .wait true
        | position => position }

def unsignal (p : Pump π) : Pump π := p.withTask fun t => { t with signalled := false }

/-- Asks for the newest task's cancellation, which its next turn brings about. A task
whose wait the event has ended finishes all the same. -/
def cancel (p : Pump π) : Pump π :=
  p.withTask fun t => if t.position = .wait true then t else { t with cancelling := true }

def enter (p : Pump π) (t : Task) (phase : Phase) (position : Position) : Pump π :=
  { p with phase := phase, task := some { t with position := position } }

def conclude (p : Pump π) (t : Task) (how : Ending) : Pump π × List (Event τ β) :=
  (p.enter t .stopped (.ended how), [.entered .stopped])

def nextRound (p : Pump π) (t : Task) : Pump π × List (Event τ β) :=
  if t.signalled then p.conclude t .finished
  else (p.enter t .polling .poll, [.entered .polling, .polled t.batch])

def backOff (p : Pump π) (t : Task) : Pump π × List (Event τ β) :=
  if t.signalled then p.conclude t .finished
  else
    let (delay, policy) := Delays.advance p.policy
    ({ p.enter t .backoff (.wait false) with policy := policy },
      [.entered .backoff, .delayed delay])

def deliver (p : Pump π) (t : Task) (messages : List β) : Pump π × List (Event τ β) :=
  (p.enter t .delivering .handler, [.entered .delivering, .delivered messages])

def noting (event : Event τ β) (r : Pump π × List (Event τ β)) : Pump π × List (Event τ β) :=
  (r.1, event :: r.2)

def interrupt (p : Pump π) (t : Task) : Pump π × List (Event τ β) :=
  match t.position with
  | .beginning => ({ p with task := some { t with position := .ended .cancelled } }, [])
  | _ => p.conclude t .cancelled

def answered (p : Pump π) (t : Task) : Poll β → Pump π × List (Event τ β)
  | .batch [] => noting (.counted .empty) (p.backOff t)
  | .batch (m :: rest) => noting (.counted .messages) (p.deliver t (m :: rest))
  | .failed => noting (.counted .error) (p.backOff t)
  | .cancelled => p.conclude t .cancelled

def handled (p : Pump π) (t : Task) : Handling → Pump π × List (Event τ β)
  | .done => noting .reset ({ p with policy := Delays.reset p.policy }.nextRound t)
  | .failed => p.backOff t
  | .cancelled => p.conclude t .cancelled

/-- One turn of the newest task, if the resumption is one that it waits for. A
requested cancellation comes before everything else. -/
def resume? (p : Pump π) (r : Resumption β) : Option (Pump π × List (Event τ β)) :=
  p.task.bind fun t =>
    if t.cancelling then
      match t.position, r with
      | .ended _, _ => none
      | _, .interrupted => some (p.interrupt t)
      | _, _ => none
    else
      match t.position, r with
      | .beginning, .begun => some (p.nextRound t)
      | .poll, .answered poll => some (p.answered t poll)
      | .handler, .handled how => some (p.handled t how)
      | .wait _, .elapsed => some (p.nextRound t)
      | .wait true, .woken => some (p.conclude t .finished)
      | _, _ => none

end Pump

end Depot
