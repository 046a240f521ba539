import Depot.Listing.Traversal

/-!
One schedule of a traversal. Each folder has a visit, and visits take turns in the
order in which they become due. A visit first needs one of a bounded number of
permits, which are handed out in line; then its call runs for a stated time; then
it waits for the visits of its sub-folders. When nobody has a turn, time moves to
the next end of a call. A visit that fails is reported to the one above it, which
gives up the others below it and fails in turn; the listing fails when the visit
of its first folder does.
-/
namespace Depot.Listing

/-- A store as a listing sees it: what a call answers and how long it takes. -/
structure Source where
  reply : String → Reply
  /-- In seconds. -/
  duration : String → Float
  /-- No more folders than this can be come across. -/
  folders : Nat

namespace Timeline

inductive Ending
  | done
  | failed (f : Fault)
  | dropped

inductive Stage
  /-- The first turn is yet to come. -/
  | fresh
  /-- In line for a permit. -/
  | queued
  /-- The next turn comes with a permit. -/
  | granted
  | calling
  | returned
  /-- Some visits below have not reported yet. -/
  | gathering (unreported : Nat)
  | gathered (how : Ending)
  | over (how : Ending)

structure Visit where
  folder : String
  /-- The folder in which it was found. -/
  above : Option String
  stage : Stage
  cancelled : Bool

inductive Event
  | turn (folder : String)
  | report (folder : String)
  deriving DecidableEq

end Timeline

structure Timeline where
  traversal : Traversal
  now : Float
  visits : List Timeline.Visit
  permits : Nat
  /-- The visits in line for a permit, those with a permit and no turn yet included. -/
  line : List String
  /-- Running calls in the order in which they started, with their ends. -/
  running : List (String × Float)
  agenda : List Timeline.Event
  /-- The most calls that were in flight at once. -/
  peak : Nat

namespace Timeline

def start (p : Plan) : Timeline where
  traversal := .start p
  now := 0
  visits := [⟨p.options.folder, none, .fresh, false⟩]
  permits := p.options.threads
  line := []
  running := []
  agenda := [.turn p.options.folder]
  peak := 0

def visit? (s : Timeline) (folder : String) : Option Visit := s.visits.find? (·.folder = folder)

def update (s : Timeline) (folder : String) (f : Visit → Visit) : Timeline :=
  { s with visits := s.visits.map fun v => if v.folder = folder then f v else v }

def setStage (s : Timeline) (folder : String) (stage : Stage) : Timeline :=
  s.update folder fun v => { v with stage := stage }

def push (s : Timeline) (e : Event) : Timeline := { s with agenda := s.agenda ++ [e] }

def below (s : Timeline) (folder : String) : List String :=
  (s.visits.filter (·.above = some folder)).map (·.folder)

def isQueued (v : Visit) : Bool :=
  match v.stage with
  | .queued => !v.cancelled
  | _ => false

def wakeNext (s : Timeline) : Timeline :=
  match s.line.find? fun folder => (s.visit? folder).any isQueued with
  | some folder =>
    ({ s with permits := s.permits - 1 }.setStage folder .granted).push (.turn folder)
  | none => s

def release (s : Timeline) : Timeline := { s with permits := s.permits + 1 }.wakeNext

def mustQueue (s : Timeline) : Bool :=
  s.permits = 0 || s.line.any fun folder => (s.visit? folder).any fun v =>
    match v.stage with
    | .queued => !v.cancelled
    | _ => true

def leaveLine (s : Timeline) (folder : String) : Timeline := { s with line := s.line.erase folder }

def finish (s : Timeline) (v : Visit) (how : Ending) : Timeline :=
  let s := s.setStage v.folder (.over how)
  if v.above.isSome then s.push (.report v.folder) else s

/-- Cancels a visit, which ends at its next turn. One that waits for others below passes
the cancellation on to them; `fuel` bounds how far. Says whether there was anything to cancel. A
bounded call stack would give out at about five hundred visits that wait for one another; no such
bound is looked at. -/
def cancel : Nat → String → Timeline → Bool × Timeline
  | 0, _, s => (false, s)
  | fuel + 1, folder, s =>
    match s.visit? folder with
    | none => (false, s)
    | some v =>
      let marked := s.update folder fun v => { v with cancelled := true }
      match v.stage with
      | .over _ => (false, s)
      | .queued | .calling => (true, if v.cancelled then s else marked.push (.turn folder))
      | .gathering _ =>
        let (any, s) := (s.below folder).foldl (fun (any, s) child =>
          let (hit, s) := cancel fuel child s
          (any || hit, s)) (false, s)
        (true, if any then s else s.update folder fun v => { v with cancelled := true })
      | _ => (true, marked)

def cancelBelow (s : Timeline) (folder : String) : Timeline :=
  (s.below folder).foldl (fun s child => (cancel s.visits.length child s).2) s

def comeBack (p : Plan) (source : Source) (s : Timeline) (v : Visit) : Timeline :=
  let s := s.release
  let before := s.traversal
  let after := before.absorb p v.folder (source.reply v.folder)
  let s := { s with traversal := after }
  match (after.failures.drop before.failures.length).head? with
  | some f => s.finish v (.failed f)
  | none =>
    match after.waiting.drop before.waiting.length with
    | [] => s.finish v .done
    | found =>
      let fresh : List Visit := found.map fun child => ⟨child, some v.folder, .fresh, false⟩
      let s := { s with visits := s.visits ++ fresh }
      found.foldl (fun s child => s.push (.turn child))
        (s.setStage v.folder (.gathering found.length))

/-- A visit has a permit: its call starts, unless the result is full. A call that takes
no time comes back at once. -/
def enter (p : Plan) (source : Source) (s : Timeline) (v : Visit) : Timeline :=
  let full := s.traversal.isFull p
  let t := s.traversal.launch p v.folder
  let s := { s with traversal := t, peak := max s.peak t.inFlight.length }
  if full then s.release.finish v .done
  else
    let time := source.duration v.folder
    if 0 < time then
      { s.setStage v.folder .calling with running := s.running ++ [(v.folder, s.now + time)] }
    else s.comeBack p source v

def dropVisit (s : Timeline) (v : Visit) : Timeline :=
  let s := { s with traversal := s.traversal.abandon v.folder }
  let s := match v.stage with
    | .queued => s.leaveLine v.folder
    | .granted => (s.leaveLine v.folder).release
    | .calling | .returned => { s with running := s.running.filter (·.1 ≠ v.folder) }.release
    | .gathered _ => s.cancelBelow v.folder
    | _ => s
  s.finish v .dropped

def turn (p : Plan) (source : Source) (s : Timeline) (v : Visit) : Timeline :=
  if v.cancelled then s.dropVisit v
  else
    match v.stage with
    | .fresh =>
      if s.mustQueue then { s.setStage v.folder .queued with line := s.line ++ [v.folder] }
      else { s with permits := s.permits - 1 }.enter p source v
    | .granted =>
      let s := s.leaveLine v.folder
      (if 0 < s.permits then s.wakeNext else s).enter p source v
    | .returned => s.comeBack p source v
    | .gathered .done => s.finish v .done
    | .gathered how => (s.cancelBelow v.folder).finish v how
    | _ => s

def report (s : Timeline) (above : String) (how : Ending) : Timeline :=
  match s.visit? above with
  | none => s
  | some v =>
    match v.stage with
    | .gathering unreported =>
      match how with
      | .done =>
        if unreported ≤ 1 then (s.setStage above (.gathered .done)).push (.turn above)
        else s.setStage above (.gathering (unreported - 1))
      | how => (s.setStage above (.gathered how)).push (.turn above)
    | _ => s

def handle (p : Plan) (source : Source) (s : Timeline) : Event → Timeline
  | .turn folder =>
    match s.visit? folder with
    | some v => s.turn p source v
    | none => s
  | .report folder =>
    match s.visit? folder with
    | some ⟨_, some above, .over how, _⟩ => s.report above how
    | _ => s

/-- Ends that are closer than this are the same. -/
def resolution : Float := 1e-9

def moveOn? (s : Timeline) : Option Timeline :=
  match s.running.map (·.2) with
  | [] => none
  | e :: more =>
    let now := more.foldl (fun a b => if b < a then b else a) e
    let due := (s.running.filter (·.2 < now + resolution)).mergeSort fun a b => a.2 ≤ b.2
    let left := s.running.filter fun r => !(r.2 < now + resolution)
    some (due.foldl (fun s r => (s.setStage r.1 .returned).push (.turn r.1))
      { s with now := now, running := left })

def ending? (s : Timeline) : Option Ending :=
  match s.visits.head? with
  | none => none
  | some v =>
    match v.stage with
    | .over how => some how
    | _ => none

def step? (p : Plan) (source : Source) (s : Timeline) : Option Timeline :=
  match s.ending? with
  | some _ => none
  | none =>
    match s.agenda with
    | e :: rest => some ({ s with agenda := rest }.handle p source e)
    | [] => s.moveOn?

def steps (p : Plan) (source : Source) : Nat → Timeline → Timeline
  | 0, s => s
  | fuel + 1, s =>
    match s.step? p source with
    | some s' => steps p source fuel s'
    | none => s

/-- A visit has at most five turns, one report and one move of time. -/
def run (p : Plan) (source : Source) : Timeline :=
  steps p source (7 * (source.folders + 1)) (.start p)

def outcome (p : Plan) (s : Timeline) : Except Fault (List Entry) :=
  match s.ending? with
  | some (.failed f) => .error f
  | _ => .ok (s.traversal.entries p)

end Timeline

structure Report where
  answer : Except Fault (List Entry)
  calls : List String
  peak : Nat
  native : Bool
  /-- A limit of zero is answered without looking. -/
  skipped : Bool

def list (hierarchical : Bool) (o : Options) (source : Options → Source) : Report :=
  let p := Plan.ofOptions hierarchical o
  if o.limit = some 0 then ⟨.ok [], [], 0, p.native, true⟩
  else
    let s := Timeline.run p (source p.callOptions)
    ⟨s.outcome p, s.traversal.calls, s.peak, p.native, false⟩

end Depot.Listing
