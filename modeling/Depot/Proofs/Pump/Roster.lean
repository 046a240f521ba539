import Depot.Proofs.Action
import Depot.Proofs.Pump.Cancellation

/-!
All tasks that a receiver ever started. Here a start only looks at the newest task, the tasks
are kept one beside the other, and any of them may take a turn at any time; calls to start and
to stop come in between. It is a result, and not part of the description, that no two tasks
are under way at once, so that a receiver moves just as a pump does.
-/
namespace Depot.Pump

structure Stopping where
  /-- The newest task when the call was made, if there was one. -/
  awaits : Option Nat
  returned : Bool

structure Roster (π : Type) where
  name : String
  maxBatch : Nat
  policy : π
  phase : Phase
  tasks : List Task
  stops : List Stopping

inductive Move (β : Type)
  | start (handler : Bool) (batch : Option Int) (signalled : Bool)
  | stop
  | returned (call : Nat)
  | task (i : Nat) (h : Happening β)

variable {π τ β : Type} [Delays π τ]

namespace Roster

def fresh (name : String) (maxBatch : Nat) (policy : π) : Roster π :=
  ⟨name, maxBatch, policy, .idle, [], []⟩

def running (x : Roster π) : Bool := x.tasks.getLast?.any fun t => t.ending?.isNone

def start (handler : Bool) (batch : Option Int) (signalled : Bool) :
    Action (Roster π) (List (Event τ β)) := do
  let x ← get
  let batch := batch.getD x.maxBatch
  if !handler then throw .handlerMissing
  if batch < 1 then throw (.batchTooSmall batch)
  if x.running then throw (.pumpRunning Fault.Kind.pumpRunning.usualWording)
  modify fun x => { x with policy := Delays.reset x.policy }
  modify fun x => { x with phase := .idle }
  modify fun x => { x with tasks := x.tasks ++ [⟨batch.toNat, signalled, false, .beginning⟩] }
  return [.reset]

def view (x : Roster π) : Pump π :=
  ⟨x.name, x.maxBatch, x.policy, x.phase, x.tasks.dropLast.filterMap Task.ending?,
    x.tasks.getLast?⟩

def pumpOf (x : Roster π) (t : Task) : Pump π := { x.view with task := some t }

/-- What a task made of the receiver and of itself. -/
def put (x : Roster π) (i : Nat) (p : Pump π) : Roster π :=
  { x with
    policy := p.policy
    phase := p.phase
    tasks := (p.task.map (x.tasks.set i)).getD x.tasks }

def newest? (x : Roster π) : Option Nat := if x.tasks = [] then none else some (x.tasks.length - 1)

def stop (x : Roster π) : Roster π :=
  let signalled := (x.tasks.getLast?.map fun t =>
    x.put (x.tasks.length - 1) (x.pumpOf t).signal).getD x
  { signalled with stops := x.stops ++ [⟨x.newest?, false⟩] }

def EndedAt (x : Roster π) (i : Nat) : Prop :=
  ∃ t how, x.tasks[i]? = some t ∧ t.position = .ended how

end Roster

/-- A move, what the receiver does then, and what it leads to. A task that is asked for a turn
acts as the task of a pump does. -/
inductive Step : Roster π → Move β → List (Event τ β) → Roster π → Prop
  | start (handler : Bool) (batch : Option Int) (signalled : Bool) {x x' : Roster π}
      {events : List (Event τ β)}
      (hstart : (Roster.start handler batch signalled).runFrom x = (.ok events, x')) :
      Step x (.start handler batch signalled) events x'
  | refused (handler : Bool) (batch : Option Int) (signalled : Bool) {x x' : Roster π} {e : Fault}
      (hstart : (Roster.start handler batch signalled :
        Action (Roster π) (List (Event τ β))).runFrom x = (.error e, x')) :
      Step x (.start handler batch signalled) [] x'
  | stop (x : Roster π) : Step x .stop [] x.stop
  | returned {x : Roster π} {n : Nat} {call : Stopping} (hcall : x.stops[n]? = some call)
      (hended : ∀ i, call.awaits = some i → x.EndedAt i) :
      Step x (.returned n) [] { x with stops := x.stops.set n { call with returned := true } }
  | task {x : Roster π} {i : Nat} {t : Task} {h : Happening β} {p : Pump π}
      {events : List (Event τ β)} (htask : x.tasks[i]? = some t)
      (hact : h.act (x.pumpOf t) = some (p, events)) : Step x (.task i h) events (x.put i p)

inductive Roster.Runs : Roster π → List (Move β × List (Event τ β)) → Roster π → Prop
  | nil (x : Roster π) : Runs x [] x
  | cons {x x' y : Roster π} {m : Move β} {events : List (Event τ β)}
      {rest : List (Move β × List (Event τ β))} (hstep : Step x m events x')
      (hrest : Runs x' rest y) : Runs x ((m, events) :: rest) y

/-- All tasks but the newest have ended, and so have those for which a call came back. -/
structure Single (x : Roster π) : Prop where
  earlier : ∀ i, i + 1 < x.tasks.length → x.EndedAt i
  stopped : ∀ call ∈ x.stops, ∀ i, call.awaits = some i →
    i < x.tasks.length ∧ (call.returned = true → x.EndedAt i)

variable {x x' y : Roster π} {p p' : Pump π} {t t' : Task} {i n : Nat} {m : Move β}
  {r : Resumption β} {turn : Pump π × List (Event τ β)} {h : Happening β}
  {events : List (Event τ β)} {handler signalled : Bool} {batch : Option Int}

omit [Delays π τ] in
theorem ending?_isNone : t.ending?.isNone = true ↔ ∀ how, t.position ≠ .ended how := by
  unfold Task.ending?
  cases t.position <;> simp

/-- A turn leaves to the pump its name and its past. -/
theorem Turn.keeps (hturn : Turn p t r turn) :
    turn.1.name = p.name ∧ turn.1.maxBatch = p.maxBatch ∧ turn.1.past = p.past := by
  have hround : ∀ q : Pump π, (q.nextRound t : Pump π × List (Event τ β)).1.name = q.name ∧
      (q.nextRound t : Pump π × List (Event τ β)).1.maxBatch = q.maxBatch ∧
      (q.nextRound t : Pump π × List (Event τ β)).1.past = q.past := by
    intro q
    rcases nextRound_cases (τ := τ) (β := β) q t with ⟨-, heq⟩ | ⟨-, heq⟩ <;> rw [heq] <;>
      exact ⟨rfl, rfl, rfl⟩
  have hback : (p.backOff t : Pump π × List (Event τ β)).1.name = p.name ∧
      (p.backOff t : Pump π × List (Event τ β)).1.maxBatch = p.maxBatch ∧
      (p.backOff t : Pump π × List (Event τ β)).1.past = p.past := by
    rcases backOff_cases (τ := τ) (β := β) p t with ⟨-, heq⟩ | ⟨-, heq⟩ <;> rw [heq] <;>
      exact ⟨rfl, rfl, rfl⟩
  cases hturn with
  | begin => exact hround p
  | goOn => exact hround p
  | succeed => exact hround { p with policy := Delays.reset p.policy }
  | missed => exact hback
  | unanswered => exact hback
  | fail => exact hback
  | interrupt =>
    unfold Pump.interrupt
    split <;> exact ⟨rfl, rfl, rfl⟩
  | _ => exact ⟨rfl, rfl, rfl⟩

/-- After a turn its task is past its beginning. -/
theorem Turn.left (hturn : Turn p t r turn) :
    ∃ t', turn.1.task = some t' ∧ t'.position ≠ .beginning := by
  by_cases hbegun : r = .begun ∨ t.position ≠ .beginning
  · obtain ⟨t', htask, hposition, -⟩ := hturn.begun hbegun
    exact ⟨t', htask, hposition⟩
  · push Not at hbegun
    cases hturn with
    | interrupt =>
      rw [Pump.interrupt, hbegun.2]
      exact ⟨_, rfl, by simp⟩
    | begin => exact absurd rfl hbegun.1
    | _ hposition => simp [hposition] at hbegun

/-- What can become of a task, and of the pump by it. -/
theorem act_spec (htask : p.task = some t) (hact : h.act p = some (p', events)) :
    ∃ t', p'.task = some t' ∧
      (p'.name = p.name ∧ p'.maxBatch = p.maxBatch ∧ p'.past = p.past) ∧
      (∀ how, t.position = .ended how → t'.position = .ended how ∧ events = []) ∧
      ((∃ how, t.position = .ended how) ∨ t'.position = .beginning →
        p'.policy = p.policy ∧ p'.phase = p.phase) ∧
      (t'.position = .beginning → t.position = .beginning) := by
  by_cases hturn : ∃ r, h = .resumed r
  · obtain ⟨r, rfl⟩ := hturn
    obtain ⟨t₀, htask₀, hturn⟩ := turn_of_resume hact
    obtain rfl := Option.some.inj (htask.symm.trans htask₀)
    obtain ⟨t', htask', hleft⟩ := hturn.left
    refine ⟨t', htask', hturn.keeps, fun how hhow => absurd hhow (hturn.going how), ?_,
      fun hbeginning => absurd hbeginning hleft⟩
    rintro (⟨how, hhow⟩ | hbeginning)
    · exact absurd hhow (hturn.going how)
    · exact absurd hbeginning hleft
  · have houtside : ∀ r, h ≠ .resumed r := fun r hr => hturn ⟨r, hr⟩
    obtain ⟨hnone, hphase, hpolicy, t', htask', -, hsame, hended⟩ :=
      act_of_outside hact houtside htask
    have hkeeps : p'.name = p.name ∧ p'.maxBatch = p.maxBatch ∧ p'.past = p.past := by
      cases h with
      | resumed r => exact absurd rfl (houtside r)
      | _ =>
        obtain ⟨rfl, -⟩ := Prod.mk.inj (Option.some.inj hact)
        exact ⟨rfl, rfl, rfl⟩
    refine ⟨t', htask', hkeeps, fun how hhow => ⟨(hended how).mpr hhow, hnone⟩,
      fun _ => ⟨hpolicy, hphase⟩, fun hbeginning => ?_⟩
    rw [hbeginning] at hsame
    cases hold : t.position <;> simp [hold, Position.phase] at hsame ⊢

namespace Roster

/-- A start does what the start of a pump does, and one that is refused does nothing. -/
theorem runFrom_start (handler : Bool) (batch : Option Int) (signalled : Bool) (x : Roster π) :
    (start handler batch signalled : Action (Roster π) (List (Event τ β))).runFrom x =
      match x.view.start? handler batch signalled with
      | .error e => (.error e, x)
      | .ok (p, events) => (.ok events, { x with
          policy := p.policy
          phase := p.phase
          tasks := x.tasks ++ p.task.toList }) := by
  have hmax : x.view.maxBatch = x.maxBatch := rfl
  have hrunning : x.view.running = x.running := rfl
  unfold start start?
  dsimp only
  rw [Action.runFrom_bind, Action.runFrom_get, hmax, hrunning]
  dsimp only
  cases handler with
  | false => rfl
  | true =>
    by_cases hbatch : batch.getD x.maxBatch < 1
    · simp only [Bool.not_true, Bool.false_eq_true, if_false, if_pos hbatch]
      rfl
    · simp only [Bool.not_true, Bool.false_eq_true, if_false, if_neg hbatch]
      cases x.running <;> rfl

theorem running_eq_false : x.running = false ↔
    ∀ t, x.tasks.getLast? = some t → ∃ how, t.position = .ended how := by
  rw [← Bool.not_eq_true, running, Option.any_eq_true]
  push Not
  refine forall₂_congr fun t _ => ?_
  rw [Ne, ending?_isNone]
  push Not
  rfl

/-- A start is refused for one of three reasons, in this order, or it makes a new task. -/
theorem start_cases (handler : Bool) (batch : Option Int) (signalled : Bool) (x : Roster π) :
    (∃ e, (start handler batch signalled : Action (Roster π) (List (Event τ β))).runFrom x =
        (.error e, x) ∧
      (handler = false ∨ batch.getD x.maxBatch < 1 ∨ x.running = true)) ∨
    (handler = true ∧ 1 ≤ batch.getD x.maxBatch ∧ x.running = false ∧
      (start handler batch signalled : Action (Roster π) (List (Event τ β))).runFrom x =
        (.ok [.reset], { x with
          policy := Delays.reset x.policy
          phase := .idle
          tasks := x.tasks ++ [⟨(batch.getD x.maxBatch).toNat, signalled, false,
            .beginning⟩] })) := by
  have hmax : x.view.maxBatch = x.maxBatch := rfl
  have hrunning : x.view.running = x.running := rfl
  rw [runFrom_start]
  unfold start?
  dsimp only
  rw [hmax, hrunning]
  cases handler with
  | false => exact Or.inl ⟨_, rfl, Or.inl rfl⟩
  | true =>
    by_cases hbatch : batch.getD x.maxBatch < 1
    · simp only [Bool.not_true, Bool.false_eq_true, if_false, if_pos hbatch]
      exact Or.inl ⟨_, rfl, Or.inr (Or.inl hbatch)⟩
    · simp only [Bool.not_true, Bool.false_eq_true, if_false, if_neg hbatch]
      cases x.running with
      | true => exact Or.inl ⟨_, rfl, Or.inr (Or.inr rfl)⟩
      | false => exact Or.inr ⟨trivial, by omega, rfl, rfl⟩

/-- What is known of a start that came back. -/
theorem of_started (hstart : (start handler batch signalled).runFrom x = (.ok events, x')) :
    x.running = false ∧ x' = { x with
      policy := Delays.reset x.policy
      phase := .idle
      tasks := x.tasks ++ [⟨(batch.getD x.maxBatch).toNat, signalled, false, .beginning⟩] } := by
  rcases start_cases (τ := τ) (β := β) handler batch signalled x with
    ⟨e, hrun, -⟩ | ⟨-, -, hrunning, hrun⟩
  · rw [hrun] at hstart
    cases hstart
  · rw [hrun] at hstart
    exact ⟨hrunning, (Prod.mk.inj hstart).2.symm⟩

/-- A start that is refused changes nothing. -/
theorem of_refused {e : Fault} (hstart : (start handler batch signalled :
    Action (Roster π) (List (Event τ β))).runFrom x = (.error e, x')) : x' = x := by
  rcases start_cases (τ := τ) (β := β) handler batch signalled x with
    ⟨_, hrun, -⟩ | ⟨-, -, -, hrun⟩
  · rw [hrun] at hstart
    exact (Prod.mk.inj hstart).2.symm
  · rw [hrun] at hstart
    cases hstart

theorem lt_of_endedAt (hended : x.EndedAt i) : i < x.tasks.length := by
  obtain ⟨t, how, htask, -⟩ := hended
  exact (List.getElem?_eq_some_iff.mp htask).1

omit [Delays π τ] in
theorem tasks_put (htask : p.task = some t') : (x.put i p).tasks = x.tasks.set i t' := by
  rw [put, htask]
  rfl

/-- What a task does leaves every end as it is, and a task that has ended does nothing. -/
theorem ended_put {j : Nat} (htask : x.tasks[i]? = some t)
    (hact : h.act (x.pumpOf t) = some (p, events)) (hended : x.EndedAt j) :
    (x.put i p).EndedAt j ∧
      (i = j → events = [] ∧ p.policy = x.policy ∧ p.phase = x.phase) := by
  obtain ⟨t', htask', -, hstays, hcalm, -⟩ := act_spec rfl hact
  obtain ⟨u, how, hu, hhow⟩ := hended
  by_cases hij : i = j
  · subst hij
    obtain rfl := Option.some.inj (htask.symm.trans hu)
    obtain ⟨hhow', hnone⟩ := hstays how hhow
    refine ⟨⟨t', how, ?_, hhow'⟩, fun _ => ⟨hnone, hcalm (Or.inl ⟨how, hhow⟩)⟩⟩
    rw [tasks_put htask', List.getElem?_set_self (List.getElem?_eq_some_iff.mp htask).1]
  · refine ⟨⟨u, how, ?_, hhow⟩, fun hsame => absurd hsame hij⟩
    rw [tasks_put htask', List.getElem?_set_ne hij, hu]

/-- A call to stop sets the event of the newest task, if there is one. -/
theorem stop_cases (x : Roster π) :
    (x.tasks = [] ∧ x.newest? = none ∧
      x.stop = { x with stops := x.stops ++ [⟨none, false⟩] }) ∨
    ∃ i t, i + 1 = x.tasks.length ∧ x.tasks[i]? = some t ∧ x.newest? = some i ∧
      x.stop = { x.put i (x.pumpOf t).signal with stops := x.stops ++ [⟨some i, false⟩] } := by
  rcases List.eq_nil_or_concat x.tasks with hnil | ⟨ts, t, hts⟩
  · have hnewest : x.newest? = none := by rw [newest?, if_pos hnil]
    have hlast : x.tasks.getLast? = none := by rw [hnil, List.getLast?_nil]
    refine Or.inl ⟨hnil, hnewest, ?_⟩
    rw [stop, hnewest, hlast]
    rfl
  · have hlength : ts.length + 1 = x.tasks.length := by simp [hts]
    have hlast : x.tasks.getLast? = some t := by simp [hts]
    have hnewest : x.newest? = some ts.length := by
      rw [newest?, if_neg (by simp [hts]), ← hlength, Nat.add_sub_cancel]
    refine Or.inr ⟨ts.length, t, hlength, by simp [hts], hnewest, ?_⟩
    rw [stop, hnewest, hlast, ← hlength]
    rfl

end Roster

open Roster

/-- What a move makes of the tasks: nothing, one task more, or what one of them did. -/
theorem Step.effect (hstep : Step x m events x') :
    (x'.tasks = x.tasks ∧ x'.policy = x.policy ∧ x'.phase = x.phase) ∨
    (∃ t : Task, t.position = .beginning ∧ x.running = false ∧ x'.tasks = x.tasks ++ [t] ∧
      x'.policy = Delays.reset x.policy ∧ x'.phase = .idle) ∨
    ∃ i t, ∃ h : Happening β, ∃ p, ∃ made : List (Event τ β), x.tasks[i]? = some t ∧
      h.act (x.pumpOf t) = some (p, made) ∧ x'.tasks = (x.put i p).tasks ∧
      x'.policy = p.policy ∧ x'.phase = p.phase := by
  cases hstep with
  | start handler batch signalled hstart =>
    obtain ⟨hrunning, rfl⟩ := of_started hstart
    exact Or.inr (Or.inl ⟨_, rfl, hrunning, rfl, rfl, rfl⟩)
  | refused handler batch signalled hstart =>
    obtain rfl := of_refused hstart
    exact Or.inl ⟨rfl, rfl, rfl⟩
  | stop =>
    rcases x.stop_cases with ⟨-, -, hstop⟩ | ⟨i, t, -, htask, -, hstop⟩
    · rw [hstop]
      exact Or.inl ⟨rfl, rfl, rfl⟩
    · rw [hstop]
      exact Or.inr (Or.inr ⟨i, t, .signalled, _, [], htask, rfl, rfl, rfl, rfl⟩)
  | returned => exact Or.inl ⟨rfl, rfl, rfl⟩
  | task htask hact => exact Or.inr (Or.inr ⟨_, _, _, _, _, htask, hact, rfl, rfl, rfl⟩)

/-- A task that has ended stays so and does nothing any more. -/
theorem Step.ended (hstep : Step x m events x') (hended : x.EndedAt i) :
    x'.EndedAt i ∧ ∀ h, m = .task i h → events = [] := by
  constructor
  · have hlt := lt_of_endedAt hended
    obtain ⟨t, how, htask, hhow⟩ := hended
    rcases hstep.effect with ⟨hsame, -⟩ | ⟨new, -, -, hgrown, -⟩ |
      ⟨j, u, h, p, made, hu, hact, hput, -⟩
    · exact ⟨t, how, hsame ▸ htask, hhow⟩
    · exact ⟨t, how, by rw [hgrown, List.getElem?_append_left hlt, htask], hhow⟩
    · obtain ⟨⟨t', how', htask', hhow'⟩, -⟩ := ended_put hu hact ⟨t, how, htask, hhow⟩
      exact ⟨t', how', hput ▸ htask', hhow'⟩
  · rintro h rfl
    cases hstep with
    | task htask hact => exact ((ended_put htask hact hended).2 rfl).1

theorem Step.calls (hstep : Step x m events x') : ∀ call ∈ x'.stops,
    call ∈ x.stops ∨ (call.returned = false ∧ call.awaits = x.newest?) ∨
      ∃ old ∈ x.stops, old.awaits = call.awaits ∧ ∀ i, call.awaits = some i → x.EndedAt i := by
  intro call hcall
  cases hstep with
  | start handler batch signalled hstart =>
    obtain ⟨-, rfl⟩ := of_started hstart
    exact Or.inl hcall
  | refused handler batch signalled hstart =>
    obtain rfl := of_refused hstart
    exact Or.inl hcall
  | stop =>
    have hstops : x.stop.stops = x.stops ++ [⟨x.newest?, false⟩] := rfl
    rw [hstops] at hcall
    rcases List.mem_append.mp hcall with hold | hnew
    · exact Or.inl hold
    · rw [List.mem_singleton.mp hnew]
      exact Or.inr (Or.inl ⟨rfl, rfl⟩)
  | returned hold hended =>
    rcases List.mem_or_eq_of_mem_set hcall with hold' | rfl
    · exact Or.inl hold'
    · exact Or.inr (Or.inr ⟨_, List.mem_of_getElem? hold, rfl, hended⟩)
  | task => exact Or.inl hcall

theorem Step.length_le (hstep : Step x m events x') : x.tasks.length ≤ x'.tasks.length := by
  rcases hstep.effect with ⟨hsame, -⟩ | ⟨new, -, -, hgrown, -⟩ |
    ⟨j, u, h, p, made, hu, hact, hput, -⟩
  · rw [hsame]
  · rw [hgrown, List.length_append]
    exact Nat.le_add_right ..
  · obtain ⟨t', htask', -⟩ := act_spec rfl hact
    rw [hput, tasks_put htask', List.length_set]

/-- A receiver that is not running has no task that has not ended. -/
theorem Single.all_ended (hsingle : Single x) (hrunning : x.running = false)
    (hi : i < x.tasks.length) : x.EndedAt i := by
  by_cases hlast : i + 1 = x.tasks.length
  · have hget : x.tasks.getLast? = x.tasks[i]? := by
      rw [List.getLast?_eq_getElem?, ← hlast, Nat.add_sub_cancel]
    have htask : x.tasks[i]? = some x.tasks[i] := List.getElem?_eq_getElem hi
    obtain ⟨how, hhow⟩ := running_eq_false.mp hrunning _ (hget.trans htask)
    exact ⟨_, how, htask, hhow⟩
  · exact hsingle.earlier i (by omega)

theorem Single.running_iff (hsingle : Single x) :
    x.running = true ↔ ∃ t ∈ x.tasks, t.ending? = none := by
  constructor
  · intro hrunning
    obtain ⟨t, htask, hgoing⟩ := (Option.any_eq_true _ _).mp hrunning
    exact ⟨t, List.mem_of_getLast? htask, Option.isNone_iff_eq_none.mp hgoing⟩
  · rintro ⟨t, ht, hgoing⟩
    by_contra hidle
    obtain ⟨i, hi, rfl⟩ := List.mem_iff_getElem.mp ht
    obtain ⟨u, how, hu, hhow⟩ := hsingle.all_ended (by simpa using hidle) hi
    obtain rfl := Option.some.inj ((List.getElem?_eq_getElem hi).symm.trans hu)
    simp [Task.ending?, hhow] at hgoing

/-- If there is one task at most that has not ended, a move leaves it so. -/
theorem Single.step (hsingle : Single x) (hstep : Step x m events x') : Single x' := by
  have hkept : ∀ i, x.EndedAt i → x'.EndedAt i := fun i hended => (hstep.ended hended).1
  refine ⟨fun i hi => ?_, fun call hcall i hawaits => ?_⟩
  · rcases hstep.effect with ⟨hsame, -⟩ | ⟨new, -, hrunning, hgrown, -⟩ |
      ⟨j, u, h, p, made, hu, hact, hput, -⟩
    · exact hkept i (hsingle.earlier i (hsame ▸ hi))
    · -- The task that was the newest had ended when the new one was made.
      rw [hgrown, List.length_append, List.length_singleton] at hi
      exact hkept i (hsingle.all_ended hrunning (by omega))
    · obtain ⟨t', htask', -⟩ := act_spec rfl hact
      rw [hput, tasks_put htask', List.length_set] at hi
      exact hkept i (hsingle.earlier i hi)
  · have hgrows := hstep.length_le
    rcases hstep.calls call hcall with hold | ⟨hwaits, hnewest⟩ | ⟨old, hold, hsame, hended⟩
    · obtain ⟨hlt, hended⟩ := hsingle.stopped call hold i hawaits
      exact ⟨by omega, fun hreturned => hkept i (hended hreturned)⟩
    · rw [hnewest] at hawaits
      refine ⟨?_, fun hreturned => by simp [hwaits] at hreturned⟩
      rcases x.stop_cases with ⟨-, hnone, -⟩ | ⟨j, t, hj, -, hsome, -⟩
      · simp [hnone] at hawaits
      · obtain rfl := Option.some.inj (hsome.symm.trans hawaits)
        omega
    · have hlt := lt_of_endedAt (hended i hawaits)
      exact ⟨by omega, fun _ => hkept i (hended i hawaits)⟩

/-- What the newest task does is what the pump does that the receiver shows; the others do
nothing that it would show. -/
theorem Single.view_put (hsingle : Single x) (htask : x.tasks[i]? = some t)
    (hact : h.act (x.pumpOf t) = some (p, events)) :
    ((x.put i p).view = x.view ∧ events = []) ∨ h.act x.view = some ((x.put i p).view, events) := by
  obtain ⟨t', htask', ⟨hname, hmax, hpast⟩, hstays, -⟩ := act_spec rfl hact
  obtain ⟨hlt, hget⟩ := List.getElem?_eq_some_iff.mp htask
  obtain ⟨before, after, hold, hlength, hnew⟩ : ∃ before after,
      x.tasks = before ++ x.tasks[i] :: after ∧ before.length = i ∧
        x.tasks.set i t' = before ++ t' :: after := List.exists_of_set hlt
  rw [hget] at hold
  have hput : (x.put i p).tasks = before ++ t' :: after := (tasks_put htask').trans hnew
  cases after with
  | nil =>
    have hview : x.pumpOf t = x.view := by simp [pumpOf, view, hold]
    have hafter : (x.put i p).view = p := by
      have hends : x.view.past = before.filterMap Task.ending? := by simp [view, hold]
      obtain ⟨name, maxBatch, policy, phase, past, task⟩ := p
      obtain rfl : past = before.filterMap Task.ending? := hpast.trans hends
      obtain rfl : task = some t' := htask'
      obtain rfl : name = x.name := hname
      obtain rfl : maxBatch = x.maxBatch := hmax
      rw [view, hput]
      simp [put]
    rw [hafter, ← hview]
    exact Or.inr hact
  | cons u rest =>
    have hearlier : i + 1 < x.tasks.length := by
      rw [hold, List.length_append, List.length_cons, List.length_cons, hlength]
      omega
    have hended := hsingle.earlier i hearlier
    obtain ⟨hnone, hpolicy, hphase⟩ := (ended_put htask hact hended).2 rfl
    obtain ⟨t₀, how, htask₀, hhow⟩ := hended
    obtain rfl := Option.some.inj (htask.symm.trans htask₀)
    have hsame : t'.ending? = t.ending? := by
      rw [Task.ending?, Task.ending?, (hstays how hhow).1, hhow]
    refine Or.inl ⟨?_, hnone⟩
    have hdrop : ∀ v : Task, (before ++ v :: u :: rest).dropLast = before ++
        v :: (u :: rest).dropLast :=
      fun v => by rw [List.dropLast_append_of_ne_nil (by simp), List.dropLast_cons_cons]
    rw [view, view, hput, hold, hdrop, hdrop, List.filterMap_append, List.filterMap_append,
      List.filterMap_cons, List.filterMap_cons, hsame]
    simp [put, hpolicy, hphase]

omit [Delays π τ] in
theorem endings_of_last (tasks : List Task) :
    tasks.dropLast.filterMap Task.ending? ++ (tasks.getLast?.bind Task.ending?).toList =
      tasks.filterMap Task.ending? := by
  rcases List.eq_nil_or_concat tasks with rfl | ⟨ts, t, rfl⟩
  · rfl
  · rw [List.concat_eq_append, List.dropLast_concat, List.getLast?_concat, Option.bind_some,
      List.filterMap_append]
    cases hending : t.ending? <;> simp [hending]

theorem start?_keeps (hstart : p.start? handler batch signalled = .ok (p', events)) :
    p'.name = p.name ∧ p'.maxBatch = p.maxBatch ∧
      p'.past = p.past ++ (p.task.bind Task.ending?).toList ∧ ∃ t, p'.task = some t := by
  unfold start? at hstart
  dsimp only at hstart
  split at hstart
  · cases hstart
  · split at hstart
    · cases hstart
    · split at hstart
      · cases hstart
      · obtain ⟨rfl, -⟩ := Prod.mk.inj (Except.ok.inj hstart)
        exact ⟨rfl, rfl, rfl, _, rfl⟩

/-- A receiver moves as the pump does that it shows. -/
theorem Step.view (hsingle : Single x) (hstep : Step x m events x') :
    (x'.view = x.view ∧ events = []) ∨
    (∃ h : Happening β, h.act x.view = some (x'.view, events)) ∨
    ∃ handler batch signalled, x.view.start? handler batch signalled = .ok (x'.view, events) := by
  cases hstep with
  | start handler batch signalled hstart =>
    rw [runFrom_start] at hstart
    cases hview : x.view.start? (τ := τ) (β := β) handler batch signalled with
    | error e =>
      rw [hview] at hstart
      cases hstart
    | ok made =>
      obtain ⟨p, made⟩ := made
      rw [hview] at hstart
      obtain ⟨hmade, rfl⟩ := Prod.mk.inj hstart
      obtain rfl := Except.ok.inj hmade
      obtain ⟨hname, hmax, hpast, t, htask⟩ := start?_keeps hview
      refine Or.inr (Or.inr ⟨handler, batch, signalled, hview.trans ?_⟩)
      obtain ⟨name, maxBatch, policy, phase, past, task⟩ := p
      obtain rfl : task = some t := htask
      obtain rfl : name = x.name := hname
      obtain rfl : maxBatch = x.maxBatch := hmax
      obtain rfl : past = x.tasks.filterMap Task.ending? := hpast.trans (endings_of_last x.tasks)
      simp [Roster.view]
  | refused handler batch signalled hstart =>
    obtain rfl := of_refused hstart
    exact Or.inl ⟨rfl, rfl⟩
  | stop =>
    rcases x.stop_cases with ⟨-, -, hstop⟩ | ⟨i, t, -, htask, -, hstop⟩
    · rw [hstop]
      exact Or.inl ⟨rfl, rfl⟩
    · rw [hstop]
      refine (hsingle.view_put htask (h := (.signalled : Happening β)) (τ := τ) rfl).imp_right
        fun hact => Or.inl ⟨.signalled, hact⟩
  | returned => exact Or.inl ⟨rfl, rfl⟩
  | task htask hact =>
    exact (hsingle.view_put htask hact).imp_right fun hview => Or.inl ⟨_, hview⟩

/-- As long as a task has yet to take its first turn, nobody else touches the policy. -/
theorem Step.unbegun (hsingle : Single x) (hstep : Step x m events x') {policy : π}
    (hn : n < x.tasks.length)
    (hfound : ∀ t, x.tasks[n]? = some t → t.position = .beginning →
      x.policy = policy ∧ x.phase = .idle) :
    ∀ t, x'.tasks[n]? = some t → t.position = .beginning →
      x'.policy = policy ∧ x'.phase = .idle := by
  have hgoing : ∀ t, x.tasks[n]? = some t → t.position = .beginning → ¬ x.EndedAt n := by
    rintro t htask hbeginning ⟨u, how, hu, hhow⟩
    obtain rfl := Option.some.inj (htask.symm.trans hu)
    simp [hbeginning] at hhow
  intro t htask hbeginning
  rcases hstep.effect with ⟨hsame, hpolicy, hphase⟩ | ⟨new, -, hrunning, hgrown, -⟩ |
    ⟨i, u, h, p, made, hu, hact, hput, hpolicy, hphase⟩
  · rw [hpolicy, hphase]
    exact hfound t (hsame ▸ htask) hbeginning
  · rw [hgrown, List.getElem?_append_left hn] at htask
    exact absurd (hsingle.all_ended hrunning hn) (hgoing t htask hbeginning)
  · obtain ⟨u', hu', -, -, hcalm, hback⟩ := act_spec rfl hact
    rw [hpolicy, hphase]
    rw [hput, tasks_put hu'] at htask
    by_cases hin : i = n
    · subst hin
      rw [List.getElem?_set_self hn] at htask
      obtain rfl := Option.some.inj htask
      obtain ⟨hkeeps, hkeeps'⟩ := hcalm (Or.inr hbeginning)
      rw [hkeeps, hkeeps']
      exact hfound u hu (hback hbeginning)
    · rw [List.getElem?_set_ne hin] at htask
      have hlast : ¬ n + 1 < x.tasks.length := fun hlt =>
        hgoing t htask hbeginning (hsingle.earlier n hlt)
      have hi := (List.getElem?_eq_some_iff.mp hu).1
      have hended := hsingle.earlier i (by omega)
      obtain ⟨-, hkeeps, hkeeps'⟩ := (ended_put hu hact hended).2 rfl
      rw [hkeeps, hkeeps']
      exact hfound t htask hbeginning

namespace Roster.Runs

variable {past later : List (Move β × List (Event τ β))}

theorem single (hsingle : Single x) (hrun : Runs x past y) : Single y := by
  induction hrun with
  | nil => exact hsingle
  | cons hstep _ ih => exact ih (hsingle.step hstep)

theorem ended (hended : x.EndedAt i) (hrun : Runs x later y) :
    y.EndedAt i ∧ ∀ events h, (.task i h, events) ∈ later → events = [] := by
  induction hrun with
  | nil => exact ⟨hended, by simp⟩
  | @cons x x' y m made rest hstep _ ih =>
    obtain ⟨hended', hnone⟩ := hstep.ended hended
    obtain ⟨hlast, hlater⟩ := ih hended'
    refine ⟨hlast, fun events h hmem => ?_⟩
    rcases List.mem_cons.mp hmem with heq | hmem
    · obtain ⟨rfl, rfl⟩ := Prod.mk.inj heq
      exact hnone h rfl
    · exact hlater events h hmem

theorem unbegun (hsingle : Single x) (hrun : Runs x later y) {policy : π}
    (hn : n < x.tasks.length)
    (hfound : ∀ t, x.tasks[n]? = some t → t.position = .beginning →
      x.policy = policy ∧ x.phase = .idle) :
    ∀ t, y.tasks[n]? = some t → t.position = .beginning →
      y.policy = policy ∧ y.phase = .idle := by
  induction hrun with
  | nil => exact hfound
  | cons hstep _ ih =>
    exact ih (hsingle.step hstep) (Nat.lt_of_lt_of_le hn hstep.length_le)
      (hstep.unbegun hsingle hn hfound)

end Roster.Runs

theorem single_fresh (name : String) (maxBatch : Nat) (policy : π) :
    Single (Roster.fresh name maxBatch policy) where
  earlier i hi := by simp [Roster.fresh] at hi
  stopped call hcall := by simp [Roster.fresh] at hcall

omit [Delays π τ] in
theorem map_some_endings {ts : List Task} (hended : ∀ t ∈ ts, ∃ how, t.ending? = some how) :
    (ts.filterMap Task.ending?).map some = ts.map Task.ending? := by
  induction ts with
  | nil => rfl
  | cons t rest ih =>
    obtain ⟨⟨how, hhow⟩, hrest⟩ := List.forall_mem_cons.mp hended
    rw [List.filterMap_cons_some hhow, List.map_cons, List.map_cons, ih hrest, hhow]

/-- At most one task has not ended, and the endings are those that the receiver shows. -/
theorem Single.count (hsingle : Single x) :
    (x.tasks.countP fun t => t.ending?.isNone) ≤ 1 ∧
      x.view.endings = x.tasks.map Task.ending? := by
  rcases List.eq_nil_or_concat x.tasks with hnil | ⟨ts, t, hts⟩
  · simp [hnil, endings, Roster.view]
  · have hended : ∀ u ∈ ts, ∃ how, u.ending? = some how := by
      intro u hu
      obtain ⟨i, hi, rfl⟩ := List.mem_iff_getElem.mp hu
      obtain ⟨v, how, hv, hhow⟩ := hsingle.earlier i (by simp [hts, hi])
      rw [hts, List.concat_eq_append, List.getElem?_append_left hi,
        List.getElem?_eq_getElem hi] at hv
      obtain rfl := Option.some.inj hv
      exact ⟨how, by rw [Task.ending?, hhow]⟩
    constructor
    · have hnone : (ts.countP fun t => t.ending?.isNone) = 0 := by
        rw [List.countP_eq_zero]
        intro u hu
        obtain ⟨how, hhow⟩ := hended u hu
        simp [hhow]
      rw [hts, List.concat_eq_append, List.countP_append, hnone, Nat.zero_add]
      exact List.countP_le_length
    · simp [endings, Roster.view, hts, map_some_endings hended]

/-- Whatever calls to start and to stop come between the turns of its tasks, a receiver has at
most one task that has not ended, and moves just as the pump does that it shows. A start is
refused without a handler, for a batch size below one and while a task is under way, and then
it changes nothing; otherwise it resets the policy, and the new task finds it so in its first
turn. When a call to stop comes back, the task that was the newest when it was made has ended:
it takes no turn and so neither polls nor hands over anything in whatever follows, and what
may be running was started after it, so that otherwise the receiver can be started again. -/
theorem one_task_at_most (name : String) (maxBatch : Nat) (policy : π)
    {past : List (Move β × List (Event τ β))} {x : Roster π}
    (hrun : Roster.Runs (.fresh name maxBatch policy) past x) :
    ((x.tasks.countP fun t => t.ending?.isNone) ≤ 1 ∧
      x.view.endings = x.tasks.map Task.ending? ∧
      ∀ (m : Move β) (events : List (Event τ β)) y, Step x m events y →
        (y.view = x.view ∧ events = []) ∨
        (∃ h : Happening β, h.act x.view = some (y.view, events)) ∨
        ∃ handler batch signalled,
          x.view.start? handler batch signalled = .ok (y.view, events)) ∧
    (∀ handler batch signalled, ∃ (answer : Except Fault (List (Event τ β))) (y : Roster π),
      (Roster.start handler batch signalled).runFrom x = (answer, y) ∧
      ((∃ e, answer = .error e) ↔
        handler = false ∨ batch.getD x.maxBatch < 1 ∨ ∃ t ∈ x.tasks, t.ending? = none) ∧
      (∀ e, answer = .error e → y = x) ∧
      ∀ events, answer = .ok events →
        y.policy = Delays.reset x.policy ∧ y.phase = .idle ∧
        (∃ t, y.tasks = x.tasks ++ [t] ∧ t.position = .beginning) ∧
        ∀ (later : List (Move β × List (Event τ β))) z t, Roster.Runs y later z →
          z.tasks[x.tasks.length]? = some t → t.position = .beginning →
            z.policy = Delays.reset x.policy ∧ z.phase = .idle) ∧
    ∀ call ∈ x.stops, call.returned = true → ∀ i, call.awaits = some i →
      (∀ (later : List (Move β × List (Event τ β))) y, Roster.Runs x later y →
        y.EndedAt i ∧ ∀ events h, (.task i h, events) ∈ later → events = []) ∧
      (∀ j t, x.tasks[j]? = some t → t.ending? = none → i < j) ∧
      (i + 1 = x.tasks.length → ∀ batch signalled, 1 ≤ batch.getD x.maxBatch →
        ∃ (events : List (Event τ β)) (y : Roster π),
          (Roster.start true batch signalled).runFrom x = (.ok events, y)) := by
  have hsingle : Single x := hrun.single (single_fresh name maxBatch policy)
  obtain ⟨hcount, hendings⟩ := hsingle.count
  refine ⟨⟨hcount, hendings, fun m events y hstep => hstep.view hsingle⟩,
    fun handler batch signalled => ?_, fun call hcall hreturned i hawaits => ?_⟩
  · rcases start_cases (τ := τ) (β := β) handler batch signalled x with
      ⟨e, hstart, hwhy⟩ | ⟨rfl, hbatch, hrunning, hstart⟩
    · rw [hsingle.running_iff] at hwhy
      exact ⟨_, _, hstart, iff_of_true ⟨e, rfl⟩ hwhy, fun _ _ => rfl, fun _ hok => by cases hok⟩
    · have hidle : ¬ ∃ t ∈ x.tasks, t.ending? = none := by
        rw [← hsingle.running_iff, hrunning]
        exact Bool.false_ne_true
      refine ⟨_, _, hstart, iff_of_false (fun ⟨e, herror⟩ => ?_) ?_, fun e herror => ?_,
        fun events _ => ⟨rfl, rfl, ⟨_, rfl, rfl⟩, fun later z t hlater => ?_⟩⟩
      · cases herror
      · rintro (hhandler | hsmall | hbusy)
        · cases hhandler
        · omega
        · exact hidle hbusy
      · cases herror
      · have hstarted : Step x (.start true batch signalled) _ _ :=
          .start (τ := τ) (β := β) true batch signalled hstart
        exact hlater.unbegun (hsingle.step hstarted) (by simp) (fun _ _ _ => ⟨rfl, rfl⟩) t
  · obtain ⟨hlt, hended⟩ := hsingle.stopped call hcall i hawaits
    have hended := hended hreturned
    have hnewer : ∀ j t, x.tasks[j]? = some t → t.ending? = none → i < j := by
      intro j t htask hgoing
      have hj := (List.getElem?_eq_some_iff.mp htask).1
      have hnot : ¬ x.EndedAt j := by
        rintro ⟨u, how, hu, hhow⟩
        obtain rfl := Option.some.inj (htask.symm.trans hu)
        simp [Task.ending?, hhow] at hgoing
      by_contra hle
      rcases Nat.lt_or_eq_of_le (Nat.le_of_not_lt hle) with hlt' | rfl
      · exact hnot (hsingle.earlier j (by omega))
      · exact hnot hended
    refine ⟨fun later y hlater => hlater.ended hended, hnewer,
      fun hnewest batch signalled hbatch => ?_⟩
    rcases start_cases (τ := τ) (β := β) true batch signalled x with
      ⟨e, -, hwhy⟩ | ⟨-, -, -, hstart⟩
    · rw [hsingle.running_iff] at hwhy
      rcases hwhy with hhandler | hsmall | ⟨t, ht, hgoing⟩
      · cases hhandler
      · omega
      · obtain ⟨j, hj, rfl⟩ := List.mem_iff_getElem.mp ht
        have hij := hnewer j _ (List.getElem?_eq_getElem hj) hgoing
        omega
    · exact ⟨_, _, hstart⟩

def stoppedWhilePolling : List (Move Nat × List (Event Nat Nat)) :=
  [(.start true none false, [.reset]),
    (.task 0 (.resumed .begun), [.entered .polling, .polled 1]),
    (.start true none false, []), (.stop, []),
    (.task 0 (.resumed (.answered (.batch [7]))),
      [.counted .messages, .entered .delivering, .delivered [7]]),
    (.task 0 (.resumed (.handled .done)), [.reset, .entered .stopped]),
    (.returned 0, [])]

theorem one_task_at_most_stoppedWhilePolling :
    ∃ x : Roster (Policy Nat),
      Roster.Runs (.fresh "receiver" 1 patient.policy) stoppedWhilePolling x ∧
      (x.tasks.countP fun t => t.ending?.isNone) ≤ 1 ∧
      ∃ (events : List (Event Nat Nat)) (y : Roster (Policy Nat)),
        (Roster.start true none false).runFrom x = (.ok events, y) := by
  have hrun : Roster.Runs (.fresh "receiver" 1 patient.policy) stoppedWhilePolling _ :=
    .cons (.start true none false rfl) (.cons (.task rfl rfl) (.cons (.refused true none false rfl)
      (.cons (.stop _) (.cons (.task rfl rfl) (.cons (.task rfl rfl)
        (.cons (.returned rfl fun i hi => ⟨_, .finished, by cases hi; rfl, rfl⟩) (.nil _)))))))
  obtain ⟨⟨hcount, -⟩, -, hstopped⟩ := one_task_at_most "receiver" 1 patient.policy hrun
  obtain ⟨-, -, hagain⟩ := hstopped ⟨some 0, true⟩ (List.mem_of_getElem? (i := 0) rfl) rfl 0 rfl
  exact ⟨_, hrun, hcount, hagain rfl none false (by decide)⟩

end Depot.Pump
