import Depot.Proofs.Pump.Run
import Mathlib.Data.List.Chain
import Mathlib.Logic.Function.Iterate

/-!
The trace of a pump: which batches go to the handler, when it waits and how long, and which
phases follow each other. A setback is a poll that brought nothing, a poll that failed, or
a handler that failed; each costs one wait, and the waits grow until a handler succeeds.
-/
namespace Depot.Pump

def Phase.leads : Phase → Phase → Bool
  | .idle, next => next = .polling || next = .stopped
  | .polling, next => next = .delivering || next = .backoff || next = .stopped
  | .delivering, next => next = .polling || next = .backoff || next = .stopped
  | .backoff, next => next = .polling || next = .stopped
  | .stopped, _ => false

namespace Event

variable {τ β : Type}

def delivery? : Event τ β → Option (List β)
  | .delivered messages => some messages
  | _ => none

def delay? : Event τ β → Option τ
  | .delayed delay => some delay
  | _ => none

def phase? : Event τ β → Option Phase
  | .entered phase => some phase
  | _ => none

def isPoll : Event τ β → Bool
  | .polled _ => true
  | _ => false

end Event

namespace Happening

variable {β : Type}

def batch? : Happening β → Option (List β)
  | .resumed (.answered (.batch (m :: rest))) => some (m :: rest)
  | _ => none

def isSetback : Happening β → Bool
  | .resumed (.answered (.batch [])) => true
  | .resumed (.answered .failed) => true
  | .resumed (.handled .failed) => true
  | _ => false

def isSuccess : Happening β → Bool
  | .resumed (.handled .done) => true
  | _ => false

end Happening

variable {π τ β : Type} [Delays π τ]

def trace (past : List (Moment τ β)) : List (Event τ β) := past.flatMap Moment.events

def waits (events : List (Event τ β)) : List τ :=
  (events.takeWhile fun e => !e.isPoll).filterMap Event.delay?

def advanced (policy : π) (n : Nat) : π := (fun p => (Delays.advance p).2)^[n] policy

def nthDelay (policy : π) (n : Nat) : τ := (Delays.advance (advanced policy n)).1

/-- The policy as its last reset left it, and the setbacks since then. -/
structure Pace (π : Type) where
  origin : π
  setbacks : Nat

namespace Pace

def policy (x : Pace π) : π := advanced x.origin x.setbacks

def after (x : Pace π) (h : Happening β) : Pace π :=
  if h.isSuccess then ⟨Delays.reset x.policy, 0⟩
  else if h.isSetback then { x with setbacks := x.setbacks + 1 }
  else x

end Pace

def pace (origin : π) (past : List (Moment τ β)) : Pace π :=
  past.foldl (fun x m => x.after m.happening) ⟨origin, 0⟩

variable {p p' q : Pump π} {t : Task} {r : Resumption β} {turn : Pump π × List (Event τ β)}
  {h : Happening β} {events events' : List (Event τ β)} {past : List (Moment τ β)} {x : Pace π}

omit [Delays π τ] in
theorem delivery_nextRound (p : Pump π) (t : Task) :
    (p.nextRound t : Pump π × List (Event τ β)).2.filterMap Event.delivery? = [] := by
  rcases nextRound_cases (τ := τ) (β := β) p t with ⟨-, heq⟩ | ⟨-, heq⟩ <;> rw [heq] <;> rfl

theorem delivery_backOff (p : Pump π) (t : Task) :
    (p.backOff t : Pump π × List (Event τ β)).2.filterMap Event.delivery? = [] := by
  rcases backOff_cases (τ := τ) (β := β) p t with ⟨-, heq⟩ | ⟨-, heq⟩ <;> rw [heq] <;> rfl

/-- The handler gets the batch that a poll brought, and nothing else. -/
theorem Turn.delivery (hturn : Turn p t r turn) :
    turn.2.filterMap Event.delivery? = (Happening.resumed r).batch?.toList := by
  cases hturn with
  | begin => exact delivery_nextRound p t
  | succeed => exact delivery_nextRound _ t
  | goOn => exact delivery_nextRound p t
  | missed => exact delivery_backOff p t
  | unanswered => exact delivery_backOff p t
  | fail => exact delivery_backOff p t
  | interrupt =>
    unfold Pump.interrupt
    split <;> rfl
  | _ => rfl

theorem delivery_of_act (hact : h.act p = some (p', events)) :
    events.filterMap Event.delivery? = h.batch?.toList := by
  cases h with
  | resumed r =>
    obtain ⟨t, -, hturn⟩ := turn_of_resume hact
    exact hturn.delivery
  | _ =>
    obtain ⟨-, rfl⟩ := Prod.mk.inj (Option.some.inj hact)
    rfl

/-- The batches that went to the handler are those that polls brought. -/
theorem Runs.deliveries (hrun : Runs p past q) :
    (trace past).filterMap Event.delivery? = past.filterMap fun m => m.happening.batch? := by
  induction hrun with
  | nil p => rfl
  | @cons p p' q h events rest hact hrest ih =>
    rw [trace, List.flatMap_cons, List.filterMap_append, delivery_of_act hact, ← trace, ih]
    cases hbatch : h.batch? <;> simp [hbatch]

omit [Delays π τ] in
theorem phases_nextRound (p : Pump π) (t : Task) {phase : Phase}
    (hstop : phase.leads .stopped = true) (hpoll : phase.leads .polling = true) :
    (p.nextRound t : Pump π × List (Event τ β)).2.filterMap Event.phase? =
        [(p.nextRound t : Pump π × List (Event τ β)).1.phase] ∧
      phase.leads (p.nextRound t : Pump π × List (Event τ β)).1.phase = true := by
  rcases nextRound_cases (τ := τ) (β := β) p t with ⟨-, heq⟩ | ⟨-, heq⟩
  · rw [heq]
    exact ⟨rfl, hstop⟩
  · rw [heq]
    exact ⟨rfl, hpoll⟩

theorem phases_backOff (p : Pump π) (t : Task) {phase : Phase}
    (hstop : phase.leads .stopped = true) (hwait : phase.leads .backoff = true) :
    (p.backOff t : Pump π × List (Event τ β)).2.filterMap Event.phase? =
        [(p.backOff t : Pump π × List (Event τ β)).1.phase] ∧
      phase.leads (p.backOff t : Pump π × List (Event τ β)).1.phase = true := by
  rcases backOff_cases (τ := τ) (β := β) p t with ⟨-, heq⟩ | ⟨-, heq⟩
  · rw [heq]
    exact ⟨rfl, hstop⟩
  · rw [heq]
    exact ⟨rfl, hwait⟩

/-- A turn enters one phase, which may follow the one of the task's position. Only a task
that is cancelled before its first turn ends without a word. -/
theorem Turn.phases (hturn : Turn p t r turn) :
    (turn.2.filterMap Event.phase? = [] ∧ turn.1.phase = p.phase) ∨
      (turn.2.filterMap Event.phase? = [turn.1.phase] ∧
        t.position.phase.leads turn.1.phase = true) := by
  cases hturn with
  | interrupt hgoing =>
    unfold Pump.interrupt
    cases hposition : t.position with
    | beginning => exact Or.inl ⟨rfl, rfl⟩
    | ended how => exact absurd hposition (hgoing how)
    | _ => exact Or.inr ⟨rfl, rfl⟩
  | begin hposition =>
    rw [hposition]
    exact Or.inr (phases_nextRound p t rfl rfl)
  | succeed hposition =>
    rw [hposition]
    exact Or.inr (phases_nextRound _ t rfl rfl)
  | goOn hposition =>
    rw [hposition]
    exact Or.inr (phases_nextRound p t rfl rfl)
  | missed hposition =>
    rw [hposition]
    exact Or.inr (phases_backOff p t rfl rfl)
  | unanswered hposition =>
    rw [hposition]
    exact Or.inr (phases_backOff p t rfl rfl)
  | fail hposition =>
    rw [hposition]
    exact Or.inr (phases_backOff p t rfl rfl)
  | _ hposition =>
    rw [hposition]
    exact Or.inr ⟨rfl, rfl⟩

theorem phases_of_act (htells : Tells p t) (hact : h.act p = some (p', events)) :
    (events.filterMap Event.phase? = [] ∧ p'.phase = p.phase) ∨
      (events.filterMap Event.phase? = [p'.phase] ∧ p.phase.leads p'.phase = true) := by
  cases h with
  | resumed r =>
    obtain ⟨t', htask, hturn⟩ := turn_of_resume hact
    obtain rfl := Option.some.inj (htells.1.symm.trans htask)
    have hphases := hturn.phases
    rw [← htells.2 hturn.going] at hphases
    exact hphases
  | _ =>
    obtain ⟨rfl, hphase, -⟩ := act_of_outside hact (by simp) htells.1
    exact Or.inl ⟨rfl, hphase⟩

/-- Each phase may follow the one before it, and the last one is that of the pump. -/
theorem Runs.phases {signalled : Bool} (hgoes : Goes signalled p) (hrun : Runs p past q) :
    (p.phase :: (trace past).filterMap Event.phase?).IsChain (fun a b => a.leads b = true) ∧
      (p.phase :: (trace past).filterMap Event.phase?).getLast? = some q.phase := by
  induction hrun generalizing signalled with
  | nil p => exact ⟨List.isChain_singleton _, rfl⟩
  | cons hact hrest ih =>
    obtain ⟨t, htells, rfl⟩ := hgoes
    obtain ⟨hchain, hlast⟩ := ih (htells.act hact)
    rw [trace, List.flatMap_cons, List.filterMap_append, ← trace]
    rcases phases_of_act htells hact with ⟨hnone, hsame⟩ | ⟨hone, hleads⟩
    · rw [hnone, ← hsame]
      exact ⟨hchain, hlast⟩
    · rw [hone]
      exact ⟨List.isChain_cons_cons.mpr ⟨hleads, hchain⟩, by simpa using hlast⟩

def Rests (p : Pump π) : Prop :=
  ∃ t, p.task = some t ∧ (t.position.phase = .backoff ∨ t.position.phase = .stopped)

/-- What is done before the task rests brings no poll. -/
structure Calm (delays : List τ) (turn : Pump π × List (Event τ β)) : Prop where
  rests : Rests turn.1
  delays : turn.2.filterMap Event.delay? = delays
  no_poll : ∀ e ∈ turn.2, e.isPoll = false

omit [Delays π τ] in
theorem calm_conclude (p : Pump π) (t : Task) (how : Ending) :
    Calm [] (p.conclude t how : Pump π × List (Event τ β)) where
  rests := ⟨_, rfl, Or.inr rfl⟩
  delays := rfl
  no_poll := by simp [conclude, Event.isPoll]

theorem calm_backOff (p : Pump π) (t : Task) :
    Calm (if t.signalled then [] else [(Delays.advance p.policy).1])
      (p.backOff t : Pump π × List (Event τ β)) := by
  rcases backOff_cases (τ := τ) (β := β) p t with ⟨hset, heq⟩ | ⟨hset, heq⟩
  · rw [heq, hset]
    exact calm_conclude p t .finished
  · rw [heq, hset]
    exact ⟨⟨_, rfl, Or.inl rfl⟩, rfl, by simp [Event.isPoll]⟩

omit [Delays π τ] in
theorem Calm.noting {delays : List τ} {note : Event τ β} (hcalm : Calm delays turn)
    (hdelay : note.delay? = none) (hpoll : note.isPoll = false) :
    Calm delays (noting note turn) where
  rests := hcalm.rests
  delays := by
    rw [← hcalm.delays]
    exact List.filterMap_cons_none hdelay
  no_poll := List.forall_mem_cons.mpr ⟨hpoll, hcalm.no_poll⟩

/-- A setback costs one delay, unless the event is set. -/
theorem Turn.setback (hturn : Turn p t r turn) (hsetback : (Happening.resumed r).isSetback = true) :
    Calm (if t.signalled then [] else [(Delays.advance p.policy).1]) turn := by
  cases hturn with
  | missed => exact (calm_backOff p t).noting rfl rfl
  | unanswered => exact (calm_backOff p t).noting rfl rfl
  | fail => exact calm_backOff p t
  | _ => simp [Happening.isSetback] at hsetback

/-- After a success the next poll follows at once, unless the event is set. -/
theorem Turn.success (hturn : Turn p t r turn) (hsuccess : (Happening.resumed r).isSuccess = true) :
    (t.signalled = true ∧ Calm [] turn) ∨
      (t.signalled = false ∧ turn.2 = [.reset, .entered .polling, .polled t.batch]) := by
  cases hturn with
  | succeed hposition =>
    rcases nextRound_cases (τ := τ) (β := β) { p with policy := Delays.reset p.policy } t with
      ⟨hset, heq⟩ | ⟨hset, heq⟩
    · rw [heq]
      exact Or.inl ⟨hset, (calm_conclude _ t .finished).noting rfl rfl⟩
    · rw [heq]
      exact Or.inr ⟨hset, rfl⟩
  | _ => simp [Happening.isSuccess] at hsuccess

/-- A resting task ends or polls again without another delay. -/
theorem Turn.rested (hturn : Turn p t r turn)
    (hrests : t.position.phase = .backoff ∨ t.position.phase = .stopped) :
    Calm [] turn ∨ ∃ n, turn.2 = [.entered .polling, .polled n] := by
  cases hturn with
  | goOn =>
    rcases nextRound_cases (τ := τ) (β := β) p t with ⟨-, heq⟩ | ⟨-, heq⟩
    · rw [heq]
      exact Or.inl (calm_conclude p t .finished)
    · rw [heq]
      exact Or.inr ⟨_, rfl⟩
  | wake => exact Or.inl (calm_conclude p t .finished)
  | interrupt =>
    unfold Pump.interrupt
    cases hposition : t.position with
    | beginning => simp [hposition, Position.phase] at hrests
    | _ => exact Or.inl (calm_conclude p t .cancelled)
  | _ hposition => simp [hposition, Position.phase] at hrests

theorem rested_of_act (hrests : Rests p) (hact : h.act p = some (p', events)) :
    Calm [] (p', events) ∨ ∃ n, events = [.entered .polling, .polled n] := by
  obtain ⟨t, htask, hposition⟩ := hrests
  cases h with
  | resumed r =>
    obtain ⟨t', htask', hturn⟩ := turn_of_resume hact
    obtain rfl := Option.some.inj (htask.symm.trans htask')
    exact hturn.rested hposition
  | _ =>
    obtain ⟨rfl, -, -, t', htask', -, hsame, -⟩ := act_of_outside hact (by simp) htask
    exact Or.inl ⟨⟨t', htask', hsame ▸ hposition⟩, rfl, by simp⟩

theorem waits_append (hpoll : ∀ e ∈ events, e.isPoll = false) :
    waits (events ++ events') = events.filterMap Event.delay? ++ waits events' := by
  rw [waits, List.takeWhile_append_of_pos (by simpa using hpoll), List.filterMap_append]
  rfl

/-- A task that rests does not wait once more before it polls. -/
theorem waits_of_rests (hrests : Rests p) (hrun : Runs p past q) : waits (trace past) = [] := by
  induction hrun with
  | nil p => rfl
  | cons hact hrest ih =>
    rw [trace, List.flatMap_cons, ← trace]
    rcases rested_of_act hrests hact with hcalm | ⟨n, hpolls⟩
    · rw [waits_append hcalm.no_poll, hcalm.delays, ih hcalm.rests]
      rfl
    · rw [hpolls]
      rfl

/-- The policy has handed out one delay for each setback, or the task has ended. -/
def Paced (x : Pace π) (p : Pump π) : Prop :=
  (∃ t how, p.task = some t ∧ t.position = .ended how) ∨ p.policy = x.policy

omit [Delays π τ] in
theorem policy_nextRound (p : Pump π) (t : Task) :
    (p.nextRound t : Pump π × List (Event τ β)).1.policy = p.policy := by
  unfold nextRound
  split <;> rfl

theorem advanced_succ (policy : π) (n : Nat) :
    advanced policy (n + 1) = (Delays.advance (advanced policy n)).2 :=
  Function.iterate_succ_apply' ..

theorem paced_backOff (hpolicy : p.policy = x.policy) (t : Task) :
    Paced { x with setbacks := x.setbacks + 1 } (p.backOff t : Pump π × List (Event τ β)).1 := by
  rcases backOff_cases (τ := τ) (β := β) p t with ⟨-, heq⟩ | ⟨-, heq⟩
  · rw [heq]
    exact Or.inl ⟨_, _, rfl, rfl⟩
  · rw [heq]
    refine Or.inr (Eq.trans ?_ (advanced_succ x.origin x.setbacks).symm)
    exact congrArg (fun policy => (Delays.advance policy).2) hpolicy

theorem Turn.paced (hturn : Turn p t r turn) (hpolicy : p.policy = x.policy) :
    Paced (x.after (.resumed r : Happening β)) turn.1 := by
  cases hturn with
  | begin => exact Or.inr ((policy_nextRound p t).trans hpolicy)
  | goOn => exact Or.inr ((policy_nextRound p t).trans hpolicy)
  | succeed =>
    refine Or.inr ((policy_nextRound _ t).trans ?_)
    exact congrArg Delays.reset hpolicy
  | found => exact Or.inr hpolicy
  | missed => exact paced_backOff hpolicy t
  | unanswered => exact paced_backOff hpolicy t
  | fail => exact paced_backOff hpolicy t
  | interrupt =>
    unfold Pump.interrupt
    split
    · exact Or.inl ⟨_, _, rfl, rfl⟩
    · exact Or.inl ⟨_, _, rfl, rfl⟩
  | _ => exact Or.inl ⟨_, _, rfl, rfl⟩

theorem Paced.act (hpaced : Paced x p) (hgoes : ∃ t, p.task = some t)
    (hact : h.act p = some (p', events)) : Paced (x.after h) p' := by
  cases h with
  | resumed r =>
    obtain ⟨t, htask, hturn⟩ := turn_of_resume hact
    rcases hpaced with ⟨t', how, htask', hended⟩ | hpolicy
    · obtain rfl := Option.some.inj (htask.symm.trans htask')
      exact absurd hended (hturn.going how)
    · exact hturn.paced hpolicy
  | _ =>
    obtain ⟨t, htask⟩ := hgoes
    obtain ⟨-, -, hpolicy, t', htask', -, -, hended⟩ := act_of_outside hact (by simp) htask
    rcases hpaced with ⟨t'', how, htask'', hhow⟩ | hpaced
    · obtain rfl := Option.some.inj (htask.symm.trans htask'')
      exact Or.inl ⟨t', how, htask', (hended how).mpr hhow⟩
    · exact Or.inr (hpolicy.trans hpaced)

theorem Runs.paced {signalled : Bool} (hgoes : Goes signalled p) (hpaced : Paced x p)
    (hrun : Runs p past q) : Paced (past.foldl (fun x m => x.after m.happening) x) q := by
  induction hrun generalizing signalled x with
  | nil p => exact hpaced
  | cons hact hrest ih =>
    obtain ⟨t, htells, rfl⟩ := hgoes
    exact ih (htells.act hact) (hpaced.act ⟨t, htells.1⟩ hact)

/-- A start makes a task that has yet to take its first turn. -/
theorem start_eq {handler : Bool} {batch : Option Int} {signalled : Bool}
    (hstart : p.start? handler batch signalled = .ok (p', events)) :
    ∃ n past, p' = { p with
      policy := Delays.reset p.policy
      phase := .idle
      past := past
      task := some ⟨n, signalled, false, .beginning⟩ } := by
  unfold start? at hstart
  dsimp only at hstart
  split at hstart
  · cases hstart
  · split at hstart
    · cases hstart
    · split at hstart
      · cases hstart
      · obtain ⟨rfl, -⟩ := Prod.mk.inj (Except.ok.inj hstart)
        exact ⟨_, _, rfl⟩

/-- What a start leaves: a task before its first turn, and a policy that was reset. -/
theorem start_spec {handler : Bool} {batch : Option Int} {signalled : Bool}
    (hstart : p.start? handler batch signalled = .ok (p', events)) :
    Goes signalled p' ∧ p'.phase = .idle ∧ p'.policy = Delays.reset p.policy := by
  obtain ⟨n, past, rfl⟩ := start_eq hstart
  exact ⟨⟨_, ⟨rfl, fun _ => rfl⟩, rfl⟩, rfl, rfl⟩

/-- The waits after a setback. -/
theorem waits_setback {signalled : Bool} {origin : π} {m : Moment τ β}
    {later : List (Moment τ β)} (hgoes : Goes signalled p) (horigin : p.policy = origin)
    (hrun : Runs p (past ++ m :: later) q) (hsetback : m.happening.isSetback = true) :
    waits (trace (m :: later)) =
      if isSet signalled past then []
      else [nthDelay (pace origin past).origin (pace origin past).setbacks] := by
  obtain ⟨before, hpast, hlater⟩ := hrun.split
  obtain ⟨t, htells, hset⟩ := hgoes.runs hpast
  have hpaced : Paced (pace origin past) before :=
    hpast.paced hgoes (Or.inr horigin)
  cases hlater with
  | @cons _ after _ h events _ hact hrest =>
    cases h with
    | resumed r =>
      obtain ⟨t', htask, hturn⟩ := turn_of_resume hact
      obtain rfl := Option.some.inj (htells.1.symm.trans htask)
      have hcalm := hturn.setback hsetback
      -- The task takes a turn, so it has not ended and the policy keeps the pace.
      have hpolicy : before.policy = (pace origin past).policy := by
        rcases hpaced with ⟨t', how, htask', hended⟩ | hpolicy
        · obtain rfl := Option.some.inj (htask.symm.trans htask')
          exact absurd hended (hturn.going how)
        · exact hpolicy
      rw [trace, List.flatMap_cons, waits_append hcalm.no_poll, ← trace,
        waits_of_rests hcalm.rests hrest, hcalm.delays, hset, hpolicy, List.append_nil]
      rfl
    | _ => simp [Happening.isSetback] at hsetback

/-- After a success there is no wait; the next poll follows at once, unless the event is
set. -/
theorem waits_success {signalled : Bool} {m : Moment τ β} {later : List (Moment τ β)}
    (hgoes : Goes signalled p) (hrun : Runs p (past ++ m :: later) q)
    (hsuccess : m.happening.isSuccess = true) :
    waits (trace (m :: later)) = [] ∧
      (isSet signalled past = false → ∃ n, m.events = [.reset, .entered .polling, .polled n]) := by
  obtain ⟨before, hpast, hlater⟩ := hrun.split
  obtain ⟨t, htells, hset⟩ := hgoes.runs hpast
  cases hlater with
  | @cons _ after _ h events _ hact hrest =>
    cases h with
    | resumed r =>
      obtain ⟨t', htask, hturn⟩ := turn_of_resume hact
      obtain rfl := Option.some.inj (htells.1.symm.trans htask)
      rw [trace, List.flatMap_cons, ← trace]
      rcases hturn.success hsuccess with ⟨hsignalled, hcalm⟩ | ⟨-, hevents⟩
      · refine ⟨?_, fun hclear => ?_⟩
        · rw [waits_append hcalm.no_poll, waits_of_rests hcalm.rests hrest, hcalm.delays]
          rfl
        · simp [← hset, hsignalled] at hclear
      · dsimp only at hevents
        refine ⟨?_, fun _ => ⟨_, hevents⟩⟩
        rw [hevents]
        rfl
    | _ => simp [Happening.isSuccess] at hsuccess

/-- The first turn and the end of a wait bring a poll, unless the event is set. -/
theorem Turn.next_poll (hturn : Turn p t r turn) (hclear : t.signalled = false)
    (hround : r = .begun ∨ r = .elapsed) : turn.2 = [.entered .polling, .polled t.batch] := by
  have hpoll : (p.nextRound t : Pump π × List (Event τ β)).2 =
      [.entered .polling, .polled t.batch] := by
    rcases nextRound_cases (τ := τ) (β := β) p t with ⟨hset, -⟩ | ⟨-, heq⟩
    · simp [hclear] at hset
    · rw [heq]
  cases hturn with
  | begin => exact hpoll
  | goOn => exact hpoll
  | _ => simp at hround

/-- Whatever a started pump meets with, the handler gets the batches that polls brought, each
once and in order. After a setback the pump waits exactly once before its next poll, unless
the event is set by then, and that for the delay that the policy gives as the next one since
its last reset. After a success the next poll follows without a wait. The phases follow
each other as they may. And a task that is not cancelled goes on with whatever it waits for:
its first turn and the end of a wait bring a poll, unless the event is set. -/
theorem trace_law {p₀ p q : Pump π} {handler : Bool} {batch : Option Int} {signalled : Bool}
    {events : List (Event τ β)} (hstart : p₀.start? handler batch signalled = .ok (p, events))
    {past : List (Moment τ β)} (hrun : Runs p past q) :
    (trace past).filterMap Event.delivery? = past.filterMap (fun m => m.happening.batch?) ∧
    (∀ earlier m later, past = earlier ++ m :: later → m.happening.isSetback = true →
      waits (trace (m :: later)) =
        if isSet signalled earlier then []
        else [nthDelay (pace (Delays.reset p₀.policy) earlier).origin
          (pace (Delays.reset p₀.policy) earlier).setbacks]) ∧
    (∀ earlier m later, past = earlier ++ m :: later → m.happening.isSuccess = true →
      waits (trace (m :: later)) = [] ∧
        (isSet signalled earlier = false →
          ∃ n, m.events = [.reset, .entered .polling, .polled n])) ∧
    (Phase.idle :: (trace past).filterMap Event.phase?).IsChain (fun a b => a.leads b = true) ∧
    (Phase.idle :: (trace past).filterMap Event.phase?).getLast? = some q.phase ∧
    ∀ t, q.task = some t → t.cancelling = false → ∀ r : Resumption β,
      t.position.awaits r = true → ∃ turn : Pump π × List (Event τ β),
        q.resume? r = some turn ∧
          (isSet signalled past = false → r = .begun ∨ r = .elapsed →
            turn.2 = [.entered .polling, .polled t.batch]) := by
  obtain ⟨hgoes, hidle, hpolicy⟩ := start_spec hstart
  obtain ⟨hchain, hlast⟩ := hrun.phases hgoes
  rw [hidle] at hchain hlast
  refine ⟨hrun.deliveries, fun earlier m later hpast hsetback => ?_,
    fun earlier m later hpast hsuccess => ?_, hchain, hlast,
    fun t htask hgoing r hawaits => ?_⟩
  · subst hpast
    exact waits_setback hgoes hpolicy hrun hsetback
  · subst hpast
    exact waits_success hgoes hrun hsuccess
  · obtain ⟨turn, hresume⟩ := resume_of_awaits (π := π) (τ := τ) htask hgoing hawaits
    obtain ⟨t', htask', hturn⟩ := turn_of_resume hresume
    obtain ⟨t'', htells, hset⟩ := hgoes.runs hrun
    obtain rfl := Option.some.inj (htask.symm.trans htask')
    obtain rfl := Option.some.inj (htask.symm.trans htells.1)
    exact ⟨turn, hresume, fun hclear hround => hturn.next_poll (hset.trans hclear) hround⟩

def patient : Pump (Policy Nat) := ⟨"receiver", 1, ⟨1, 4, 2, none⟩, .idle, [], none⟩

def twoSetbacks : List (Moment Nat Nat) :=
  [⟨.resumed .begun, [.entered .polling, .polled 1]⟩,
    ⟨.resumed (.answered .failed), [.counted .error, .entered .backoff, .delayed 1]⟩,
    ⟨.resumed .elapsed, [.entered .polling, .polled 1]⟩,
    ⟨.resumed (.answered (.batch [])), [.counted .empty, .entered .backoff, .delayed 2]⟩]

theorem trace_law_twoSetbacks :
    ∃ p q, patient.start? true none false = .ok (p, [(.reset : Event Nat Nat)]) ∧
      Runs p twoSetbacks q ∧ waits (trace (twoSetbacks.drop 3)) = [2] := by
  have hrun : Runs (β := Nat) { patient with task := some ⟨1, false, false, .beginning⟩ }
      twoSetbacks _ :=
    .cons rfl (.cons rfl (.cons rfl (.cons rfl (.nil _))))
  have hstart : patient.start? true none false =
      .ok ({ patient with task := some ⟨1, false, false, .beginning⟩ },
        [(.reset : Event Nat Nat)]) := rfl
  refine ⟨_, _, hstart, hrun, ?_⟩
  exact (trace_law hstart hrun).2.1 (twoSetbacks.take 3) _ [] rfl rfl

end Depot.Pump
