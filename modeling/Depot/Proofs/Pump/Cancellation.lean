import Depot.Proofs.Pump.Trace

/-!
The end of a pump. Once its event is set, and as long as nobody clears it again, no poll
begins and the policy gives no delay; a poll that is under way may still bring a batch, and
that batch is the last one that the handler gets. Without the event, and without a
cancellation of the task or of one of its calls, a pump does not stop.
-/
namespace Depot.Pump

namespace Happening

variable {β : Type}

def clears : Happening β → Bool
  | .cleared => true
  | _ => false

def stops : Happening β → Bool
  | .signalled => true
  | .cancelling => true
  | .resumed (.answered .cancelled) => true
  | .resumed (.handled .cancelled) => true
  | _ => false

end Happening

variable {π τ β : Type} [Delays π τ]

def Mild (events : List (Event τ β)) : Prop := ∀ e ∈ events, e.isPoll = false ∧ e.delay? = none

/-- The event is set. A batch is to come only from a poll that is under way, and the policy
is as it was, or was reset before the end. -/
def Winding (policy : π) (batches : Nat) (p : Pump π) : Prop :=
  ∃ t, p.task = some t ∧ t.signalled = true ∧ (t.position.phase = .polling → 0 < batches) ∧
    (p.policy = policy ∨ p.policy = Delays.reset policy ∧ t.position.phase = .stopped)

/-- The first turn is over, and from then on the position tells the phase. -/
def Begun (p : Pump π) : Prop :=
  ∃ t, p.task = some t ∧ t.position ≠ .beginning ∧ p.phase = t.position.phase

def Ended (p : Pump π) : Prop := ∃ t how, p.task = some t ∧ t.position = .ended how

/-- Nothing has happened yet that may stop the pump. -/
def Lasting (p : Pump π) : Prop :=
  ∃ t, p.task = some t ∧ t.signalled = false ∧ t.cancelling = false ∧ t.position ≠ .wait true ∧
    p.phase = t.position.phase ∧ p.phase ≠ .stopped

variable {p p' q : Pump π} {t : Task} {r : Resumption β} {turn : Pump π × List (Event τ β)}
  {h : Happening β} {events : List (Event τ β)} {past : List (Moment τ β)} {policy : π}
  {batches : Nat}

omit [Delays π τ] in
theorem nextRound_of_set (p : Pump π) (hset : t.signalled = true) :
    (p.nextRound t : Pump π × List (Event τ β)) = p.conclude t .finished := by
  rw [nextRound, if_pos hset]

theorem backOff_of_set (p : Pump π) (hset : t.signalled = true) :
    (p.backOff t : Pump π × List (Event τ β)) = p.conclude t .finished := by
  rw [backOff, if_pos hset]

omit [Delays π τ] in
theorem mild_conclude (p : Pump π) (t : Task) (how : Ending) :
    Mild (p.conclude t how : Pump π × List (Event τ β)).2 := by
  simp [Mild, conclude, Event.isPoll, Event.delay?]

omit [Delays π τ] in
theorem Mild.noting {note : Event τ β} (hmild : Mild turn.2) (hpoll : note.isPoll = false)
    (hdelay : note.delay? = none) : Mild (noting note turn).2 :=
  List.forall_mem_cons.mpr ⟨⟨hpoll, hdelay⟩, hmild⟩

/-- With the event set, a turn hands over the batch that a poll brought, or ends the task. -/
theorem Turn.winds (hturn : Turn p t r turn) (hset : t.signalled = true) :
    Mild turn.2 ∧
      (t.position = .poll ∧ (∃ messages, (Happening.resumed r).batch? = some messages) ∧
          turn.1.task = some { t with position := .handler } ∧ turn.1.policy = p.policy ∨
        (Happening.resumed r).batch? = none ∧
          (∃ how, turn.1.task = some { t with position := .ended how }) ∧
          (turn.1.policy = p.policy ∨ turn.1.policy = Delays.reset p.policy)) := by
  cases hturn with
  | begin =>
    rw [nextRound_of_set p hset]
    exact ⟨mild_conclude p t _, Or.inr ⟨rfl, ⟨_, rfl⟩, Or.inl rfl⟩⟩
  | goOn =>
    rw [nextRound_of_set p hset]
    exact ⟨mild_conclude p t _, Or.inr ⟨rfl, ⟨_, rfl⟩, Or.inl rfl⟩⟩
  | succeed =>
    rw [nextRound_of_set _ hset]
    exact ⟨(mild_conclude _ t _).noting rfl rfl, Or.inr ⟨rfl, ⟨_, rfl⟩, Or.inr rfl⟩⟩
  | missed =>
    rw [backOff_of_set p hset]
    exact ⟨(mild_conclude p t _).noting rfl rfl, Or.inr ⟨rfl, ⟨_, rfl⟩, Or.inl rfl⟩⟩
  | unanswered =>
    rw [backOff_of_set p hset]
    exact ⟨(mild_conclude p t _).noting rfl rfl, Or.inr ⟨rfl, ⟨_, rfl⟩, Or.inl rfl⟩⟩
  | fail =>
    rw [backOff_of_set p hset]
    exact ⟨mild_conclude p t _, Or.inr ⟨rfl, ⟨_, rfl⟩, Or.inl rfl⟩⟩
  | found hposition m rest =>
    refine ⟨?_, Or.inl ⟨hposition, ⟨_, rfl⟩, rfl, rfl⟩⟩
    simp [Mild, noting, deliver, Event.isPoll, Event.delay?]
  | interrupt =>
    unfold Pump.interrupt
    split
    · exact ⟨by simp [Mild], Or.inr ⟨rfl, ⟨_, rfl⟩, Or.inl rfl⟩⟩
    · exact ⟨mild_conclude p t _, Or.inr ⟨rfl, ⟨_, rfl⟩, Or.inl rfl⟩⟩
  | _ => exact ⟨mild_conclude p t _, Or.inr ⟨rfl, ⟨_, rfl⟩, Or.inl rfl⟩⟩

omit [Delays π τ] in
theorem phase_of_going (hgoing : ∀ how, t.position ≠ .ended how) : t.position.phase ≠ .stopped := by
  cases hposition : t.position with
  | ended how => exact absurd hposition (hgoing how)
  | _ => simp [Position.phase]

theorem Winding.act (hwinding : Winding policy batches p) (hact : h.act p = some (p', events))
    (hkept : h.clears = false) :
    Mild events ∧ h.batch?.toList.length ≤ batches ∧
      Winding policy (batches - h.batch?.toList.length) p' := by
  obtain ⟨t, htask, hset, hpoll, hpolicy⟩ := hwinding
  cases h with
  | resumed r =>
    obtain ⟨t', htask', hturn⟩ := turn_of_resume hact
    obtain rfl := Option.some.inj (htask.symm.trans htask')
    -- A task that takes a turn has not ended, so the policy was not reset yet.
    have hsame : p.policy = policy :=
      hpolicy.resolve_right fun hreset => phase_of_going hturn.going hreset.2
    obtain ⟨hmild, ⟨hposition, ⟨messages, hbatch⟩, hafter, hkeeps⟩
        | ⟨hbatch, ⟨how, hafter⟩, hkeeps⟩⟩ :=
      hturn.winds hset
    · have hpos : 0 < batches := hpoll (by rw [hposition]; rfl)
      rw [hbatch]
      refine ⟨hmild, hpos, _, hafter, hset, ?_, Or.inl (hkeeps.trans hsame)⟩
      simp [Position.phase]
    · rw [hbatch, ← hsame]
      refine ⟨hmild, Nat.zero_le _, _, hafter, hset, ?_, ?_⟩
      · simp [Position.phase]
      · exact hkeeps.imp_right fun hreset => ⟨hreset, rfl⟩
  | cleared => simp [Happening.clears] at hkept
  | _ =>
    obtain ⟨rfl, -, hkeeps, t', htask', hset', hphase, -⟩ := act_of_outside hact (by simp) htask
    refine ⟨by simp [Mild], Nat.zero_le _, t', htask', ?_, ?_, ?_⟩
    · rw [hset', hset]
      rfl
    · rw [hphase]
      exact hpoll
    · rw [hkeeps, hphase]
      exact hpolicy

/-- A pump whose event stays set begins nothing any more; it only hands over the batch of a
poll that was under way. -/
theorem Winding.runs (hwinding : Winding policy batches p) (hrun : Runs p past q)
    (hkept : ∀ m ∈ past, m.happening.clears = false) :
    Mild (trace past) ∧ (past.filterMap fun m => m.happening.batch?).length ≤ batches ∧
      (q.policy = policy ∨ q.policy = Delays.reset policy) := by
  induction hrun generalizing batches with
  | nil p =>
    obtain ⟨t, -, -, -, hpolicy⟩ := hwinding
    exact ⟨by simp [Mild, trace], Nat.zero_le _, hpolicy.imp_right And.left⟩
  | @cons p p' q h events rest hact hrest ih =>
    obtain ⟨hfirst, hkept⟩ := List.forall_mem_cons.mp hkept
    obtain ⟨hmild, hbatch, hafter⟩ := hwinding.act hact hfirst
    obtain ⟨hlater, hlength, hpolicy⟩ := ih hafter hkept
    refine ⟨?_, ?_, hpolicy⟩
    · rw [trace, List.flatMap_cons, ← trace]
      exact List.forall_mem_append.mpr ⟨hmild, hlater⟩
    · have hsplit : ((⟨h, events⟩ :: rest : List (Moment τ β)).filterMap fun m =>
        m.happening.batch?) =
          h.batch?.toList ++ rest.filterMap fun m => m.happening.batch? := by
        cases hfound : h.batch? <;> simp [hfound]
      rw [hsplit, List.length_append]
      omega

omit [Delays π τ] in
theorem begun_conclude (p : Pump π) (t : Task) (how : Ending) :
    Begun (p.conclude t how : Pump π × List (Event τ β)).1 :=
  ⟨_, rfl, by simp, rfl⟩

omit [Delays π τ] in
theorem begun_nextRound (p : Pump π) (t : Task) :
    Begun (p.nextRound t : Pump π × List (Event τ β)).1 := by
  rcases nextRound_cases (τ := τ) (β := β) p t with ⟨-, heq⟩ | ⟨-, heq⟩
  · rw [heq]
    exact begun_conclude p t .finished
  · rw [heq]
    exact ⟨_, rfl, by simp, rfl⟩

theorem begun_backOff (p : Pump π) (t : Task) :
    Begun (p.backOff t : Pump π × List (Event τ β)).1 := by
  rcases backOff_cases (τ := τ) (β := β) p t with ⟨-, heq⟩ | ⟨-, heq⟩
  · rw [heq]
    exact begun_conclude p t .finished
  · rw [heq]
    exact ⟨_, rfl, by simp, rfl⟩

/-- Only a task that is cancelled before its first turn ends without its phase. -/
theorem Turn.begun (hturn : Turn p t r turn) (hfirst : r = .begun ∨ t.position ≠ .beginning) :
    Begun turn.1 := by
  cases hturn with
  | begin => exact begun_nextRound p t
  | succeed => exact begun_nextRound _ t
  | goOn => exact begun_nextRound p t
  | missed => exact begun_backOff p t
  | unanswered => exact begun_backOff p t
  | fail => exact begun_backOff p t
  | found => exact ⟨_, rfl, by simp, rfl⟩
  | interrupt =>
    have hposition : t.position ≠ .beginning := hfirst.resolve_left (by simp)
    unfold Pump.interrupt
    split
    · rename_i hbeginning
      exact absurd hbeginning hposition
    · exact begun_conclude p t .cancelled
  | _ => exact begun_conclude p t _

theorem Begun.act (hbegun : Begun p) (hact : h.act p = some (p', events)) : Begun p' := by
  obtain ⟨t, htask, hposition, hphase⟩ := hbegun
  cases h with
  | resumed r =>
    obtain ⟨t', htask', hturn⟩ := turn_of_resume hact
    obtain rfl := Option.some.inj (htask.symm.trans htask')
    exact hturn.begun (Or.inr hposition)
  | _ =>
    obtain ⟨-, hkeeps, -, t', htask', -, hsame, -⟩ := act_of_outside hact (by simp) htask
    refine ⟨t', htask', fun hbeginning => hposition ?_, by rw [hkeeps, hsame, hphase]⟩
    rw [hbeginning] at hsame
    cases hold : t.position <;> simp [hold, Position.phase] at hsame ⊢

theorem Begun.runs (hbegun : Begun p) (hrun : Runs p past q) : Begun q := by
  induction hrun with
  | nil p => exact hbegun
  | cons hact hrest ih => exact ih (hbegun.act hact)

theorem begun_of_first_turn (hrun : Runs p past q)
    (hfirst : ∃ m ∈ past, m.happening = .resumed .begun) : Begun q := by
  obtain ⟨m, hm, hbegun⟩ := hfirst
  obtain ⟨earlier, later, rfl⟩ := List.append_of_mem hm
  obtain ⟨before, -, hlater⟩ := hrun.split
  cases hlater with
  | cons hact hrest =>
    obtain rfl := hbegun
    obtain ⟨t, htask, hturn⟩ := turn_of_resume hact
    exact (hturn.begun (Or.inl rfl)).runs hrest

/-- A task that has ended takes no turn, and the phase is what it was. -/
theorem Ended.runs (hended : Ended p) (hrun : Runs p past q) :
    Ended q ∧ trace past = [] ∧ q.phase = p.phase := by
  induction hrun with
  | nil p => exact ⟨hended, rfl, rfl⟩
  | @cons p p' q h events rest hact hrest ih =>
    obtain ⟨t, how, htask, hhow⟩ := hended
    have hafter : events = [] ∧ p'.phase = p.phase ∧ Ended p' := by
      cases h with
      | resumed r =>
        obtain ⟨t', htask', hturn⟩ := turn_of_resume hact
        obtain rfl := Option.some.inj (htask.symm.trans htask')
        exact absurd hhow (hturn.going how)
      | _ =>
        obtain ⟨hnone, hkeeps, -, t', htask', -, -, hsame⟩ := act_of_outside hact (by simp) htask
        exact ⟨hnone, hkeeps, t', how, htask', (hsame how).mpr hhow⟩
    obtain ⟨hnone, hkeeps, hended'⟩ := hafter
    obtain ⟨hlast, htrace, hphase⟩ := ih hended'
    refine ⟨hlast, ?_, hphase.trans hkeeps⟩
    rw [trace, List.flatMap_cons, ← trace, htrace, List.append_nil]
    exact hnone

theorem cancelling_of_interrupted (htask : p.task = some t)
    (hresume : p.resume? (.interrupted : Resumption β) = some turn) : t.cancelling = true := by
  by_contra hgoing
  simp only [resume?, htask, Option.bind_some, if_neg hgoing] at hresume
  split at hresume <;> simp_all

omit [Delays π τ] in
theorem lasting_nextRound (p : Pump π) (hset : t.signalled = false)
    (hgoing : t.cancelling = false) :
    Lasting (p.nextRound t : Pump π × List (Event τ β)).1 := by
  rcases nextRound_cases (τ := τ) (β := β) p t with ⟨hsignalled, -⟩ | ⟨-, heq⟩
  · simp [hset] at hsignalled
  · rw [heq]
    exact ⟨_, rfl, hset, hgoing, by simp, rfl, by simp [enter]⟩

theorem lasting_backOff (p : Pump π) (hset : t.signalled = false)
    (hgoing : t.cancelling = false) :
    Lasting (p.backOff t : Pump π × List (Event τ β)).1 := by
  rcases backOff_cases (τ := τ) (β := β) p t with ⟨hsignalled, -⟩ | ⟨-, heq⟩
  · simp [hset] at hsignalled
  · rw [heq]
    exact ⟨_, rfl, hset, hgoing, by simp, rfl, by simp [enter]⟩

theorem Turn.lasting (hturn : Turn p t r turn) (hset : t.signalled = false)
    (hgoing : t.cancelling = false) (hposition : t.position ≠ .wait true)
    (hstops : (Happening.resumed r).stops = false) (hturned : r ≠ .interrupted) :
    Lasting turn.1 := by
  cases hturn with
  | begin => exact lasting_nextRound p hset hgoing
  | succeed => exact lasting_nextRound _ hset hgoing
  | goOn => exact lasting_nextRound p hset hgoing
  | missed => exact lasting_backOff p hset hgoing
  | unanswered => exact lasting_backOff p hset hgoing
  | fail => exact lasting_backOff p hset hgoing
  | found => exact ⟨_, rfl, hset, hgoing, by simp, rfl, by simp [noting, deliver, enter]⟩
  | wake hwoken => exact absurd hwoken hposition
  | pollCancelled => simp [Happening.stops] at hstops
  | handlerCancelled => simp [Happening.stops] at hstops
  | interrupt => exact absurd rfl hturned

theorem Lasting.act (hlasting : Lasting p) (hact : h.act p = some (p', events))
    (hstops : h.stops = false) : Lasting p' := by
  obtain ⟨t, htask, hset, hgoing, hposition, hphase, hopen⟩ := hlasting
  cases h with
  | signalled => simp [Happening.stops] at hstops
  | cancelling => simp [Happening.stops] at hstops
  | cleared =>
    obtain ⟨rfl, -⟩ := Prod.mk.inj (Option.some.inj hact)
    exact ⟨_, task_withTask htask _, rfl, hgoing, hposition, hphase, hopen⟩
  | resumed r =>
    obtain ⟨t', htask', hturn⟩ := turn_of_resume hact
    obtain rfl := Option.some.inj (htask.symm.trans htask')
    refine hturn.lasting hset hgoing hposition hstops ?_
    rintro rfl
    have hcancelling := cancelling_of_interrupted htask hact
    simp [hgoing] at hcancelling

theorem Lasting.runs (hlasting : Lasting p) (hrun : Runs p past q)
    (hstops : ∀ m ∈ past, m.happening.stops = false) : Lasting q := by
  induction hrun with
  | nil p => exact hlasting
  | cons hact hrest ih =>
    obtain ⟨hfirst, hstops⟩ := List.forall_mem_cons.mp hstops
    exact ih (hlasting.act hact hfirst) hstops

/-- When the event of a pump is set, wherever the pump is then, and nobody clears it, no poll
begins after that and no delay is taken from the policy. A poll that is under way can still
come back, and a batch that it brings goes to the handler, once; there is no other. A task
that has had its first turn leaves the phase at stopped when it ends, and after the end
nothing more happens. And as long as the event was not set and nothing was cancelled, the
phase is never stopped. -/
theorem cancellation_safe {p₀ p : Pump π} {handler : Bool} {batch : Option Int} {signalled : Bool}
    {events : List (Event τ β)} (hstart : p₀.start? handler batch signalled = .ok (p, events)) :
    (∀ (past : List (Moment τ β)) here, Runs p past here → isSet signalled past = true →
      (∀ t, here.task = some t → t.position = .poll → t.cancelling = false →
        ∀ answer : Poll β, ∃ turn : Pump π × List (Event τ β),
          here.resume? (.answered answer) = some turn) ∧
      ∀ (later : List (Moment τ β)) q, Runs here later q →
        (∀ m ∈ later, m.happening.clears = false) →
        (∀ e ∈ trace later, e.isPoll = false ∧ e.delay? = none) ∧
        (q.policy = here.policy ∨ q.policy = Delays.reset here.policy) ∧
        (trace later).filterMap Event.delivery? =
          later.filterMap (fun m => m.happening.batch?) ∧
        (later.filterMap fun m => m.happening.batch?).length ≤
          if here.phase = .polling then 1 else 0) ∧
    (∀ (past : List (Moment τ β)) here, Runs p past here → Ended here →
      (∃ m ∈ past, m.happening = .resumed .begun) →
      ∀ (later : List (Moment τ β)) q, Runs here later q → q.phase = .stopped ∧ trace later = []) ∧
    ∀ (past : List (Moment τ β)) q, Runs p past q → signalled = false →
      (∀ m ∈ past, m.happening.stops = false) → q.phase ≠ .stopped := by
  obtain ⟨hgoes, hidle, -⟩ := start_spec hstart
  refine ⟨fun past here hpast hset => ⟨fun t htask hpoll hgoing answer => ?_,
    fun later q hlater hkept => ?_⟩, fun past here hpast hended hfirst later q hlater => ?_,
    fun past q hrun hclear hstops => ?_⟩
  · exact resume_of_awaits htask hgoing (by rw [hpoll]; rfl)
  · obtain ⟨t, htells, hsignalled⟩ := hgoes.runs hpast
    have hpolling : t.position.phase = .polling → here.phase = .polling := by
      intro hphase
      rw [htells.2 fun how hended => by simp [hended, Position.phase] at hphase]
      exact hphase
    have hwinding : Winding here.policy (if here.phase = .polling then 1 else 0) here := by
      refine ⟨t, htells.1, hsignalled.trans hset, fun hphase => ?_, Or.inl rfl⟩
      rw [if_pos (hpolling hphase)]
      exact Nat.one_pos
    obtain ⟨hmild, hlength, hpolicy⟩ := hwinding.runs hlater hkept
    exact ⟨hmild, hpolicy, hlater.deliveries, hlength⟩
  · obtain ⟨t, htask, -, hphase⟩ := begun_of_first_turn hpast hfirst
    obtain ⟨t', how, htask', hhow⟩ := hended
    obtain rfl := Option.some.inj (htask.symm.trans htask')
    obtain ⟨-, htrace, hsame⟩ := Ended.runs ⟨t, how, htask, hhow⟩ hlater
    refine ⟨?_, htrace⟩
    rw [hsame, hphase, hhow]
    rfl
  · have hlasting : Lasting p := by
      obtain ⟨n, tasks, rfl⟩ := start_eq hstart
      exact ⟨_, rfl, hclear, rfl, by simp, rfl, by simp⟩
    obtain ⟨t, -, -, -, -, -, hopen⟩ := hlasting.runs hrun hstops
    exact hopen

def setWhilePolling : List (Moment Nat Nat) :=
  [⟨.resumed .begun, [.entered .polling, .polled 1]⟩, ⟨.signalled, []⟩]

def lastBatch : List (Moment Nat Nat) :=
  [⟨.resumed (.answered (.batch [7])),
      [.counted .messages, .entered .delivering, .delivered [7]]⟩,
    ⟨.resumed (.handled .done), [.reset, .entered .stopped]⟩]

theorem cancellation_safe_lastBatch :
    ∃ p here q, patient.start? true none false = .ok (p, [(.reset : Event Nat Nat)]) ∧
      Runs p setWhilePolling here ∧ isSet false setWhilePolling = true ∧
      Runs here lastBatch q ∧ (∀ m ∈ lastBatch, m.happening.clears = false) ∧
      (∀ e ∈ trace lastBatch, e.isPoll = false ∧ e.delay? = none) ∧
      (trace lastBatch).filterMap Event.delivery? = [[7]] ∧ q.phase = .stopped := by
  have hstart : patient.start? true none false =
      .ok ({ patient with task := some ⟨1, false, false, .beginning⟩ },
        [(.reset : Event Nat Nat)]) := rfl
  have hpast : Runs (β := Nat) { patient with task := some ⟨1, false, false, .beginning⟩ }
      setWhilePolling
      { patient with phase := .polling, task := some ⟨1, true, false, .poll⟩ } :=
    .cons rfl (.cons rfl (.nil _))
  have hlater : Runs (β := Nat)
      { patient with phase := .polling, task := some ⟨1, true, false, .poll⟩ } lastBatch _ :=
    .cons rfl (.cons rfl (.nil _))
  have hkept : ∀ m ∈ lastBatch, m.happening.clears = false := by
    simp [lastBatch, Happening.clears]
  obtain ⟨hset, hended, -⟩ := cancellation_safe hstart
  obtain ⟨hmild, -, hdeliveries, -⟩ := (hset setWhilePolling _ hpast rfl).2 lastBatch _ hlater hkept
  have hwhole : Runs (β := Nat) { patient with task := some ⟨1, false, false, .beginning⟩ }
      (setWhilePolling ++ lastBatch) _ := .cons rfl (.cons rfl hlater)
  have hphase := hended _ _ hwhole ⟨_, .finished, rfl, rfl⟩
    ⟨_, List.mem_cons_self, rfl⟩ [] _ (.nil _)
  exact ⟨_, _, _, hstart, hpast, rfl, hlater, hkept, hmild, hdeliveries, hphase.1⟩

def clearedInTime : List (Moment Nat Nat) :=
  [⟨.cleared, []⟩,
    ⟨.resumed (.answered (.batch [])), [.counted .empty, .entered .backoff, .delayed 1]⟩,
    ⟨.resumed .elapsed, [.entered .polling, .polled 1]⟩]

def cancelledUnbegun : List (Moment Nat Nat) :=
  [⟨.signalled, []⟩, ⟨.cancelling, []⟩, ⟨.resumed .interrupted, []⟩]

/-- A pump goes on when its event is cleared in time, and a task that is cancelled before its
first turn leaves the phase at idle. -/
theorem event_set_in_vain :
    (∃ p here q, patient.start? true none false = .ok (p, [(.reset : Event Nat Nat)]) ∧
      Runs p setWhilePolling here ∧ isSet false setWhilePolling = true ∧
      Runs here clearedInTime q ∧ (trace clearedInTime).filterMap Event.delay? = [1] ∧
      ∃ e ∈ trace clearedInTime, e.isPoll = true) ∧
    ∃ p q, patient.start? true none false = .ok (p, [(.reset : Event Nat Nat)]) ∧
      Runs p cancelledUnbegun q ∧ isSet false cancelledUnbegun = true ∧ Ended q ∧
      q.phase = .idle :=
  ⟨⟨_, _, _, rfl, .cons rfl (.cons rfl (.nil _)), rfl,
      .cons rfl (.cons rfl (.cons rfl (.nil _))), rfl, .polled 1, by simp [trace, clearedInTime],
      rfl⟩,
    ⟨_, _, rfl, .cons rfl (.cons rfl (.cons rfl (.nil _))), rfl, ⟨_, .cancelled, rfl, rfl⟩, rfl⟩⟩

end Depot.Pump
