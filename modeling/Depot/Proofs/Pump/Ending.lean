import Depot.Proofs.Pump.Roster

/-!
How a pump's task comes to its end. A task that has had its first turn leaves the phase at
stopped, whatever ended it, and a cancellation ends a task wherever it waits. Only the first
turn comes too late for a task that is cancelled right after its start: such a task has done
nothing and leaves the phase at idle.
-/
namespace Depot.Pump

variable {π τ β : Type} [Delays π τ]

def Unbegun (p : Pump π) : Prop :=
  p.phase = .idle ∧
    ∃ t, p.task = some t ∧ (t.position = .beginning ∨ t.position = .ended .cancelled)

variable {p p' q : Pump π} {t : Task} {r : Resumption β} {turn : Pump π × List (Event τ β)}
  {h : Happening β} {events : List (Event τ β)} {past : List (Moment τ β)}

/-- Before the first turn there is nothing else that a task could meet with than its end. -/
theorem Turn.unbegun (hturn : Turn p t r turn) (hbeginning : t.position = .beginning)
    (hfirst : r ≠ .begun) (hidle : p.phase = .idle) : Unbegun turn.1 ∧ turn.2 = [] := by
  cases hturn with
  | begin => exact absurd rfl hfirst
  | interrupt =>
    rw [Pump.interrupt, hbeginning]
    exact ⟨⟨hidle, _, rfl, Or.inr rfl⟩, rfl⟩
  | _ hposition => simp [hposition] at hbeginning

theorem Unbegun.act (hunbegun : Unbegun p) (hact : h.act p = some (p', events))
    (hfirst : h ≠ .resumed .begun) : Unbegun p' ∧ events = [] := by
  obtain ⟨hidle, t, htask, hposition⟩ := hunbegun
  cases h with
  | resumed r =>
    obtain ⟨t', htask', hturn⟩ := turn_of_resume hact
    obtain rfl := Option.some.inj (htask.symm.trans htask')
    rcases hposition with hbeginning | hended
    · exact hturn.unbegun hbeginning (fun heq => hfirst (congrArg _ heq)) hidle
    · exact absurd hended (hturn.going .cancelled)
  | _ =>
    obtain ⟨hnone, hkeeps, -, t', htask', -, hsame, hended⟩ :=
      act_of_outside hact (by simp) htask
    refine ⟨⟨hkeeps.trans hidle, t', htask', hposition.imp (fun hbeginning => ?_)
      (hended .cancelled).mpr⟩, hnone⟩
    rw [hbeginning] at hsame
    cases hold : t'.position <;> simp [hold, Position.phase] at hsame ⊢

theorem Unbegun.runs (hunbegun : Unbegun p) (hrun : Runs p past q)
    (hfirst : ∀ m ∈ past, m.happening ≠ .resumed .begun) : Unbegun q ∧ trace past = [] := by
  induction hrun with
  | nil p => exact ⟨hunbegun, rfl⟩
  | cons hact hrest ih =>
    obtain ⟨hnow, hlater⟩ := List.forall_mem_cons.mp hfirst
    obtain ⟨hafter, hnone⟩ := hunbegun.act hact hnow
    obtain ⟨hlast, htrace⟩ := ih hafter hlater
    refine ⟨hlast, ?_⟩
    rw [trace, List.flatMap_cons, ← trace, htrace, List.append_nil]
    exact hnone

omit [Delays π τ] in
theorem running_eq_false_iff (htask : p.task = some t) : p.running = false ↔ Ended p := by
  rw [← Bool.not_eq_true, running, htask, Option.any_some, ending?_isNone]
  push Not
  constructor
  · rintro ⟨how, hhow⟩
    exact ⟨t, how, htask, hhow⟩
  · rintro ⟨t', how, htask', hhow⟩
    obtain rfl := Option.some.inj (htask.symm.trans htask')
    exact ⟨how, hhow⟩

omit [Delays π τ] in
theorem task_cancel (htask : p.task = some t) :
    p.cancel.task = some (if t.position = .wait true then t else { t with cancelling := true }) :=
  task_withTask htask _

/-- A cancellation is what the task meets with next, unless the event has ended its wait. -/
theorem resume_cancel_iff (htask : p.task = some t) (hgoing : ∀ how, t.position ≠ .ended how)
    (hwait : t.position ≠ .wait true) :
    p.cancel.resume? r = some turn ↔
      r = .interrupted ∧ p.cancel.interrupt { t with cancelling := true } = turn := by
  have hcancel := task_cancel htask
  rw [if_neg hwait] at hcancel
  rw [resume?, hcancel, Option.bind_some, if_pos rfl]
  cases hposition : t.position with
  | ended how => exact absurd hposition (hgoing how)
  | _ => cases r <;> simp

omit [Delays π τ] in
/-- An interruption ends the task, and only one before the first turn leaves the phase alone. -/
theorem interrupt_spec (p : Pump π) (t : Task) :
    Ended (p.interrupt t : Pump π × List (Event τ β)).1 ∧
      (p.interrupt t : Pump π × List (Event τ β)).1.phase =
        if t.position = .beginning then p.phase else .stopped := by
  cases hposition : t.position <;> rw [Pump.interrupt, hposition] <;>
    exact ⟨⟨_, .cancelled, rfl, rfl⟩, rfl⟩

/-- Whatever a task that was just cancelled waits for, there is a turn that ends it. -/
theorem ends_after_cancel (htells : Tells p t) (hgoing : ∀ how, t.position ≠ .ended how) :
    ∃ (r : Resumption β) (turn : Pump π × List (Event τ β)), p.cancel.resume? r = some turn ∧
      Ended turn.1 ∧ (turn.1.phase = .stopped ↔ t.position ≠ .beginning) := by
  obtain ⟨htask, hphase⟩ := htells
  by_cases hwait : t.position = .wait true
  · have hcancel := task_cancel htask
    rw [if_pos hwait] at hcancel
    have hnot : t.position ≠ .beginning := by simp [hwait]
    cases hcancelling : t.cancelling with
    | false =>
      refine ⟨.woken, p.cancel.conclude t .finished, ?_, ⟨_, .finished, rfl, rfl⟩,
        iff_of_true rfl hnot⟩
      simp [resume?, hcancel, hcancelling, hwait]
    | true =>
      obtain ⟨hended, hstopped⟩ := interrupt_spec (τ := τ) (β := β) p.cancel t
      refine ⟨.interrupted, p.cancel.interrupt t, ?_, hended, iff_of_true ?_ hnot⟩
      · simp [resume?, hcancel, hcancelling, hwait]
      · rw [hstopped, if_neg hnot]
  · obtain ⟨hended, hstopped⟩ :=
      interrupt_spec (τ := τ) (β := β) p.cancel { t with cancelling := true }
    refine ⟨.interrupted, _, (resume_cancel_iff htask hgoing hwait).mpr ⟨rfl, rfl⟩, hended, ?_⟩
    rw [hstopped]
    by_cases hbeginning : t.position = .beginning
    · have hidle : p.cancel.phase = .idle := by
        change p.phase = _
        rw [hphase hgoing, hbeginning]
        rfl
      rw [if_pos hbeginning, hidle]
      exact iff_of_false (by simp) fun hnot => hnot hbeginning
    · rw [if_neg hbeginning]
      exact iff_of_true rfl hbeginning

/-- When the task of a started pump has ended, the pump is not running. If the task had its
first turn, the phase is stopped, whatever came to end it; if not, the task was cancelled before
it had done anything, and the phase is idle. A cancellation is the only thing that the task can
meet with next, unless the event has ended its wait by then, and in either case there is a turn
that ends the task; the phase is then stopped, unless the first turn was still to come. -/
theorem stopped_after_end {p₀ p q : Pump π} {handler : Bool} {batch : Option Int}
    {signalled : Bool} {events : List (Event τ β)}
    (hstart : p₀.start? handler batch signalled = .ok (p, events))
    {past : List (Moment τ β)} (hrun : Runs p past q) :
    (q.running = false ↔ Ended q) ∧
    (Ended q → (∃ m ∈ past, m.happening = .resumed .begun) → q.phase = .stopped) ∧
    (Ended q → (∀ m ∈ past, m.happening ≠ .resumed .begun) →
      q.phase = .idle ∧ q.endings.getLast? = some (some .cancelled) ∧ trace past = []) ∧
    ∀ t, q.task = some t → (∀ how, t.position ≠ .ended how) →
      (t.position ≠ .wait true → ∀ (r : Resumption β) (turn : Pump π × List (Event τ β)),
        q.cancel.resume? r = some turn → r = .interrupted) ∧
      ∃ (r : Resumption β) (turn : Pump π × List (Event τ β)), q.cancel.resume? r = some turn ∧
        Ended turn.1 ∧ turn.1.running = false ∧
        (turn.1.phase = .stopped ↔ t.position ≠ .beginning) := by
  obtain ⟨hgoes, hidle, -⟩ := start_spec hstart
  obtain ⟨t, htells, -⟩ := hgoes.runs hrun
  refine ⟨running_eq_false_iff htells.1, fun hended hfirst => ?_, fun hended hnever => ?_,
    fun t' htask hgoing => ?_⟩
  · obtain ⟨t', htask', -, hphase⟩ := begun_of_first_turn hrun hfirst
    obtain ⟨t'', how, htask'', hhow⟩ := hended
    obtain rfl := Option.some.inj (htask'.symm.trans htask'')
    rw [hphase, hhow]
    rfl
  · have hunbegun : Unbegun p := by
      obtain ⟨n, tasks, rfl⟩ := start_eq hstart
      exact ⟨rfl, _, rfl, Or.inl rfl⟩
    obtain ⟨⟨hphase, t', htask', hposition⟩, htrace⟩ := hunbegun.runs hrun hnever
    obtain ⟨t'', how, htask'', hhow⟩ := hended
    obtain rfl := Option.some.inj (htask'.symm.trans htask'')
    have hcancelled : t'.position = .ended .cancelled := hposition.resolve_left (by simp [hhow])
    refine ⟨hphase, ?_, htrace⟩
    simp [endings, htask', Task.ending?, hcancelled]
  · obtain rfl := Option.some.inj (htells.1.symm.trans htask)
    refine ⟨fun hwait r turn hresume => ((resume_cancel_iff htask hgoing hwait).mp hresume).1, ?_⟩
    obtain ⟨r, turn, hresume, hended, hstopped⟩ :=
      ends_after_cancel (τ := τ) (β := β) htells hgoing
    obtain ⟨t', how, htask', hhow⟩ := hended
    exact ⟨r, turn, hresume, ⟨t', how, htask', hhow⟩,
      (running_eq_false_iff htask').mpr ⟨t', how, htask', hhow⟩, hstopped⟩

def cancelledAtWork : List (Moment Nat Nat) :=
  [⟨.resumed .begun, [.entered .polling, .polled 1]⟩,
    ⟨.resumed (.answered (.batch [7])), [.counted .messages, .entered .delivering, .delivered [7]]⟩,
    ⟨.cancelling, []⟩, ⟨.resumed .interrupted, [.entered .stopped]⟩]

theorem stopped_after_end_cancelledAtWork :
    ∃ p q, patient.start? true none false = .ok (p, [(.reset : Event Nat Nat)]) ∧
      Runs p cancelledAtWork q ∧ Ended q ∧ q.running = false ∧ q.phase = .stopped := by
  have hstart : patient.start? true none false =
      .ok ({ patient with task := some ⟨1, false, false, .beginning⟩ },
        [(.reset : Event Nat Nat)]) := rfl
  have hrun : Runs (β := Nat) { patient with task := some ⟨1, false, false, .beginning⟩ }
      cancelledAtWork _ :=
    .cons rfl (.cons rfl (.cons rfl (.cons rfl (.nil _))))
  obtain ⟨hrunning, hstopped, -⟩ := stopped_after_end hstart hrun
  refine ⟨_, _, hstart, hrun, ?_, hrunning.mpr ?_, hstopped ?_ ⟨_, List.mem_cons_self, rfl⟩⟩ <;>
    exact ⟨_, .cancelled, rfl, rfl⟩

def cancelledAtOnce : List (Moment Nat Nat) := [⟨.cancelling, []⟩, ⟨.resumed .interrupted, []⟩]

/-- The task has ended, and the phase is not stopped. -/
theorem idle_after_end :
    ∃ p q, patient.start? true none false = .ok (p, [(.reset : Event Nat Nat)]) ∧
      Runs p cancelledAtOnce q ∧ Ended q ∧ q.running = false ∧ q.phase = .idle :=
  ⟨_, _, rfl, .cons rfl (.cons rfl (.nil _)), ⟨_, .cancelled, rfl, rfl⟩, rfl, rfl⟩

end Depot.Pump
