import Depot.Pump.Turn

/-!
Runs of a pump: what comes from outside and the turns of its task, one after another, each
with what the pump does then. A turn is of one of a few kinds, which are all that a pump
can do.
-/
namespace Depot.Pump

inductive Happening (β : Type)
  | signalled
  | cleared
  | cancelling
  | resumed (r : Resumption β)

structure Moment (τ β : Type) where
  happening : Happening β
  events : List (Event τ β)

variable {π τ β : Type} [Delays π τ]

namespace Happening

def act (p : Pump π) : Happening β → Option (Pump π × List (Event τ β))
  | .signalled => some (p.signal, [])
  | .cleared => some (p.unsignal, [])
  | .cancelling => some (p.cancel, [])
  | .resumed r => p.resume? r

def sets (before : Bool) : Happening β → Bool
  | .signalled => true
  | .cleared => false
  | _ => before

end Happening

inductive Runs : Pump π → List (Moment τ β) → Pump π → Prop
  | nil (p : Pump π) : Runs p [] p
  | cons {p p' q : Pump π} {h : Happening β} {events : List (Event τ β)}
      {rest : List (Moment τ β)} (hact : h.act p = some (p', events)) (hrest : Runs p' rest q) :
      Runs p (⟨h, events⟩ :: rest) q

/-- The turns that a task can take, and what each comes to. -/
inductive Turn (p : Pump π) (t : Task) : Resumption β → Pump π × List (Event τ β) → Prop
  | begin (h : t.position = .beginning) : Turn p t .begun (p.nextRound t)
  | found (h : t.position = .poll) (m : β) (rest : List β) :
      Turn p t (.answered (.batch (m :: rest)))
        (noting (.counted .messages) (p.deliver t (m :: rest)))
  | missed (h : t.position = .poll) :
      Turn p t (.answered (.batch [])) (noting (.counted .empty) (p.backOff t))
  | unanswered (h : t.position = .poll) :
      Turn p t (.answered .failed) (noting (.counted .error) (p.backOff t))
  | succeed (h : t.position = .handler) :
      Turn p t (.handled .done)
        (noting .reset ({ p with policy := Delays.reset p.policy }.nextRound t))
  | fail (h : t.position = .handler) : Turn p t (.handled .failed) (p.backOff t)
  | goOn {woken : Bool} (h : t.position = .wait woken) : Turn p t .elapsed (p.nextRound t)
  | wake (h : t.position = .wait true) : Turn p t .woken (p.conclude t .finished)
  | pollCancelled (h : t.position = .poll) :
      Turn p t (.answered .cancelled) (p.conclude t .cancelled)
  | handlerCancelled (h : t.position = .handler) :
      Turn p t (.handled .cancelled) (p.conclude t .cancelled)
  | interrupt (h : ∀ how, t.position ≠ .ended how) : Turn p t .interrupted (p.interrupt t)

def Position.phase : Position → Phase
  | .beginning => .idle
  | .poll => .polling
  | .handler => .delivering
  | .wait _ => .backoff
  | .ended _ => .stopped

def Position.awaits : Position → Resumption β → Bool
  | .beginning, .begun => true
  | .poll, .answered _ => true
  | .handler, .handled _ => true
  | .wait _, .elapsed => true
  | .wait true, .woken => true
  | _, _ => false

def Tells (p : Pump π) (t : Task) : Prop :=
  p.task = some t ∧ ((∀ how, t.position ≠ .ended how) → p.phase = t.position.phase)

def isSet (before : Bool) (past : List (Moment τ β)) : Bool :=
  past.foldl (fun set m => m.happening.sets set) before

variable {p p' q : Pump π} {t : Task} {r : Resumption β} {turn : Pump π × List (Event τ β)}
  {h : Happening β} {events : List (Event τ β)} {past past' : List (Moment τ β)}

/-- Every turn is one of the kinds. -/
theorem turn_of_resume (hresume : p.resume? r = some turn) :
    ∃ t, p.task = some t ∧ Turn p t r turn := by
  obtain ⟨t, htask, hturn⟩ := Option.bind_eq_some_iff.mp hresume
  refine ⟨t, htask, ?_⟩
  split at hturn
  · split at hturn
    · cases hturn
    · rename_i hgoing
      obtain rfl := Option.some.inj hturn
      exact .interrupt hgoing
    · cases hturn
  · split at hturn
    · rename_i hposition
      obtain rfl := Option.some.inj hturn
      exact .begin hposition
    · rename_i poll hposition
      obtain rfl := Option.some.inj hturn
      cases poll with
      | batch messages =>
        cases messages with
        | nil => exact .missed hposition
        | cons m rest => exact .found hposition m rest
      | failed => exact .unanswered hposition
      | cancelled => exact .pollCancelled hposition
    · rename_i how hposition
      obtain rfl := Option.some.inj hturn
      cases how with
      | done => exact .succeed hposition
      | failed => exact .fail hposition
      | cancelled => exact .handlerCancelled hposition
    · rename_i hposition
      obtain rfl := Option.some.inj hturn
      exact .goOn hposition
    · rename_i hposition
      obtain rfl := Option.some.inj hturn
      exact .wake hposition
    · cases hturn

omit [Delays π τ] in
theorem nextRound_cases (p : Pump π) (t : Task) :
    (t.signalled = true ∧ (p.nextRound t : Pump π × List (Event τ β)) = p.conclude t .finished) ∨
      (t.signalled = false ∧ (p.nextRound t : Pump π × List (Event τ β)) =
        (p.enter t .polling .poll, [.entered .polling, .polled t.batch])) := by
  unfold nextRound
  cases t.signalled with
  | true => exact Or.inl ⟨rfl, rfl⟩
  | false => exact Or.inr ⟨rfl, rfl⟩

theorem backOff_cases (p : Pump π) (t : Task) :
    (t.signalled = true ∧ (p.backOff t : Pump π × List (Event τ β)) = p.conclude t .finished) ∨
      (t.signalled = false ∧ (p.backOff t : Pump π × List (Event τ β)) =
        ({ p.enter t .backoff (.wait false) with policy := (Delays.advance p.policy).2 },
          [.entered .backoff, .delayed (Delays.advance p.policy).1])) := by
  unfold backOff
  cases t.signalled with
  | true => exact Or.inl ⟨rfl, rfl⟩
  | false => exact Or.inr ⟨rfl, rfl⟩

/-- A task takes a turn with whatever it waits for. -/
theorem resume_of_awaits (htask : p.task = some t) (hgoing : t.cancelling = false)
    (hawaits : t.position.awaits r = true) : ∃ turn, p.resume? r = some turn := by
  unfold Position.awaits at hawaits
  split at hawaits
  · rename_i hposition
    exact ⟨p.nextRound t, by simp [resume?, htask, hgoing, hposition]⟩
  · rename_i poll hposition
    exact ⟨p.answered t poll, by simp [resume?, htask, hgoing, hposition]⟩
  · rename_i how hposition
    exact ⟨p.handled t how, by simp [resume?, htask, hgoing, hposition]⟩
  · rename_i hposition
    exact ⟨p.nextRound t, by simp [resume?, htask, hgoing, hposition]⟩
  · rename_i hposition
    exact ⟨p.conclude t .finished, by simp [resume?, htask, hgoing, hposition]⟩
  · cases hawaits

/-- A turn is taken from a position that is not an end. -/
theorem Turn.going (hturn : Turn p t r turn) : ∀ how, t.position ≠ .ended how := by
  intro how
  cases hturn with
  | interrupt hgoing => exact hgoing how
  | _ hposition => simp [hposition]

/-- The newest task is one for which the event is set or not. -/
def Goes (signalled : Bool) (p : Pump π) : Prop := ∃ t, Tells p t ∧ t.signalled = signalled

omit [Delays π τ] in
theorem goes_nextRound (p : Pump π) (t : Task) :
    Goes t.signalled (p.nextRound t : Pump π × List (Event τ β)).1 := by
  rcases nextRound_cases (τ := τ) (β := β) p t with ⟨-, heq⟩ | ⟨-, heq⟩
  · rw [heq]
    exact ⟨_, ⟨rfl, fun _ => rfl⟩, rfl⟩
  · rw [heq]
    exact ⟨_, ⟨rfl, fun _ => rfl⟩, rfl⟩

theorem goes_backOff (p : Pump π) (t : Task) :
    Goes t.signalled (p.backOff t : Pump π × List (Event τ β)).1 := by
  rcases backOff_cases (τ := τ) (β := β) p t with ⟨-, heq⟩ | ⟨-, heq⟩
  · rw [heq]
    exact ⟨_, ⟨rfl, fun _ => rfl⟩, rfl⟩
  · rw [heq]
    exact ⟨_, ⟨rfl, fun _ => rfl⟩, rfl⟩

theorem Turn.goes (hturn : Turn p t r turn) : Goes t.signalled turn.1 := by
  cases hturn with
  | begin => exact goes_nextRound p t
  | succeed => exact goes_nextRound _ t
  | goOn => exact goes_nextRound p t
  | missed => exact goes_backOff p t
  | unanswered => exact goes_backOff p t
  | fail => exact goes_backOff p t
  | interrupt hgoing =>
    unfold Pump.interrupt
    split
    · exact ⟨_, ⟨rfl, fun hgoing => absurd rfl (hgoing _)⟩, rfl⟩
    · exact ⟨_, ⟨rfl, fun _ => rfl⟩, rfl⟩
  | _ => exact ⟨_, ⟨rfl, fun _ => rfl⟩, rfl⟩

omit [Delays π τ] in
theorem task_withTask (htask : p.task = some t) (f : Task → Task) :
    (p.withTask f).task = some (f t) := by
  rw [withTask, htask]
  rfl

/-- What comes from outside changes neither the phase nor the policy. -/
theorem act_of_outside (hact : h.act p = some (p', events)) (houtside : ∀ r, h ≠ .resumed r)
    (htask : p.task = some t) :
    events = [] ∧ p'.phase = p.phase ∧ p'.policy = p.policy ∧ ∃ t', p'.task = some t' ∧
      t'.signalled = h.sets t.signalled ∧ t'.position.phase = t.position.phase ∧
      ∀ how, t'.position = .ended how ↔ t.position = .ended how := by
  cases h with
  | signalled =>
    obtain ⟨rfl, rfl⟩ := Prod.mk.inj (Option.some.inj hact)
    refine ⟨rfl, rfl, rfl, _, task_withTask htask _, rfl, ?_, fun how => ?_⟩
    · cases t.position <;> rfl
    · cases t.position <;> simp
  | cleared =>
    obtain ⟨rfl, rfl⟩ := Prod.mk.inj (Option.some.inj hact)
    exact ⟨rfl, rfl, rfl, _, task_withTask htask _, rfl, rfl, fun _ => Iff.rfl⟩
  | cancelling =>
    obtain ⟨rfl, rfl⟩ := Prod.mk.inj (Option.some.inj hact)
    refine ⟨rfl, rfl, rfl, _, task_withTask htask _, ?_⟩
    split
    · exact ⟨rfl, rfl, fun _ => Iff.rfl⟩
    · exact ⟨rfl, rfl, fun _ => Iff.rfl⟩
  | resumed r => exact absurd rfl (houtside r)

theorem Tells.act (htells : Tells p t) (hact : h.act p = some (p', events)) :
    Goes (h.sets t.signalled) p' := by
  cases h with
  | resumed r =>
    obtain ⟨t', htask, hturn⟩ := turn_of_resume hact
    obtain rfl := Option.some.inj (htells.1.symm.trans htask)
    exact hturn.goes
  | _ =>
    obtain ⟨-, hphase, -, t', htask, hset, hposition, hended⟩ :=
      act_of_outside hact (by simp) htells.1
    refine ⟨t', ⟨htask, fun hgoing => ?_⟩, hset⟩
    rw [hphase, hposition]
    exact htells.2 fun how hhow => hgoing how ((hended how).mpr hhow)

theorem Goes.runs {signalled : Bool} (hgoes : Goes signalled p) (hrun : Runs p past q) :
    Goes (isSet signalled past) q := by
  induction hrun generalizing signalled with
  | nil p => exact hgoes
  | cons hact hrest ih =>
    obtain ⟨t, htells, rfl⟩ := hgoes
    exact ih (htells.act hact)

/-- A run has a state at each of its moments. -/
theorem Runs.split (hrun : Runs p (past ++ past') q) :
    ∃ p', Runs p past p' ∧ Runs p' past' q := by
  induction past generalizing p with
  | nil => exact ⟨p, .nil p, hrun⟩
  | cons m rest ih =>
    cases hrun with
    | cons hact hrest =>
      obtain ⟨p', hbefore, hafter⟩ := ih hrest
      exact ⟨p', .cons hact hbefore, hafter⟩

end Depot.Pump
