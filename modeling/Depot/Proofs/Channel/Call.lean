import Depot.Channel.Queue
import Depot.Proofs.Action
import Depot.Proofs.OrderedMap
import Mathlib.Data.List.Induction

/-!
Calls on channels, made one after another, each at some reading of the clock. What a call
does to a channel depends on the queue of that channel alone.
-/
namespace Depot.Channel

inductive Call
  | create (names : List String)
  | drop (names : List String)
  | list
  | count (name : String)
  | send (name : String) (messages : List Message)
  | receive (name : String) (most : Int) (window : Option Window)
  | peek (name : String) (most : Int)
  | delete (name : String) (ids : List String)
  | close

inductive Answer
  | done
  | names (names : List String)
  | count (n : Nat)
  | messages (ms : List Message)

namespace Call

def act (now : Calendar.Instant) : Call → Action Channels Answer
  | .create names => do
    Channels.create names
    return .done
  | .drop names => do
    modify (Channels.drop names)
    return .done
  | .list => do return .names (← get).names
  | .count name => do return .count ((← get).count name)
  | .send name messages => do
    Action.ofTransition (Channels.send name messages)
    return .done
  | .receive name most window => do
    match Channels.receive now name most window (← get) with
    | .ok (taken, c) =>
      set c
      return .messages taken
    | .error e => throw e
  | .peek name most => do return .messages ((← get).peek now name most)
  | .delete name ids => do
    modify (Channels.delete name ids)
    return .done
  | .close => do
    modify Channels.close
    return .done

def answer (now : Calendar.Instant) (call : Call) (c : Channels) : Except Fault Answer :=
  ((call.act now).runFrom c).1

def apply (now : Calendar.Instant) (call : Call) (c : Channels) : Channels :=
  ((call.act now).runFrom c).2

def channels : Call → List String
  | .create names => names
  | .drop names => names
  | .count name => [name]
  | .send name _ => [name]
  | .receive name _ _ => [name]
  | .peek name _ => [name]
  | .delete name _ => [name]
  | _ => []

end Call

def received (now : Calendar.Instant) (most : Int) (window : Window) (queue : List Message) :
    List Message :=
  match after? now window with
  | .ok expiry => (takeVisible now expiry most.toNat queue).2
  | .error _ => queue

def Call.onChannel (now : Calendar.Instant) (usual : Window) (name : String) :
    Call → Option (List Message) → Option (List Message)
  | .create names, queue? =>
    -- A refused name ends the round.
    if name ∈ names.takeWhile (· ≠ "") then some (queue?.getD []) else queue?
  | .drop names, queue? => if name ∈ names then none else queue?
  | .send target messages, queue? =>
    if name = target ∧ target ≠ "" then some (queue?.getD [] ++ messages.map enqueued) else queue?
  | .receive target most window, queue? =>
    if name = target then queue?.map (received now most (window.getD usual)) else queue?
  | .delete target ids, queue? =>
    if name = target then queue?.map (List.filter fun m => !ids.contains m.id) else queue?
  | _, queue? => queue?

def Call.Refused (now : Calendar.Instant) (usual : Window) : Call → Prop
  | .create names => "" ∈ names
  | .send target _ => target = ""
  | .receive _ most window =>
    most < 1 ∨ (window.getD usual).inRange = false ∨
      Calendar.inRange (now + window.getD usual) = false
  | _ => False

variable {now : Calendar.Instant} {c : Channels} {name target : String} {messages : List Message}

namespace Channels

@[simp] theorem get?_setQueue (queue : List Message) :
    (c.setQueue target queue).queues.get? name =
      if name = target then some queue else c.queues.get? name :=
  OrderedMap.get?_insert ..

theorem send_eq : c.send target messages =
    if target = "" then .error .emptyChannelName
    else .ok ((c.setQueue target (c.queue target)).setQueue target
      (c.queue target ++ messages.map enqueued)) := by
  unfold send ensure
  split
  · rfl
  · have hqueue : (c.setQueue target (c.queue target)).queue target = c.queue target := by
      simp [queue]
    simp only [bind, Except.bind, pure, Except.pure, hqueue]

theorem create_spec (name : String) (names : List String) :
    (((create names).runFrom c).2.queues.get? name =
      if name ∈ names.takeWhile (· ≠ "") then some (c.queue name) else c.queues.get? name) ∧
    ((create names).runFrom c).2.defaultWindow = c.defaultWindow := by
  induction names generalizing c with
  | nil => simp [create]
  | cons first rest ih =>
    rw [create, Action.runFrom_bind, Action.runFrom_ofTransition]
    by_cases hempty : first = ""
    · simp [ensure, hempty]
    · simp only [ensure, if_neg hempty]
      obtain ⟨hget, hwindow⟩ := ih (c := c.setQueue first (c.queue first))
      refine ⟨?_, hwindow⟩
      rw [hget, List.takeWhile_cons_of_pos (by simpa using hempty)]
      simp only [List.mem_cons, get?_setQueue, queue]
      by_cases hname : name = first <;> simp [hname]

theorem create_refused (names : List String) :
    (∃ e, ((create names).runFrom c).1 = .error e) ↔ "" ∈ names := by
  induction names generalizing c with
  | nil => simp [create]
  | cons first rest ih =>
    rw [create, Action.runFrom_bind, Action.runFrom_ofTransition]
    by_cases hempty : first = ""
    · simp [ensure, hempty]
    · simp only [ensure, if_neg hempty, ih, List.mem_cons, Ne.symm hempty, false_or]

end Channels

theorem after?_eq_error {window : Window} :
    (∃ e, after? now window = .error e) ↔
      window.inRange = false ∨ Calendar.inRange (now + window) = false := by
  unfold after?
  cases window.inRange <;> cases Calendar.inRange (now + window) <;> simp

namespace Call

theorem runFrom_receive (most : Int) (window : Option Window) :
    ((receive target most window).act now).runFrom c =
      match c.receive now target most window with
      | .ok (taken, c') => (.ok (.messages taken), c')
      | .error e => (.error e, c) := by
  simp only [act, Action.runFrom_bind, Action.runFrom_get]
  cases c.receive now target most window with
  | error e => rfl
  | ok r => rfl

theorem apply_send : (send target messages).apply now c =
    if target = "" then c
    else (c.setQueue target (c.queue target)).setQueue target
      (c.queue target ++ messages.map enqueued) := by
  simp only [apply, act, Action.runFrom_bind, Action.runFrom_ofTransition, Channels.send_eq]
  by_cases hempty : target = "" <;> simp [hempty]

theorem answer_send : (send target messages).answer now c =
    if target = "" then .error .emptyChannelName else .ok .done := by
  simp only [answer, act, Action.runFrom_bind, Action.runFrom_ofTransition, Channels.send_eq]
  by_cases hempty : target = "" <;> simp [hempty]

theorem apply_create (names : List String) :
    (create names).apply now c = ((Channels.create names).runFrom c).2 := by
  simp only [apply, act, Action.runFrom_bind]
  cases (Channels.create names).runFrom c with
  | mk r c' => cases r <;> rfl

theorem answer_receive {most : Int} {window : Option Window} {expiry : Calendar.Instant}
    (hmost : 1 ≤ most) (hexpiry : after? now (window.getD c.defaultWindow) = .ok expiry) :
    (receive target most window).answer now c =
      .ok (.messages (takeVisible now expiry most.toNat (c.queue target)).1) := by
  have hnot : ¬ most < 1 := by omega
  simp only [answer, runFrom_receive, Channels.receive, if_neg hnot, hexpiry, Channels.queue]
  cases c.queues.get? target with
  | some queue => rfl
  | none => cases most.toNat <;> rfl

theorem refused_receive (most : Int) (window : Option Window) :
    (∃ e, (receive target most window).answer now c = .error e) ↔
      (receive target most window).Refused now c.defaultWindow := by
  rw [Refused, ← after?_eq_error]
  by_cases hmost : most < 1
  · simp [answer, runFrom_receive, Channels.receive, hmost]
  · cases hexpiry : after? now (window.getD c.defaultWindow) with
    | error e => simp [answer, runFrom_receive, Channels.receive, hmost, hexpiry]
    | ok expiry =>
      have hmost' : 1 ≤ most := by omega
      rw [answer_receive hmost' hexpiry]
      simp [hmost]

/-- When a call fails. -/
theorem answer_eq_error (call : Call) :
    (∃ e, call.answer now c = .error e) ↔ call.Refused now c.defaultWindow := by
  cases call with
  | create names =>
    rw [Refused, ← Channels.create_refused (c := c), answer, act, Action.runFrom_bind]
    cases (Channels.create names).runFrom c with
    | mk r c' => cases r <;> simp
  | send target messages =>
    rw [answer_send, Refused]
    split <;> simp_all
  | receive target most window => exact refused_receive most window
  | _ =>
    refine ⟨fun h => ?_, False.elim⟩
    obtain ⟨e, he⟩ := h
    cases he

theorem apply_receive (most : Int) (window : Option Window) :
    (receive target most window).apply now c =
      match c.queues.get? target with
      | none => c
      | some queue => if 1 ≤ most ∧ (after? now (window.getD c.defaultWindow)).toBool then
          c.setQueue target (received now most (window.getD c.defaultWindow) queue) else c := by
  simp only [apply, runFrom_receive, Channels.receive]
  by_cases hmost : most < 1
  · have hnot : ¬ 1 ≤ most := by omega
    simp only [if_pos hmost, hnot, false_and, if_false]
    split <;> rfl
  · have hmost' : 1 ≤ most := by omega
    simp only [if_neg hmost, hmost', true_and, received]
    cases after? now (window.getD c.defaultWindow) with
    | error e =>
      simp only [Except.toBool, Bool.false_eq_true, if_false]
      split <;> rfl
    | ok expiry =>
      simp only [Except.toBool, if_true]
      cases c.queues.get? target <;> rfl

theorem received_eq_self {most : Int} {window : Window}
    (h : ¬ (1 ≤ most ∧ (after? now window).toBool = true)) (queue : List Message) :
    received now most window queue = queue := by
  unfold received
  cases hexpiry : after? now window with
  | error e => rfl
  | ok expiry =>
    have hzero : most.toNat = 0 := by
      rw [hexpiry] at h
      simp only [Except.toBool, and_true] at h
      omega
    simp [hzero, takeVisible]

theorem get?_receive (most : Int) (window : Option Window) :
    ((receive target most window).apply now c).queues.get? name =
      (receive target most window).onChannel now c.defaultWindow name (c.queues.get? name) := by
  rw [apply_receive, onChannel]
  cases hqueue : c.queues.get? target with
  | none =>
    by_cases hname : name = target <;> simp [hname, hqueue]
  | some queue =>
    by_cases hname : name = target
    · dsimp only
      split
      · simp [hname, hqueue]
      · rename_i h
        simp [hname, hqueue, received_eq_self h]
    · dsimp only
      split <;> simp [hname]

/-- What becomes of a channel depends on that channel alone. -/
theorem get?_apply (call : Call) :
    (call.apply now c).queues.get? name =
      call.onChannel now c.defaultWindow name (c.queues.get? name) := by
  cases call with
  | create names =>
    rw [apply_create, (Channels.create_spec name names).1]
    rfl
  | drop names =>
    have hdrop := OrderedMap.get?_filter_keys c.queues (fun key => !names.contains key) name
    change (c.queues.filter fun key _ => !names.contains key).get? name = _
    rw [hdrop, onChannel]
    by_cases hname : name ∈ names <;> simp [hname]
  | send target messages =>
    rw [apply_send, onChannel]
    by_cases hempty : target = ""
    · simp [hempty]
    · by_cases hname : name = target <;> simp [hempty, hname, Channels.queue]
  | receive target most window => exact get?_receive most window
  | delete target ids =>
    change (c.delete target ids).queues.get? name = _
    rw [Channels.delete, onChannel]
    cases hqueue : c.queues.get? target with
    | none => by_cases hname : name = target <;> simp [hname, hqueue]
    | some queue => by_cases hname : name = target <;> simp [hname, hqueue]
  | _ => rfl

/-- A call that fails leaves everything as it was; channels that were asked for before
an empty name are made. -/
theorem apply_of_refused {call : Call} (h : call.Refused now c.defaultWindow)
    (hcreate : ∀ names, call ≠ .create names) : call.apply now c = c := by
  cases call with
  | create names => exact absurd rfl (hcreate names)
  | send target messages =>
    have hempty : target = "" := h
    rw [apply_send, if_pos hempty]
  | receive target most window =>
    obtain ⟨e, he⟩ := (refused_receive most window).mpr h
    simp only [answer, runFrom_receive] at he
    simp only [apply, runFrom_receive]
    cases hreceive : c.receive now target most window with
    | error e => rfl
    | ok r => simp [hreceive] at he
  | _ => exact h.elim

theorem onChannel_of_not_mem {usual : Window} {call : Call} {queue? : Option (List Message)}
    (h : name ∉ call.channels) : call.onChannel now usual name queue? = queue? := by
  cases call with
  | create names =>
    have hnot : name ∉ names.takeWhile (· ≠ "") :=
      fun hmem => h (List.takeWhile_sublist _ |>.subset hmem)
    exact if_neg hnot
  | drop names => exact if_neg h
  | send target messages =>
    have hname : name ≠ target := by simpa [channels] using h
    simp [onChannel, hname]
  | receive target most window =>
    have hname : name ≠ target := by simpa [channels] using h
    simp [onChannel, hname]
  | delete target ids =>
    have hname : name ≠ target := by simpa [channels] using h
    simp [onChannel, hname]
  | _ => rfl

theorem defaultWindow_apply (call : Call) :
    (call.apply now c).defaultWindow = c.defaultWindow := by
  cases call with
  | create names =>
    rw [apply_create]
    exact (Channels.create_spec "" names).2
  | send target messages =>
    rw [apply_send]
    split <;> rfl
  | receive target most window =>
    rw [apply_receive]
    split
    · rfl
    · split <;> rfl
  | delete target ids =>
    change (c.delete target ids).defaultWindow = _
    unfold Channels.delete
    split <;> rfl
  | _ => rfl

end Call

structure Step where
  now : Calendar.Instant
  call : Call

namespace Channels

def after (window : Window) (past : List Step) : Channels :=
  past.foldl (fun c s => s.call.apply s.now c) (.empty window)

variable {window : Window} {past : List Step}

@[simp] theorem after_nil : after window [] = .empty window := rfl

@[simp] theorem after_concat (s : Step) :
    after window (past ++ [s]) = s.call.apply s.now (after window past) := by
  simp [after]

@[simp] theorem defaultWindow_after (window : Window) (past : List Step) :
    (after window past).defaultWindow = window := by
  induction past using List.reverseRecOn with
  | nil => rfl
  | append_singleton past s ih => rw [after_concat, Call.defaultWindow_apply, ih]

end Channels

end Depot.Channel
