import Depot.Proofs.Channel.Call

/-!
What stands in a channel: every message that was ever sent to it, in the order of sending,
without those that a later call took out. A message may be received many times in between;
that changes neither its place nor what it says.
-/
namespace Depot

def Message.core (m : Message) : String × Bytes × Texts := (m.id, m.content, m.properties)

namespace Channel

theorem core_hide (expiry : Calendar.Instant) (m : Message) : (hide expiry m).core = m.core := rfl

def Call.puts (name : String) : Call → List Message
  | .send target messages => if name = target ∧ target ≠ "" then messages else []
  | _ => []

def Call.removes (name id : String) : Call → Bool
  | .drop names => names.contains name
  | .delete target ids => name = target && ids.contains id
  | _ => false

structure Sending where
  message : Message
  since : List Step

namespace Sending

def lasts (name : String) (x : Sending) : Bool :=
  x.since.all fun s => !s.call.removes name x.message.id

def andThen (s : Step) (x : Sending) : Sending := { x with since := x.since ++ [s] }

end Sending

def sendings (name : String) : List Step → List Sending
  | [] => []
  | s :: rest => (s.call.puts name).map (⟨·, rest⟩) ++ sendings name rest

structure Element where
  serial : Nat
  message : Message

/-- What was sent to a channel and not taken out since. -/
def standing (name : String) (past : List Step) : List Element :=
  ((sendings name past).zipIdx.filter fun x => x.1.lasts name).map fun x => ⟨x.2, x.1.message⟩

def numbered (first : Nat) (messages : List Message) : List Element :=
  (messages.zipIdx first).map fun x => ⟨x.2, x.1⟩

variable {name : String} {past : List Step} {s : Step}

theorem map_message_numbered {β : Type} (first : Nat) (messages : List Message) (f : Message → β) :
    (numbered first messages).map (fun e => f e.message) = messages.map f := by
  rw [numbered, List.map_map]
  conv_rhs => rw [← List.zipIdx_map_fst first messages, List.map_map]
  rfl

theorem sendings_concat (name : String) (past : List Step) (s : Step) :
    sendings name (past ++ [s]) =
      (sendings name past).map (Sending.andThen s) ++ (s.call.puts name).map (⟨·, []⟩) := by
  induction past with
  | nil => simp [sendings]
  | cons first rest ih =>
    simp only [List.cons_append, sendings, ih, List.map_append, List.map_map, List.append_assoc]
    rfl

theorem lasts_andThen (x : Sending) :
    (x.andThen s).lasts name = (x.lasts name && !s.call.removes name x.message.id) := by
  simp [Sending.lasts, Sending.andThen]

/-- What stands after a call: what stood before it and is not taken out, and what is sent. -/
theorem standing_concat (name : String) (past : List Step) (s : Step) :
    standing name (past ++ [s]) =
      ((standing name past).filter fun e => !s.call.removes name e.message.id) ++
        numbered (sendings name past).length (s.call.puts name) := by
  unfold standing numbered
  rw [sendings_concat, List.zipIdx_append, List.filter_append, List.map_append]
  congr 1
  · rw [List.zipIdx_map, List.filter_map, List.filter_map, List.map_map, List.filter_filter]
    simp only [Function.comp_def, Prod.map, id_eq, lasts_andThen, Bool.and_comm]
    rfl
  · rw [List.zipIdx_map, List.filter_map, List.map_map, List.length_map, Nat.zero_add]
    rw [List.filter_eq_self.mpr]
    · rfl
    · intro x _
      simp [Sending.lasts]

variable {now : Calendar.Instant} {c : Channels} {call : Call} {window : Window}

theorem core_takeVisible (now expiry : Calendar.Instant) (n : Nat) (queue : List Message) :
    (takeVisible now expiry n queue).2.map Message.core = queue.map Message.core := by
  induction queue generalizing n with
  | nil => cases n <;> rfl
  | cons m rest ih =>
    cases n with
    | zero => rfl
    | succ n =>
      unfold takeVisible
      split
      · simp [ih, core_hide]
      · simp [ih]

theorem core_received (most : Int) (w : Window) (queue : List Message) :
    (received now most w queue).map Message.core = queue.map Message.core := by
  unfold received
  cases after? now w with
  | error e => rfl
  | ok expiry => exact core_takeVisible ..

def Call.handle (now : Calendar.Instant) (usual : Window) (name : String) :
    Call → List Message → List Message
  | .receive target most w, queue =>
    if name = target then received now most (w.getD usual) queue else queue
  | _, queue => queue

theorem core_handle (now : Calendar.Instant) (name : String) (call : Call) (usual : Window)
    (queue : List Message) :
    (call.handle now usual name queue).map Message.core = queue.map Message.core := by
  cases call with
  | receive target most w =>
    rw [Call.handle]
    split
    · exact core_received ..
    · rfl
  | _ => rfl

theorem received_nil (most : Int) (w : Window) : received now most w [] = [] := by
  unfold received
  split
  · cases most.toNat <;> rfl
  · rfl

/-- What a call makes of a queue. -/
theorem queue_apply (name : String) (call : Call) :
    (call.apply now c).queue name =
      ((call.handle now c.defaultWindow name (c.queue name)).filter
        fun m => !call.removes name m.id) ++ (call.puts name).map enqueued := by
  rw [Channels.queue, Call.get?_apply, Channels.queue]
  cases call with
  | create names =>
    simp only [Call.onChannel]
    split <;> simp [Call.handle, Call.removes, Call.puts]
  | drop names =>
    by_cases hname : name ∈ names <;>
      simp [Call.onChannel, Call.handle, Call.removes, Call.puts, hname]
  | send target messages =>
    by_cases hname : name = target ∧ target ≠ "" <;>
      simp [Call.onChannel, Call.handle, Call.removes, Call.puts, hname]
  | receive target most w =>
    by_cases hname : name = target
    · cases c.queues.get? name <;>
        simp [Call.onChannel, Call.handle, Call.removes, Call.puts, hname, received_nil]
    · simp [Call.onChannel, Call.handle, Call.removes, Call.puts, hname]
  | delete target ids =>
    by_cases hname : name = target
    · cases c.queues.get? name <;>
        simp [Call.onChannel, Call.handle, Call.removes, Call.puts, hname]
    · simp [Call.onChannel, Call.handle, Call.removes, Call.puts, hname]
  | _ => simp [Call.onChannel, Call.handle, Call.removes, Call.puts]

/-- What a call makes of what the messages of a channel say. -/
theorem core_apply (name : String) (call : Call) :
    ((call.apply now c).queue name).map Message.core =
      ((c.queue name).map Message.core).filter (fun x => !call.removes name x.1) ++
        (call.puts name).map Message.core := by
  have hhandle := core_handle now name call c.defaultWindow (c.queue name)
  rw [queue_apply, List.map_append, List.map_map, ← hhandle, List.filter_map]
  rfl

theorem core_standing (window : Window) (name : String) (past : List Step) :
    ((Channels.after window past).queue name).map Message.core =
      (standing name past).map fun e => e.message.core := by
  -- Both sides change in the same way with the last call.
  induction past using List.reverseRecOn with
  | nil => rfl
  | append_singleton past s ih =>
    rw [Channels.after_concat, core_apply, ih, standing_concat, List.map_append,
      map_message_numbered, List.filter_map]
    rfl

def Call.reads : Call → Bool
  | .list | .count _ | .receive .. | .peek .. => true
  | _ => false

theorem channel_of_reads (h : call.reads = true) :
    ((call.apply now c).queues.get? name).map (List.map Message.core) =
      (c.queues.get? name).map (List.map Message.core) := by
  rw [Call.get?_apply]
  cases call with
  | receive target most w =>
    by_cases hname : name = target
    · simp only [Call.onChannel, hname, if_true, Option.map_map]
      congr 1
      funext queue
      exact core_received ..
    · simp [Call.onChannel, hname]
  | list => rfl
  | count target => rfl
  | peek target most => rfl
  | _ => simp [Call.reads] at h

/-- After any calls, each channel holds what was sent to it and not taken out since, in the
order of sending, and the count of a channel is the number of these. Reading a channel makes
none and changes none of its messages but in their windows and counts of receipts; a call
leaves alone the channels that it does not name; and a call that fails leaves everything as
it was. -/
theorem nothing_lost (window : Window) (past : List Step) :
    (∀ name, ((Channels.after window past).queue name).map Message.core =
      (standing name past).map fun e => e.message.core) ∧
    (∀ now name, (Call.count name).answer now (Channels.after window past) =
      .ok (.count (standing name past).length)) ∧
    ∀ now (call : Call),
      (call.reads = true → ∀ name,
        ((call.apply now (Channels.after window past)).queues.get? name).map
            (List.map Message.core) =
          ((Channels.after window past).queues.get? name).map (List.map Message.core)) ∧
      (∀ name, name ∉ call.channels →
        (call.apply now (Channels.after window past)).queues.get? name =
          (Channels.after window past).queues.get? name) ∧
      ((∃ e, call.answer now (Channels.after window past) = .error e) ↔
        call.Refused now window) ∧
      (call.Refused now window → (∀ names, call ≠ .create names) →
        call.apply now (Channels.after window past) = Channels.after window past) := by
  refine ⟨fun name => core_standing window name past, fun now name => ?_, fun now call => ?_⟩
  · have hlength := congrArg List.length (core_standing window name past)
    rw [List.length_map, List.length_map] at hlength
    exact congrArg (fun n => Except.ok (Answer.count n)) hlength
  · refine ⟨fun hreads name => channel_of_reads hreads, fun name hname => ?_, ?_, ?_⟩
    · rw [Call.get?_apply, Call.onChannel_of_not_mem hname]
    · rw [Call.answer_eq_error, Channels.defaultWindow_after]
    · intro hrefused hcreate
      rw [← Channels.defaultWindow_after window past] at hrefused
      exact Call.apply_of_refused hrefused hcreate

def twoSent : List Step :=
  [⟨0, .send "a" [⟨[1], "first", .empty, none, none⟩, ⟨[2], "second", .empty, none, none⟩]⟩,
    ⟨5, .receive "a" 2 none⟩, ⟨3, .delete "a" ["first"]⟩]

theorem nothing_lost_twoSent :
    ((Channels.after usualWindow twoSent).queue "a").map Message.core = [("second", [2], .empty)] ∧
      "b" ∉ (Call.drop ["a"]).channels ∧
      ((Call.drop ["a"]).apply 9 (Channels.after usualWindow twoSent)).queues.get? "b" =
        (Channels.after usualWindow twoSent).queues.get? "b" ∧
      (Call.receive "a" 0 none).Refused 9 usualWindow ∧
      (Call.receive "a" 0 none).apply 9 (Channels.after usualWindow twoSent) =
        Channels.after usualWindow twoSent := by
  obtain ⟨hcore, -, hcalls⟩ := nothing_lost usualWindow twoSent
  have hother : "b" ∉ (Call.drop ["a"]).channels := by decide
  have hrefused : (Call.receive "a" 0 none).Refused 9 usualWindow := Or.inl (by decide)
  exact ⟨hcore "a", hother, (hcalls 9 _).2.1 "b" hother, hrefused,
    (hcalls 9 _).2.2.2 hrefused (by simp)⟩

end Channel

end Depot
