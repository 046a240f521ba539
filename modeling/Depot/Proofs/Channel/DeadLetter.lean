import Depot.Channel.Receiver
import Depot.Proofs.Channel.Call

/-!
Dead letters. A receiver that gives a message up sends a copy to another channel and then
deletes the message by its identity, which the copy shares. As long as the two channels have
different names the message changes its place and nothing else is touched; a receiver whose
dead letters go to its own channel deletes the copy as well.
-/
namespace Depot.Channel

structure DeadCopy (m : Message) (reason description : String) (copy : Message) : Prop where
  id : copy.id = m.id
  content : copy.content = m.content
  properties : copy.properties =
    (m.properties.insert reasonProperty reason).insert errorProperty description
  dequeues : copy.dequeues = some 0
  visible : ∀ now, visible now copy = true

/-- A message went from the channel of a receiver to the end of its dead-letter channel. -/
structure Moved (r : Receiver) (m : Message) (reason description : String)
    (c c' : Channels) : Prop where
  copied : ∃ copy, DeadCopy m reason description copy ∧
    c'.queue r.deadLetterChannel = c.queue r.deadLetterChannel ++ [copy]
  removed : c'.queues.get? r.channel =
    (c.queues.get? r.channel).map (List.filter fun x => x.id ≠ m.id)
  others : ∀ name, name ≠ r.channel → name ≠ r.deadLetterChannel →
    c'.queues.get? name = c.queues.get? name

structure Deleted (r : Receiver) (m : Message) (c c' : Channels) : Prop where
  removed : c'.queue r.channel = (c.queue r.channel).filter fun x => x.id ≠ m.id
  others : ∀ name, name ≠ r.channel → c'.queues.get? name = c.queues.get? name

variable {channel suffix reason description : String} {window : Window} {maxBatch : Int}
  {r : Receiver} {c c' : Channels} {m : Message}

theorem deadCopy_enqueued (m : Message) (reason description : String) :
    DeadCopy m reason description (enqueued (Receiver.dead m reason description)) where
  id := rfl
  content := rfl
  properties := rfl
  dequeues := rfl
  visible _ := rfl

namespace Receiver

theorem create?_eq_ok (h : create? channel window suffix maxBatch = .ok r) :
    r.channel = channel ∧ r.deadLetterChannel = channel ++ suffix := by
  unfold create? at h
  split at h
  · cases h
  · cases h
    exact ⟨rfl, rfl⟩

/-- Giving a message up comes down to two calls. -/
theorem deadLetter_eq (hname : r.deadLetterChannel ≠ "") (now : Calendar.Instant)
    (c : Channels) (m : Message) (reason description : String) :
    r.deadLetter m reason description c = .ok ((Call.delete r.channel [m.id]).apply now
      ((Call.send r.deadLetterChannel [dead m reason description]).apply now c)) := by
  rw [deadLetter, Channels.send_eq, if_neg hname, Call.apply_send, if_neg hname]
  rfl

/-- What becomes of each channel: the copy is sent first, and the deletion comes after it. -/
theorem get?_deadLetter (hname : r.deadLetterChannel ≠ "")
    (h : r.deadLetter m reason description c = .ok c') (name : String) :
    c'.queues.get? name =
      let sent := if name = r.deadLetterChannel then
          some (c.queue name ++ [enqueued (dead m reason description)])
        else c.queues.get? name
      if name = r.channel then sent.map (List.filter fun x => x.id ≠ m.id) else sent := by
  -- No reading of the clock matters to a send or a deletion.
  rw [deadLetter_eq hname 0, Except.ok.injEq] at h
  have hids : (fun x : Message => !([m.id].contains x.id)) = fun x => decide (x.id ≠ m.id) := by
    funext x
    simp
  rw [← h, Call.get?_apply, Call.get?_apply, Call.onChannel, Call.onChannel, hids]
  simp only [hname, ne_eq, not_false_eq_true, and_true, List.map_cons, List.map_nil]
  rfl

theorem moved_of_ne (hname : r.deadLetterChannel ≠ "") (hother : r.deadLetterChannel ≠ r.channel)
    (h : r.deadLetter m reason description c = .ok c') : Moved r m reason description c c' where
  copied := by
    refine ⟨_, deadCopy_enqueued m reason description, ?_⟩
    rw [Channels.queue, get?_deadLetter hname h]
    simp [hother]
  removed := by
    rw [get?_deadLetter hname h]
    simp [hother.symm]
  others name hchannel hdead := by
    rw [get?_deadLetter hname h]
    simp [hchannel, hdead]

/-- The deletion takes the copy along when both are in one channel. -/
theorem deleted_of_eq (hname : r.deadLetterChannel ≠ "") (hsame : r.deadLetterChannel = r.channel)
    (h : r.deadLetter m reason description c = .ok c') : Deleted r m c c' where
  removed := by
    have hid : (enqueued (dead m reason description)).id = m.id := rfl
    rw [Channels.queue, get?_deadLetter hname h]
    simp [hsame, List.filter_append, hid]
  others name hchannel := by
    have hdead : name ≠ r.deadLetterChannel := hsame ▸ hchannel
    rw [get?_deadLetter hname h]
    simp [hchannel, hdead]

end Receiver

/-- A receiver of a named channel can always give a message up, whatever the channels hold.
If there is a suffix, the message goes to the end of the dead-letter channel, at once visible,
with its identity, its content and its properties and the two that tell why; its own channel
keeps the rest in order, and nothing else changes. Without a suffix the message is deleted and
nothing is left of it. -/
theorem dead_letter_moved (hcreate : Receiver.create? channel window suffix maxBatch = .ok r)
    (hchannel : channel ≠ "") (c : Channels) (m : Message) (reason description : String) :
    ∃ c', r.deadLetter m reason description c = .ok c' ∧
      (suffix ≠ "" → Moved r m reason description c c') ∧ (suffix = "" → Deleted r m c c') := by
  obtain ⟨hown, hdead⟩ := Receiver.create?_eq_ok hcreate
  have hname : r.deadLetterChannel ≠ "" := by simp [hdead, hchannel]
  have hdone := Receiver.deadLetter_eq hname 0 c m reason description
  refine ⟨_, hdone, fun hsuffix => ?_, fun hsuffix => ?_⟩
  · have hother : r.deadLetterChannel ≠ r.channel := by simp [hdead, hown, hsuffix]
    exact Receiver.moved_of_ne hname hother hdone
  · have hsame : r.deadLetterChannel = r.channel := by simp [hdead, hown, hsuffix]
    exact Receiver.deleted_of_eq hname hsame hdone

def poisoned : Channels :=
  .after usualWindow [⟨0, .send "jobs" [⟨[7], "1", OrderedMap.empty.insert "k" "v", none, none⟩]⟩,
    ⟨0, .receive "jobs" 1 none⟩]

def poison : Message := ⟨[7], "1", OrderedMap.empty.insert "k" "v", some usualWindow, some 1⟩

theorem dead_letter_moved_poison :
    ∃ r c', Receiver.create? "jobs" usualWindow deadLetterSuffix 1 = .ok r ∧
      poison ∈ poisoned.queue "jobs" ∧
      r.deadLetter poison "Max" "parse error" poisoned = .ok c' ∧
      Moved r poison "Max" "parse error" poisoned c' := by
  obtain ⟨r, hcreate⟩ :
      ∃ r, Receiver.create? "jobs" usualWindow deadLetterSuffix 1 = .ok r := ⟨_, rfl⟩
  obtain ⟨c', hdone, hmoved, -⟩ :=
    dead_letter_moved hcreate (by decide) poisoned poison "Max" "parse error"
  exact ⟨r, c', hcreate, List.mem_singleton.mpr rfl, hdone, hmoved (by decide)⟩

/-- Without a suffix a message in the hands of a receiver is gone once it is given up. -/
theorem dead_letter_gone :
    ∃ r c', Receiver.create? "jobs" usualWindow "" 1 = .ok r ∧ poison ∈ poisoned.queue "jobs" ∧
      r.deadLetter poison "Max" "parse error" poisoned = .ok c' ∧
      c'.queue r.deadLetterChannel = [] ∧
      ¬ Moved r poison "Max" "parse error" poisoned c' := by
  refine ⟨_, _, rfl, List.mem_singleton.mpr rfl, rfl, rfl, fun hmoved => ?_⟩
  obtain ⟨copy, -, hqueue⟩ := hmoved.copied
  exact absurd hqueue (List.append_ne_nil_of_right_ne_nil _ (List.cons_ne_nil _ _)).symm

end Depot.Channel
