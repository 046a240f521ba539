import Depot.Proofs.Channel.Visibility
import Mathlib.Algebra.Order.BigOperators.Group.List
import Mathlib.Algebra.Order.Ring.Int

/-!
Receiving in batches. While the clock stands still, what one receive hands out stays hidden
from the next as long as the window ends later than now, so a receive goes on where the last
one stopped. However a number of messages is split into batches, the same messages are handed
out in the same order, each of them once, and the queue is left in the same state.
-/
namespace Depot.Channel

def batch (now : Calendar.Instant) (name : String) (w : Option Window) (most : Int) :
    Action Channels (List Message) := do
  match Channels.receive now name most w (← get) with
  | .ok (taken, c) =>
    set c
    return taken
  | .error e => throw e

def drain (now : Calendar.Instant) (name : String) (w : Option Window) :
    List Int → Action Channels (List Message)
  | [] => pure []
  | most :: rest => do
    let taken ← batch now name w most
    return taken ++ (← drain now name w rest)

variable {now expiry : Calendar.Instant} {name : String} {w : Option Window} {window : Window}
  {past : List Step} {c : Channels} {k m most : Int} {sizes : List Int}

theorem lt_of_after? {length : Window} (h : after? now length = .ok expiry) (hw : 0 < length) :
    now < expiry := by
  unfold after? at h
  split at h
  · cases h
    exact Int.lt_add_of_pos_right now hw
  · cases h

theorem not_visible_hide (h : now < expiry) (x : Message) : visible now (hide expiry x) = false :=
  decide_eq_false (Int.not_le.mpr h)

theorem takeVisible_zero (queue : List Message) : takeVisible now expiry 0 queue = ([], queue) := by
  cases queue <;> rfl

/-- A hidden message is passed over. -/
theorem takeVisible_hidden {x : Message} (h : visible now x = false) (n : Nat)
    (queue : List Message) :
    takeVisible now expiry n (x :: queue) =
      ((takeVisible now expiry n queue).1, x :: (takeVisible now expiry n queue).2) := by
  cases n with
  | zero => rw [takeVisible_zero, takeVisible_zero]
  | succ n => rw [takeVisible, if_neg (by simp [h])]

/-- What is taken is what is visible, with the end of the window. -/
theorem takeVisible_taken (now expiry : Calendar.Instant) (n : Nat) (queue : List Message) :
    (takeVisible now expiry n queue).1 =
      ((queue.filter (visible now)).take n).map (hide expiry) := by
  induction queue generalizing n with
  | nil => cases n <;> rfl
  | cons x rest ih =>
    cases hvisible : visible now x with
    | true =>
      cases n with
      | zero => rw [takeVisible_zero, List.take_zero, List.map_nil]
      | succ n =>
        rw [takeVisible, if_pos hvisible, List.filter_cons_of_pos hvisible, List.take_succ_cons,
          List.map_cons, ← ih n]
    | false => rw [takeVisible_hidden hvisible, List.filter_cons_of_neg (by simp [hvisible]), ih n]

/-- What is taken at once may be taken in two goes, as the first go hides what it takes. -/
theorem takeVisible_add (h : now < expiry) (n n' : Nat) (queue : List Message) :
    takeVisible now expiry (n + n') queue =
      ((takeVisible now expiry n queue).1 ++
          (takeVisible now expiry n' (takeVisible now expiry n queue).2).1,
        (takeVisible now expiry n' (takeVisible now expiry n queue).2).2) := by
  induction queue generalizing n with
  | nil => cases n <;> cases n' <;> rfl
  | cons x rest ih =>
    cases n with
    | zero => rw [takeVisible_zero, Nat.zero_add, List.nil_append]
    | succ n =>
      cases hvisible : visible now x with
      | true =>
        have hagain : takeVisible now expiry n'
            (hide expiry x :: (takeVisible now expiry n rest).2) =
            _ := takeVisible_hidden (not_visible_hide h x) n' _
        rw [Nat.add_right_comm, takeVisible, if_pos hvisible, ih n, takeVisible, if_pos hvisible]
        dsimp only
        rw [hagain, List.cons_append]
      | false =>
        rw [takeVisible_hidden hvisible, takeVisible_hidden hvisible, ih (n + 1)]
        dsimp only
        rw [takeVisible_hidden hvisible]

namespace Channels

theorem setQueue_setQueue (queue queue' : List Message) :
    (c.setQueue name queue).setQueue name queue' = c.setQueue name queue' := by
  unfold setQueue
  rw [OrderedMap.insert_insert]

/-- Two receives while the clock stands still come to one. -/
theorem receive_add (hw : 0 < w.getD c.defaultWindow) (hk : 1 ≤ k) (hm : 1 ≤ m) :
    c.receive now name (k + m) w =
      match c.receive now name k w with
      | .error e => .error e
      | .ok (first, c') =>
        match c'.receive now name m w with
        | .error e => .error e
        | .ok (second, c'') => .ok (first ++ second, c'') := by
  have hcounts : ¬ k < 1 ∧ ¬ m < 1 ∧ ¬ k + m < 1 := by omega
  obtain ⟨hfirst, hsecond, hsum⟩ := hcounts
  unfold receive
  simp only [if_neg hfirst, if_neg hsecond, if_neg hsum]
  cases hexpiry : after? now (w.getD c.defaultWindow) with
  | error e => rfl
  | ok expiry =>
    cases hqueue : c.queues.get? name with
    | none => simp only [hexpiry, hqueue, List.append_nil]
    | some queue =>
      have htake := takeVisible_add (lt_of_after? hexpiry hw) k.toNat m.toNat queue
      rw [← Int.toNat_add (by omega) (by omega)] at htake
      have hwindow : ∀ queue, (c.setQueue name queue).defaultWindow = c.defaultWindow :=
        fun _ => rfl
      simp only [hwindow, hexpiry, get?_setQueue, if_true, htake, setQueue_setQueue]

/-- The window decides whether a receive is refused, and it is the same for the next one. -/
theorem receive_again {r : List Message × Channels} (h : c.receive now name k w = .ok r)
    (hm : 1 ≤ m) : ∃ r', r.2.receive now name m w = .ok r' := by
  unfold receive at h
  split at h
  · cases h
  · split at h
    · cases h
    · next expiry hexpiry =>
      have hwindow : r.2.defaultWindow = c.defaultWindow := by
        split at h <;> cases h <;> rfl
      rw [receive, if_neg (by omega), hwindow, hexpiry]
      dsimp only
      split <;> exact ⟨_, rfl⟩

/-- A receive hands out what a peek shows, with the end of the window and one more receipt. -/
theorem receive_peek (hmost : 1 ≤ most)
    (hexpiry : after? now (w.getD c.defaultWindow) = .ok expiry) :
    ∃ c', c.receive now name most w = .ok ((c.peek now name most).map (hide expiry), c') := by
  rw [receive, if_neg (by omega), hexpiry, peek, queue]
  cases c.queues.get? name with
  | none => exact ⟨c, by simp⟩
  | some queue =>
    have htaken := takeVisible_taken now expiry most.toNat queue
    exact ⟨_, congrArg (fun taken => Except.ok (taken, _)) htaken⟩

end Channels

theorem runFrom_batch (now : Calendar.Instant) (name : String) (w : Option Window) (most : Int)
    (c : Channels) :
    (batch now name w most).runFrom c =
      match c.receive now name most w with
      | .ok (taken, c') => (.ok taken, c')
      | .error e => (.error e, c) := by
  rw [batch, Action.runFrom_bind, Action.runFrom_get]
  dsimp only
  cases c.receive now name most w <;> rfl

theorem defaultWindow_batch (now : Calendar.Instant) (name : String) (w : Option Window)
    (most : Int) (c : Channels) :
    ((batch now name w most).runFrom c).2.defaultWindow = c.defaultWindow := by
  rw [runFrom_batch]
  unfold Channels.receive
  split
  · next h =>
    split at h
    · cases h
    · split at h
      · cases h
      · split at h <;> cases h <;> rfl
  · rfl

/-- The second of two batches goes on where the first one stopped. -/
theorem batch_add (hw : 0 < w.getD c.defaultWindow) (hk : 1 ≤ k) (hm : 1 ≤ m) :
    (do
      let first ← batch now name w k
      return first ++ (← batch now name w m) : Action Channels (List Message)).runFrom c =
    (batch now name w (k + m)).runFrom c := by
  rw [Action.runFrom_bind, runFrom_batch now name w (k + m), Channels.receive_add hw hk hm,
    runFrom_batch now name w k]
  cases hfirst : c.receive now name k w with
  | error e => rfl
  | ok first =>
    obtain ⟨second, hsecond⟩ := Channels.receive_again hfirst hm
    dsimp only
    rw [Action.runFrom_bind, runFrom_batch, hsecond]
    rfl

/-- Batches of any sizes come to one of their sum. -/
theorem runFrom_drain (hw : 0 < w.getD c.defaultWindow) (hne : sizes ≠ [])
    (hpos : ∀ k ∈ sizes, 1 ≤ k) :
    (drain now name w sizes).runFrom c = (batch now name w sizes.sum).runFrom c := by
  induction sizes generalizing c with
  | nil => exact absurd rfl hne
  | cons most rest ih =>
    by_cases hlast : rest = []
    · subst hlast
      rw [List.sum_singleton, drain, Action.runFrom_bind]
      cases (batch now name w most).runFrom c with
      | mk answer c' => cases answer <;> simp [drain]
    · have hrest : ∀ k ∈ rest, 1 ≤ k := fun k hk => hpos k (List.mem_cons_of_mem most hk)
      have hsum : 1 ≤ rest.sum := List.sum_pos rest hrest hlast
      rw [List.sum_cons, ← batch_add hw (hpos most List.mem_cons_self) hsum, drain,
        Action.runFrom_bind, Action.runFrom_bind]
      have hwindow := defaultWindow_batch now name w most c
      generalize (batch now name w most).runFrom c = first at hwindow ⊢
      obtain ⟨answer, c'⟩ := first
      cases answer with
      | error e => rfl
      | ok taken =>
        dsimp only at hwindow ⊢
        rw [Action.runFrom_bind, Action.runFrom_bind, ih (hwindow ▸ hw) hlast hrest]

/-- The first visible elements stand in the order of sending, and none of them twice. -/
theorem firstVisible_serials_lt (window : Window) (name : String) (past : List Step) (n : Nat) :
    ((firstVisible now n (elements window name past)).map Element.serial).Pairwise (· < ·) := by
  have hsub : List.Sublist ((firstVisible now n (elements window name past)).map Element.serial)
      ((elements window name past).map Element.serial) :=
    ((List.take_sublist ..).trans List.filter_sublist).map _
  rw [serial_elements] at hsub
  exact (serials_lt name past).sublist hsub

theorem peek_elements (window : Window) (name : String) (past : List Step) (most : Int) :
    (Channels.after window past).peek now name most =
      (firstVisible now most.toNat (elements window name past)).map Element.message := by
  have hanswer : (Call.peek name most).answer now (Channels.after window past) = _ :=
    answer_peek most
  injection hanswer with hanswer
  injection hanswer

/-- In every state that calls lead to, and for every window that ends later than now: two
receives at one time hand out together what one receive of both numbers hands out, and leave the
same channels, and so do any number of batches, which stop where the one receive would. What
they hand out are the first visible elements in the order of sending, each of them once. A
receive that is not refused hands out what a peek shows, with the end of the window and one
more receipt. -/
theorem batches_agree (window : Window) (past : List Step) (now : Calendar.Instant)
    (name : String) (w : Option Window) (hw : 0 < w.getD window) :
    (∀ k m : Int, 1 ≤ k → 1 ≤ m →
      (do
        let first ← batch now name w k
        return first ++ (← batch now name w m) : Action Channels (List Message)).runFrom
          (Channels.after window past) =
        (batch now name w (k + m)).runFrom (Channels.after window past)) ∧
    (∀ sizes : List Int, sizes ≠ [] → (∀ k ∈ sizes, 1 ≤ k) →
      (drain now name w sizes).runFrom (Channels.after window past) =
          (batch now name w sizes.sum).runFrom (Channels.after window past) ∧
        ∀ expiry, after? now (w.getD window) = .ok expiry →
          ∃ taken, taken = firstVisible now sizes.sum.toNat (elements window name past) ∧
            (taken.map Element.serial).Pairwise (· < ·) ∧
            ((drain now name w sizes).runFrom (Channels.after window past)).1 =
              .ok (taken.map fun e => hide expiry e.message)) ∧
    (∀ (most : Int) expiry, 1 ≤ most → after? now (w.getD window) = .ok expiry →
      ∃ c', (Channels.after window past).receive now name most w =
        .ok (((Channels.after window past).peek now name most).map (hide expiry), c')) := by
  have hwindow := Channels.defaultWindow_after window past
  have hw' : 0 < w.getD (Channels.after window past).defaultWindow := by rwa [hwindow]
  have hpeek : ∀ (most : Int) expiry, 1 ≤ most → after? now (w.getD window) = .ok expiry →
      ∃ c', (Channels.after window past).receive now name most w =
        .ok (((Channels.after window past).peek now name most).map (hide expiry), c') := by
    intro most expiry hmost hexpiry
    exact Channels.receive_peek hmost (by rwa [hwindow])
  refine ⟨fun k m hk hm => batch_add hw' hk hm, fun sizes hne hpos => ?_, hpeek⟩
  have hdrain : (drain now name w sizes).runFrom (Channels.after window past) = _ :=
    runFrom_drain hw' hne hpos
  refine ⟨hdrain, fun expiry hexpiry => ⟨_, rfl, firstVisible_serials_lt .., ?_⟩⟩
  obtain ⟨c', hreceive⟩ := hpeek sizes.sum expiry (List.sum_pos sizes hpos hne) hexpiry
  rw [hdrain, runFrom_batch, hreceive, peek_elements, List.map_map]
  rfl

def partlyHidden : List Step :=
  [⟨0, .send "a" [⟨[1], "one", .empty, none, none⟩, ⟨[2], "two", .empty, none, none⟩,
      ⟨[3], "three", .empty, none, none⟩, ⟨[4], "four", .empty, none, none⟩]⟩,
    ⟨1, .receive "a" 1 (some 50)⟩, ⟨2, .delete "a" ["two"]⟩]

theorem batches_agree_partlyHidden :
    (0 : Int) < (some 10 : Option Window).getD usualWindow ∧
      ((drain 5 "a" (some 10) [1, 1]).runFrom (Channels.after usualWindow partlyHidden)).1 =
        .ok [⟨[3], "three", .empty, some 15, some 1⟩, ⟨[4], "four", .empty, some 15, some 1⟩] := by
  have hw : (0 : Int) < (some 10 : Option Window).getD usualWindow := by decide
  have hpos : ∀ k ∈ [(1 : Int), 1], 1 ≤ k := by decide
  obtain ⟨-, hdrain⟩ := (batches_agree usualWindow partlyHidden 5 "a" (some 10) hw).2.1 [1, 1]
    (by decide) hpos
  obtain ⟨taken, htaken, -, hanswer⟩ := hdrain 15 (by rfl)
  refine ⟨hw, hanswer.trans ?_⟩
  subst htaken
  rfl

end Depot.Channel
