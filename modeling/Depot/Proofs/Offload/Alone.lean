import Depot.Proofs.Offload.Course

/-!
A batch on its own. Its turns follow each other in any order, and there are only so many of
them. To prepare its messages one after another and to forward them then is one way.
-/
namespace Depot.Channel.Offload

variable {σ : Type}

inductive Turns (b : Storage.Backend σ) (window : Window) (k : Nat) (x : Scene σ) :
    Nat → Scene σ → Prop
  | start : Turns b window k x 0 x
  | next {n : Nat} {y z : Scene σ} (h : Turns b window k x n y) (hturn : Turn b window k y z) :
      Turns b window k x (n + 1) z

variable {o : Offload} {b : Storage.Backend σ} {m : Message} {s s' : Store σ}
  {stage stage' : Stage} {item : Item} {batch batch' : Batch} {window : Window} {k i n l : Nat}
  {x y z : Scene σ}

theorem Turns.trans (h : Turns b window k x n y) (h' : Turns b window k y l z) :
    Turns b window k x (n + l) z := by
  induction h' with
  | start => exact h
  | next _ hturn ih => exact ih.next hturn

theorem Turns.sound (h : Turns b window k x n y) (hsound : x.Sound) : y.Sound := by
  induction h with
  | start => exact hsound
  | next _ hturn ih => exact hturn.sound ih

namespace Batch

/-- Steps on the way leave no trace. -/
theorem move_move (hunfinished : item.result? = none) (new : Item) :
    (batch.move i item).move i new = batch.move i new := by
  have hfailure : item.failure? = none := by simp [Item.failure?, hunfinished]
  simp [move, hfailure]

theorem move_self (hitem : batch.items[i]? = some item) (hunfinished : item.result? = none) :
    batch.move i item = batch := by
  have hfailure : item.failure? = none := by simp [Item.failure?, hunfinished]
  obtain ⟨hi, rfl⟩ := List.getElem?_eq_some_iff.mp hitem
  simp [move, hfailure]

end Batch

namespace Scene

theorem put_put (x : Scene σ) (k : Nat) (batch batch' : Batch) (s s' : Store σ) :
    (x.put k batch s).put k batch' s' = x.put k batch' s' := by
  simp [put, withBatch]

theorem put_self (hbatch : x.batches[k]? = some batch) : x.put k batch x.store = x := by
  obtain ⟨hk, rfl⟩ := List.getElem?_eq_some_iff.mp hbatch
  simp [put, withBatch]

end Scene

/-- A message that is on its way takes one more step. -/
theorem Turns.step (hbatch : x.batches[k]? = some batch) (hitem : batch.items[i]? = some item)
    (h : Turns b window k x n (x.put k (batch.move i ⟨m, stage⟩) s))
    (hstep : Advance batch.offload b m s stage stage' s') :
    Turns b window k x (n + 1) (x.put k (batch.move i ⟨m, stage'⟩) s') := by
  have hthere : (x.put k (batch.move i ⟨m, stage⟩) s).batches[k]? =
      some (batch.move i ⟨m, stage⟩) :=
    (Scene.getElem?_withBatch hbatch _ k).trans (if_pos rfl)
  have hmoved := (Batch.getElem?_move hitem ⟨m, stage⟩ i).trans (if_pos rfl)
  have hunfinished : Item.result? ⟨m, stage⟩ = none := hstep.unfinished
  have hnext := h.next (.item hthere hmoved hstep)
  rw [Batch.move_move hunfinished, Scene.put_put] at hnext
  exact hnext

/-- To prepare a message is to take all its steps. -/
theorem prepare_turns (b : Storage.Backend σ) (window : Window)
    (hbatch : x.batches[k]? = some batch) (hitem : batch.items[i]? = some ⟨m, .due⟩) :
    ∃ n stage, stage.result? m = some (batch.offload.prepare b m x.store).1 ∧
      Turns b window k x n
        (x.put k (batch.move i ⟨m, stage⟩) (batch.offload.prepare b m x.store).2) := by
  have hstart : Turns b window k x 0 (x.put k (batch.move i ⟨m, .due⟩) x.store) := by
    rw [Batch.move_self hitem rfl, Scene.put_self hbatch]
    exact .start
  unfold prepare
  cases hlarge : batch.offload.isLarge m with
  | false => exact ⟨_, _, rfl, hstart.step hbatch hitem (.keep hlarge)⟩
  | true =>
    simp only [if_true]
    cases hpath : batch.offload.generator m x.store.bits with
    | error f => exact ⟨_, _, rfl, hstart.step hbatch hitem (.unplace hlarge hpath)⟩
    | ok path =>
      have hwritten := (hstart.step hbatch hitem (.place hlarge hpath)).step hbatch hitem
        (.write path)
      dsimp only at hwritten ⊢
      generalize (b.store (some path) m.content false).runFrom x.store.storage = outcome
        at hwritten ⊢
      obtain ⟨answer, storage⟩ := outcome
      cases answer with
      | error f => exact ⟨_, _, rfl, hwritten.step hbatch hitem (.refuse path f)⟩
      | ok _ => exact ⟨_, _, rfl, hwritten.step hbatch hitem (.store path)⟩

/-- To prepare messages one after another is to take turns, until none of them is left. -/
theorem prepareInOrder_turns (b : Storage.Backend σ) (window : Window) (l : List (Nat × Message))
    (hbatch : x.batches[k]? = some batch) (hnodup : (l.map Prod.fst).Nodup)
    (hdue : ∀ e ∈ l, batch.items[e.1]? = some ⟨e.2, .due⟩) :
    ∃ n items failure,
      let batch' : Batch := { batch with items := items, failure := failure }
      Turns b window k x n
        (x.put k batch' (batch.offload.prepareInOrder b l (batch.dispatch, x.store)).2) ∧
      batch'.dispatch = (batch.offload.prepareInOrder b l (batch.dispatch, x.store)).1 ∧
      ∀ (j : Nat) (item : Item), items[j]? = some item → item.result? = none →
        batch.items[j]? = some item ∧ j ∉ l.map Prod.fst := by
  induction l generalizing x batch with
  | nil =>
    refine ⟨0, batch.items, batch.failure, ?_, rfl, fun j item hitem _ => ⟨hitem, by simp⟩⟩
    change Turns b window k x 0 (x.put k batch x.store)
    rw [Scene.put_self hbatch]
    exact .start
  | cons e rest ih =>
    obtain ⟨i, m⟩ := e
    have hitem := hdue (i, m) List.mem_cons_self
    obtain ⟨hfresh, hnodup'⟩ := List.nodup_cons.mp hnodup
    obtain ⟨n, stage, hresult, hturns⟩ := prepare_turns b window hbatch hitem
    rw [prepareInOrder]
    generalize batch.offload.prepare b m x.store = outcome at hresult hturns
    obtain ⟨r, s⟩ := outcome
    have hthere : (x.put k (batch.move i ⟨m, stage⟩) s).batches[k]? =
        some (batch.move i ⟨m, stage⟩) :=
      (Scene.getElem?_withBatch hbatch _ k).trans (if_pos rfl)
    have hrest : ∀ e ∈ rest, (batch.move i ⟨m, stage⟩).items[e.1]? = some ⟨e.2, .due⟩ := by
      intro e he
      have hne : e.1 ≠ i := fun heq => hfresh (List.mem_map.mpr ⟨e, he, heq⟩)
      rw [Batch.getElem?_move hitem, if_neg hne]
      exact hdue e (List.mem_cons_of_mem _ he)
    obtain ⟨n', items, failure, hturns', hdispatch, hleft⟩ := ih hthere hnodup' hrest
    rw [Scene.put_put] at hturns'
    rw [Batch.dispatch_move hitem hresult] at hturns' hdispatch
    refine ⟨n + n', items, failure, hturns.trans hturns', hdispatch, fun j item hj hnone => ?_⟩
    obtain ⟨hold, hnot⟩ := hleft j item hj hnone
    rw [Batch.getElem?_move hitem] at hold
    split at hold
    · -- What was prepared has come to its end.
      obtain rfl := Option.some.inj hold
      simp [Item.result?, hresult] at hnone
    · next hne => exact ⟨hold, by simp [hne, hnot]⟩

theorem Batch.dispatch_begin (o : Offload) (channel : String) (messages : List Message) :
    (Batch.begin o channel messages).dispatch = Offload.dispatch channel messages := by
  simp [Batch.dispatch, Batch.begin, Batch.messages, Offload.dispatch, Function.comp_def,
    Item.progress, Item.result?, Stage.result?]

def Scene.alone (o : Offload) (channel : String) (messages : List Message) (s : Store σ)
    (past : List Step) : Scene σ :=
  ⟨s, [.begin o channel messages], past.map (Prod.mk none)⟩

theorem Scene.callsOf_alone (o : Offload) (channel : String) (messages : List Message)
    (s : Store σ) (past : List Step) (k : Nat) :
    (Scene.alone o channel messages s past).callsOf k = [] := by
  simp [Scene.callsOf, Scene.alone, List.filter_map, Function.comp_def]

theorem Scene.sound_alone (o : Offload) (channel : String) (messages : List Message)
    (s : Store σ) (past : List Step) : (Scene.alone o channel messages s past).Sound := by
  have hcalls := Scene.callsOf_alone o channel messages s past
  have hbegin : ∀ (k : Nat) (batch : Batch),
      (Scene.alone o channel messages s past).batches[k]? = some batch →
      batch = .begin o channel messages :=
    fun k batch hbatch => List.mem_singleton.mp (List.mem_of_getElem? hbatch)
  refine ⟨fun k batch hbatch => ?_, fun k batch hbatch => ?_, fun k _ => hcalls k⟩
  · exact hbegin k batch hbatch ▸ Batch.sound_begin o channel messages
  · rw [hcalls, hbegin k batch hbatch]
    exact .unanswered rfl

/-- What a batch on its own has come to after some turns: it is the one that was begun, all
calls since then are its own, and only so many turns are left. -/
structure Alone (o : Offload) (channel : String) (messages : List Message) (past : List Step)
    (n : Nat) (x : Scene σ) (batch : Batch) : Prop where
  only : x.batches = [batch]
  offload_eq : batch.offload = o
  channel_eq : batch.channel = channel
  messages_eq : batch.messages = messages
  log_eq : x.log = past.map (Prod.mk none) ++ (x.callsOf 0).map (Prod.mk (some 0))
  turns_le : n + batch.left ≤ 3 * messages.length + 1

variable {channel : String} {messages : List Message} {past : List Step}

theorem Alone.start (o : Offload) (channel : String) (messages : List Message) (s : Store σ)
    (past : List Step) :
    Alone o channel messages past 0 (.alone o channel messages s past)
      (.begin o channel messages) := by
  refine ⟨rfl, rfl, rfl, ?_, ?_, ?_⟩
  · simp [Batch.messages, Batch.begin, Function.comp_def]
  · rw [Scene.callsOf_alone, List.map_nil, List.append_nil]
    rfl
  · have hleft : (Batch.begin o channel messages).left = messages.length * 3 + 1 := by
      simp [Batch.left, Batch.begin, Function.comp_def, Stage.left]
    omega

/-- A turn of a batch on its own: one of its messages takes a step, or it is answered. -/
theorem Alone.turn (h : Alone o channel messages past n x batch)
    (hturn : Turn b window 0 x y) :
    ∃ batch', Alone o channel messages past (n + 1) y batch' ∧
      ((∃ (i : Nat) (item : Item) (stage : Stage), batch.items[i]? = some item ∧
        Advance o b item.message x.store item.stage stage y.store ∧
        batch' = batch.move i { item with stage := stage }) ∨
      (y.store = x.store ∧ batch'.items = batch.items)) := by
  obtain ⟨batch₀, batch', hbatch₀, hbatch', hlt⟩ := hturn.left_lt
  have hself : ∀ batch₁, x.batches[0]? = some batch₁ → batch₁ = batch := by
    intro batch₁ hbatch₁
    rw [h.only] at hbatch₁
    exact (Option.some.inj hbatch₁).symm
  obtain rfl := hself batch₀ hbatch₀
  have hleft : n + 1 + batch'.left ≤ 3 * messages.length + 1 := by
    have hturns := h.turns_le
    omega
  have honly := h.only
  cases hturn with
  | @item batch₁ i item stage store hbatch hitem hstep =>
    obtain rfl := hself batch₁ hbatch
    have hbatches : (x.put 0 (batch₁.move i { item with stage := stage }) store).batches =
        [batch₁.move i { item with stage := stage }] := by
      simp [Scene.put, Scene.withBatch, honly]
    rw [hbatches] at hbatch'
    obtain rfl := Option.some.inj hbatch'
    refine ⟨_, ⟨hbatches, h.offload_eq, h.channel_eq, ?_, h.log_eq, hleft⟩,
      Or.inl ⟨i, item, stage, hitem, h.offload_eq ▸ hstep, rfl⟩⟩
    rw [Batch.messages_move hitem, h.messages_eq]
  | @fail batch₁ f hbatch hopen houtcome =>
    obtain rfl := hself batch₁ hbatch
    have hbatches : (x.withBatch 0 (batch₁.answered (.error f))).batches =
        [batch₁.answered (.error f)] := by
      simp [Scene.withBatch, honly]
    rw [hbatches] at hbatch'
    obtain rfl := Option.some.inj hbatch'
    exact ⟨_, ⟨hbatches, h.offload_eq, h.channel_eq, h.messages_eq, h.log_eq, hleft⟩,
      Or.inr ⟨rfl, rfl⟩⟩
  | @forward batch₁ envelopes now hbatch hopen houtcome =>
    obtain rfl := hself batch₁ hbatch
    have hbatches (a : Except Fault Unit) :
        (x.withBatch 0 (batch₁.answered a)).batches = [batch₁.answered a] := by
      simp [Scene.withBatch, honly]
    replace hbatch' := (congrArg (·[0]?) (hbatches _)).symm.trans hbatch'
    obtain rfl := Option.some.inj hbatch'
    refine ⟨_, ⟨hbatches _, h.offload_eq, h.channel_eq, h.messages_eq, ?_, hleft⟩,
      Or.inr ⟨rfl, rfl⟩⟩
    rw [Scene.callsOf_concat, if_pos rfl, List.map_append, ← List.append_assoc]
    exact congrArg (· ++ _) h.log_eq

theorem Turns.alone {s : Store σ}
    (h : Turns b window 0 (.alone o channel messages s past) n y) :
    ∃ batch, Alone o channel messages past n y batch := by
  induction h with
  | start => exact ⟨_, .start o channel messages s past⟩
  | next _ hturn ih =>
    obtain ⟨batch, halone⟩ := ih
    obtain ⟨batch', halone', -⟩ := halone.turn hturn
    exact ⟨batch', halone'⟩

theorem answer_send_map (now : Calendar.Instant) (channel : String) (messages : List Message)
    (c : Channels) :
    ((Call.send channel messages).answer now c).map (fun _ => ()) =
      (c.send channel messages).map fun _ => () := by
  rw [answer_send_unit, Channels.send_eq]
  split <;> rfl

theorem apply_send_of_ok {channel : String} {messages : List Message} {c c' : Channels}
    (now : Calendar.Instant) (h : c.send channel messages = .ok c') :
    (Call.send channel messages).apply now c = c' := by
  rw [Channels.send_eq] at h
  rw [Call.apply_send]
  split at h
  · cases h
  · next hname =>
    rw [if_neg hname]
    exact Except.ok.inj h

/-- To send a batch is to take its turns until it is answered. -/
theorem send_turns (o : Offload) (b : Storage.Backend σ) (channel : String)
    (messages : List Message) (window : Window) (s : Store σ) (past : List Step) :
    let outcome := o.send b channel messages s (.after window past)
    ∃ n y batch, Turns b window 0 (.alone o channel messages s past) n y ∧
      y.store = outcome.2 ∧ y.batches = [batch] ∧
      batch.answer = some (outcome.1.map fun _ => ()) ∧
      ∀ c, outcome.1 = .ok c → y.inner window = c := by
  have hlength : (List.range messages.length).length ≤ messages.length := by simp
  obtain ⟨n, items, failure, hturns, hdispatch, hleft⟩ :=
    prepareInOrder_turns (x := .alone o channel messages s past) (k := 0) b window
      ((List.range messages.length).zip messages) rfl
      (by rw [List.map_fst_zip hlength]; exact List.nodup_range)
      (by
        intro e he
        obtain ⟨i, hi, rfl⟩ := List.mem_iff_getElem.mp he
        simp [Batch.begin])
  have hsound := (hturns.sound (Scene.sound_alone o channel messages s past)).batches 0 _ rfl
  rw [Batch.dispatch_begin] at hturns hdispatch
  dsimp only [send]
  change Turns b window 0 _ n (Scene.put _ 0 ⟨o, channel, items, failure, none⟩
    (o.prepareInOrder b _ (Offload.dispatch channel messages, s)).2) at hturns
  change Batch.dispatch ⟨o, channel, items, failure, none⟩ =
    (o.prepareInOrder b _ (Offload.dispatch channel messages, s)).1 at hdispatch
  generalize o.prepareInOrder b ((List.range messages.length).zip messages)
    (Offload.dispatch channel messages, s) = prepared at hturns hdispatch ⊢
  obtain ⟨d, s'⟩ := prepared
  obtain rfl : _ = d := hdispatch
  dsimp only at hturns ⊢
  cases houtcome : outcome? (Batch.dispatch ⟨o, channel, items, failure, none⟩) with
  | none =>
    -- Nothing is on its way any more, so that the batch has an outcome.
    obtain ⟨j, item, hitem, hnone⟩ := hsound.exists_unfinished houtcome
    obtain ⟨hthere, hnot⟩ := hleft j item hitem hnone
    obtain ⟨hj, -⟩ := List.getElem?_eq_some_iff.mp hthere
    rw [List.map_fst_zip hlength, List.mem_range] at hnot
    simp [Batch.begin] at hj
    exact absurd hj hnot
  | some r =>
    cases r with
    | error f =>
      exact ⟨_, _, _, hturns.next (.fail rfl rfl houtcome), rfl, rfl, rfl, by simp⟩
    | ok envelopes =>
      have hinner : Channels.after window ((past.map (Prod.mk (none : Option Nat))).map Prod.snd) =
          .after window past := by simp [Function.comp_def]
      refine ⟨_, _, _, hturns.next (.forward 0 rfl rfl houtcome), rfl, rfl, ?_, fun c hc => ?_⟩
      · exact congrArg some ((answer_send_map 0 _ _ _).trans (by rw [← hinner]; rfl))
      · change Channels.after window (List.map Prod.snd (past.map (Prod.mk none) ++ [_])) = c
        rw [List.map_append, List.map_singleton, Channels.after_concat, hinner]
        exact apply_send_of_ok 0 hc

end Depot.Channel.Offload
