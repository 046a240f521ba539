import Depot.Channel.Offload
import Depot.Proofs.Channel.Call
import Mathlib.Algebra.GroupWithZero.Nat
import Mathlib.Data.List.Forall2
import Mathlib.Tactic.Choose
import Mathlib.Tactic.Push

/-!
Batches on their way. The messages of a batch are prepared side by side, and several batches
share the store, its random source, the counters and the inner channels. A turn of a batch
takes one of its messages a step further or ends the batch: with its first failure, or by
forwarding all that is ready in one call. Messages whose batch has failed go on.
-/
namespace Depot.Channel.Offload

inductive Stage
  | due
  | kept
  | unplaced (f : Fault)
  | writing (path : String)
  | written (path : String) (answer : Except Fault Unit)
  | stored (path : String)
  | refused (path : String) (f : Fault)

namespace Stage

def place? : Stage → Option String
  | .writing path | .written path _ | .stored path | .refused path _ => some (Path.normalize path)
  | _ => none

def landed? : Stage → Option String
  | .written path (.ok _) | .stored path => some (Path.normalize path)
  | _ => none

def raised? : Stage → Option Fault
  | .unplaced f | .written _ (.error f) | .refused _ f => some f
  | _ => none

def result? (m : Message) : Stage → Option (Except Fault Message)
  | .kept => some (.ok m)
  | .stored path => some (.ok (envelope m path))
  | .unplaced f | .refused _ f => some (.error f)
  | _ => none

def left : Stage → Nat
  | .due => 3
  | .writing _ => 2
  | .written .. => 1
  | _ => 0

end Stage

structure Item where
  message : Message
  stage : Stage

namespace Item

def result? (x : Item) : Option (Except Fault Message) := x.stage.result? x.message

def progress (x : Item) : Progress :=
  match x.result? with
  | some (.ok m) => .ready m
  | some (.error f) => .failed f
  | none => .pending

def failure? (x : Item) : Option Fault :=
  match x.result? with
  | some (.error f) => some f
  | _ => none

def Fits (o : Offload) (x : Item) : Prop :=
  x.stage = .due ∨ (x.stage = .kept ↔ o.isLarge x.message = false)

end Item

structure Batch where
  offload : Offload
  channel : String
  items : List Item
  /-- The first failure in time. -/
  failure : Option Fault
  answer : Option (Except Fault Unit)

namespace Batch

def begin (o : Offload) (channel : String) (messages : List Message) : Batch :=
  ⟨o, channel, messages.map (⟨·, .due⟩), none, none⟩

def messages (x : Batch) : List Message := x.items.map Item.message

def dispatch (x : Batch) : Dispatch :=
  ⟨x.channel, x.messages, x.items.map Item.progress, x.failure⟩

def move (x : Batch) (i : Nat) (item : Item) : Batch :=
  { x with items := x.items.set i item, failure := x.failure.or item.failure? }

def answered (x : Batch) (a : Except Fault Unit) : Batch := { x with answer := some a }

def left (x : Batch) : Nat :=
  (x.items.map fun item => item.stage.left).sum + if x.answer.isNone then 1 else 0

end Batch

structure Scene (σ : Type) where
  store : Store σ
  batches : List Batch
  /-- The calls on the inner channels, each with the batch that made it, if any. -/
  log : List (Option Nat × Step)

variable {σ : Type}

namespace Scene

def inner (window : Window) (x : Scene σ) : Channels := .after window (x.log.map Prod.snd)

def callsOf (x : Scene σ) (k : Nat) : List Step := (x.log.filter (·.1 = some k)).map Prod.snd

def item? (x : Scene σ) (k i : Nat) : Option Item := x.batches[k]?.bind (·.items[i]?)

def withBatch (x : Scene σ) (k : Nat) (batch : Batch) : Scene σ :=
  { x with batches := x.batches.set k batch }

def put (x : Scene σ) (k : Nat) (batch : Batch) (s : Store σ) : Scene σ :=
  { x.withBatch k batch with store := s }

end Scene

inductive Advance (o : Offload) (b : Storage.Backend σ) (m : Message) (s : Store σ) :
    Stage → Stage → Store σ → Prop
  | keep (hsmall : o.isLarge m = false) : Advance o b m s .due .kept s
  | unplace {f : Fault} (hlarge : o.isLarge m = true) (hpath : o.generator m s.bits = .error f) :
      Advance o b m s .due (.unplaced f) { s with bits := s.bits + 1 }
  | place {path : String} (hlarge : o.isLarge m = true)
      (hpath : o.generator m s.bits = .ok path) :
      Advance o b m s .due (.writing path) { s with bits := s.bits + 1 }
  | write (path : String) :
      Advance o b m s (.writing path)
        (.written path ((b.store (some path) m.content false).runFrom s.storage).1)
        { s with storage := ((b.store (some path) m.content false).runFrom s.storage).2 }
  | store (path : String) :
      Advance o b m s (.written path (.ok ())) (.stored path)
        { s with counters := s.counters.addOffload m.content.length }
  | refuse (path : String) (f : Fault) :
      Advance o b m s (.written path (.error f)) (.refused path f) s

inductive Turn (b : Storage.Backend σ) (window : Window) (k : Nat) (x : Scene σ) : Scene σ → Prop
  | item {batch : Batch} {i : Nat} {item : Item} {stage : Stage} {store : Store σ}
      (hbatch : x.batches[k]? = some batch) (hitem : batch.items[i]? = some item)
      (hstep : Advance batch.offload b item.message x.store item.stage stage store) :
      Turn b window k x (x.put k (batch.move i { item with stage := stage }) store)
  | fail {batch : Batch} {f : Fault}
      (hbatch : x.batches[k]? = some batch) (hopen : batch.answer = none)
      (houtcome : outcome? batch.dispatch = some (.error f)) :
      Turn b window k x (x.withBatch k (batch.answered (.error f)))
  | forward {batch : Batch} {envelopes : List Message} (now : Calendar.Instant)
      (hbatch : x.batches[k]? = some batch) (hopen : batch.answer = none)
      (houtcome : outcome? batch.dispatch = some (.ok envelopes)) :
      Turn b window k x
        { x.withBatch k (batch.answered
            (((Call.send batch.channel envelopes).answer now (x.inner window)).map fun _ => ()))
          with log := x.log ++ [(some k, ⟨now, .send batch.channel envelopes⟩)] }

variable {o : Offload} {b : Storage.Backend σ} {m : Message} {s s' : Store σ}
  {stage stage' : Stage} {item : Item} {batch : Batch} {window : Window} {k i : Nat}
  {x y : Scene σ} {f : Fault} {envelopes : List Message}

/-- A sum over a list after one of its members has changed. -/
theorem sum_map_set {α : Type} (f : α → Nat) {l : List α} {a : α} (h : l[i]? = some a) (a' : α) :
    ((l.set i a').map f).sum + f a = (l.map f).sum + f a' := by
  induction l generalizing i with
  | nil => simp at h
  | cons first rest ih =>
    cases i with
    | zero =>
      obtain rfl : first = a := by simpa using h
      simp only [List.set_cons_zero, List.map_cons, List.sum_cons]
      omega
    | succ i =>
      have hrest := ih (i := i) (by simpa using h)
      simp only [List.set_cons_succ, List.map_cons, List.sum_cons]
      omega

/-- What a batch is answered when it is forwarded. -/
theorem answer_send_unit {now : Calendar.Instant} {channel : String} {c : Channels} :
    ((Call.send channel envelopes).answer now c).map (fun _ => ()) =
      if channel = "" then .error .emptyChannelName else .ok () := by
  rw [Call.answer_send]
  split <;> rfl

namespace Advance

theorem unfinished (h : Advance o b m s stage stage' s') : stage.result? m = none := by
  cases h <;> rfl

theorem possible (o : Offload) (b : Storage.Backend σ) (s : Store σ)
    (hstage : stage.result? m = none) : ∃ stage' s', Advance o b m s stage stage' s' := by
  cases stage with
  | due =>
    cases hlarge : o.isLarge m with
    | false => exact ⟨_, _, .keep hlarge⟩
    | true =>
      cases hpath : o.generator m s.bits with
      | error f => exact ⟨_, _, .unplace hlarge hpath⟩
      | ok path => exact ⟨_, _, .place hlarge hpath⟩
  | writing path => exact ⟨_, _, .write path⟩
  | written path answer =>
    cases answer with
    | error f => exact ⟨_, _, .refuse path f⟩
    | ok _ => exact ⟨_, _, .store path⟩
  | _ => simp [Stage.result?] at hstage

theorem left_lt (h : Advance o b m s stage stage' s') : stage'.left < stage.left := by
  cases h <;> simp [Stage.left]

/-- A place is never changed. -/
theorem place?_eq {p : String} (h : Advance o b m s stage stage' s')
    (hplace : stage.place? = some p) : stage'.place? = some p := by
  cases h <;> first | exact hplace | simp [Stage.place?] at hplace

theorem fits (h : Advance o b m s stage stage' s') (hfits : Item.Fits o ⟨m, stage⟩) :
    Item.Fits o ⟨m, stage'⟩ := by
  cases h with
  | keep hsmall => simp [Item.Fits, hsmall]
  | unplace hlarge hpath => simp [Item.Fits, hlarge]
  | place hlarge hpath => simp [Item.Fits, hlarge]
  | _ => simpa [Item.Fits] using hfits

end Advance

/-- A message that failed raised what it failed with. -/
theorem Item.raised?_of_failure? (h : item.failure? = some f) : item.stage.raised? = some f := by
  obtain ⟨m, stage⟩ := item
  cases stage <;> simp_all [Item.failure?, Item.result?, Stage.result?, Stage.raised?]

namespace Batch

theorem getElem?_move (hitem : batch.items[i]? = some item) (new : Item) (j : Nat) :
    (batch.move i new).items[j]? = if j = i then some new else batch.items[j]? := by
  obtain ⟨hi, -⟩ := List.getElem?_eq_some_iff.mp hitem
  rw [move, List.getElem?_set]
  by_cases hj : i = j
  · simp [← hj, hi]
  · simp [hj, Ne.symm hj]

theorem mem_items_move {new other : Item} (h : other ∈ (batch.move i new).items) :
    other = new ∨ other ∈ batch.items :=
  (List.mem_or_eq_of_mem_set h).symm

theorem messages_move (hitem : batch.items[i]? = some item) (stage : Stage) :
    (batch.move i { item with stage := stage }).messages = batch.messages := by
  apply List.ext_getElem?
  intro j
  rw [messages, messages, List.getElem?_map, List.getElem?_map, getElem?_move hitem]
  split
  · next hj => rw [hj, hitem]; rfl
  · rfl

/-- A message that comes to its end settles its place in the batch. -/
theorem dispatch_move (hitem : batch.items[i]? = some item) {stage : Stage}
    {r : Except Fault Message} (hresult : stage.result? item.message = some r) :
    (batch.move i { item with stage := stage }).dispatch = settle batch.dispatch i r := by
  have hmessages := messages_move hitem stage
  simp only [dispatch, hmessages]
  cases r <;> simp [settle, move, Item.progress, Item.failure?, Item.result?, hresult]

/-- What a batch waits for: every failure is noted, and a noted failure is that of a message. -/
structure Sound (batch : Batch) : Prop where
  fits : ∀ item ∈ batch.items, item.Fits batch.offload
  noted : ∀ item ∈ batch.items, ∀ f, item.failure? = some f → batch.failure ≠ none
  origin : ∀ f, batch.failure = some f → ∃ item ∈ batch.items, item.failure? = some f

theorem due_of_mem_begin {channel : String} {messages : List Message}
    (hitem : item ∈ (begin o channel messages).items) : item.stage = .due := by
  obtain ⟨m, -, rfl⟩ := List.mem_map.mp hitem
  rfl

theorem sound_begin (o : Offload) (channel : String) (messages : List Message) :
    (begin o channel messages).Sound := by
  refine ⟨fun item hitem => Or.inl (due_of_mem_begin hitem), fun item hitem f hf => ?_,
    by simp [begin]⟩
  simp [Item.failure?, Item.result?, due_of_mem_begin hitem, Stage.result?] at hf

theorem Sound.move (h : batch.Sound) (hitem : batch.items[i]? = some item)
    (hstep : Advance batch.offload b item.message s item.stage stage s') :
    (batch.move i { item with stage := stage }).Sound := by
  have hmem := List.mem_of_getElem? hitem
  have hmoved := getElem?_move hitem { item with stage := stage }
  -- What moves has not come to its end, so what had is still there.
  have hkept : ∀ other ∈ batch.items, ∀ f, other.failure? = some f →
      other ∈ (batch.move i { item with stage := stage }).items := by
    intro other hother f hf
    obtain ⟨j, hj⟩ := List.mem_iff_getElem?.mp hother
    have hne : j ≠ i := by
      rintro rfl
      obtain rfl : item = other := Option.some.inj (hitem.symm.trans hj)
      simp [Item.failure?, Item.result?, hstep.unfinished] at hf
    exact List.mem_of_getElem? (((hmoved j).trans (if_neg hne)).trans hj)
  refine ⟨fun other hother => ?_, fun other hother f hf => ?_, fun f hf => ?_⟩
  · rcases mem_items_move hother with rfl | hold
    · exact hstep.fits (h.fits item hmem)
    · exact h.fits other hold
  · rcases mem_items_move hother with rfl | hold
    · simp [Batch.move, hf]
    · simp [Batch.move, h.noted other hold f hf]
  · rcases Option.or_eq_some_iff.mp hf with hfirst | ⟨-, hnew⟩
    · obtain ⟨other, hother, hfailed⟩ := h.origin f hfirst
      exact ⟨other, hkept other hother f hfailed, hfailed⟩
    · exact ⟨_, List.mem_of_getElem? ((hmoved i).trans (if_pos rfl)), hnew⟩

inductive Accounted (batch : Batch) : List Step → Prop
  | unanswered (hopen : batch.answer = none) : Accounted batch []
  | failed {f : Fault} (hfailure : batch.failure = some f)
      (hanswer : batch.answer = some (.error f)) : Accounted batch []
  | forwarded {envelopes : List Message} (now : Calendar.Instant)
      (houtcome : outcome? batch.dispatch = some (.ok envelopes))
      (hanswer : batch.answer =
        some (if batch.channel = "" then .error .emptyChannelName else .ok ())) :
      Accounted batch [⟨now, .send batch.channel envelopes⟩]

theorem Accounted.eq_nil {calls : List Step} (h : batch.Accounted calls)
    (hopen : batch.answer = none) : calls = [] := by
  cases h with
  | unanswered _ => rfl
  | failed _ hanswer => rfl
  | forwarded now _ hanswer => simp [hanswer] at hopen

theorem outcome?_eq_error :
    outcome? batch.dispatch = some (.error f) ↔ batch.failure = some f := by
  unfold outcome? dispatch
  cases batch.failure <;> simp

theorem mapM_readyMessage? (items : List Item) :
    (items.map Item.progress).mapM readyMessage? = some envelopes ↔
      List.Forall₂ (fun item e => item.result? = some (.ok e)) items envelopes := by
  induction items generalizing envelopes with
  | nil => cases envelopes <;> simp
  | cons item rest ih =>
    rw [List.map_cons, List.mapM_cons, Item.progress]
    cases hresult : item.result? with
    | none => cases envelopes <;> simp [hresult, readyMessage?]
    | some r =>
      cases r with
      | error f => cases envelopes <;> simp [hresult, readyMessage?]
      | ok e =>
        cases hrest : (rest.map Item.progress).mapM readyMessage? with
        | none => cases envelopes <;> simp [← ih, hrest, hresult, readyMessage?]
        | some others => cases envelopes <;> simp [← ih, hrest, hresult, readyMessage?]

/-- All is ready just when every message has come to something to forward. -/
theorem outcome?_eq_ok :
    outcome? batch.dispatch = some (.ok envelopes) ↔ batch.failure = none ∧
      List.Forall₂ (fun item e => item.result? = some (.ok e)) batch.items envelopes := by
  rw [← mapM_readyMessage?]
  unfold outcome? dispatch
  cases batch.failure <;> simp

/-- A batch that cannot end yet has a message on its way. -/
theorem Sound.exists_unfinished (h : batch.Sound) (houtcome : outcome? batch.dispatch = none) :
    ∃ (i : Nat) (item : Item), batch.items[i]? = some item ∧ item.result? = none := by
  by_contra hnot
  push Not at hnot
  have hfailure : batch.failure = none := by
    cases hf : batch.failure with
    | none => rfl
    | some f => simp [outcome?_eq_error.mpr hf] at houtcome
  have hready : ∀ item ∈ batch.items, ∃ e, item.result? = some (.ok e) := by
    intro item hitem
    obtain ⟨i, hi⟩ := List.mem_iff_getElem?.mp hitem
    cases hresult : item.result? with
    | none => exact absurd hresult (hnot i item hi)
    | some r =>
      cases r with
      | ok e => exact ⟨e, rfl⟩
      | error f => exact absurd hfailure (h.noted item hitem f (by simp [Item.failure?, hresult]))
  have : Nonempty Message := ⟨⟨[], "", .empty, none, none⟩⟩
  choose! e he using hready
  have hok : outcome? batch.dispatch = some (.ok (batch.items.map e)) :=
    outcome?_eq_ok.mpr ⟨hfailure, List.forall₂_map_right_iff.mpr (List.forall₂_same.mpr he)⟩
  simp [hok] at houtcome

theorem Accounted.move {calls : List Step} (h : batch.Accounted calls)
    (hitem : batch.items[i]? = some item)
    (hstep : Advance batch.offload b item.message s item.stage stage s') :
    (batch.move i { item with stage := stage }).Accounted calls := by
  cases h with
  | unanswered hopen => exact .unanswered hopen
  | failed hfailure hanswer => exact .failed (by simp [Batch.move, hfailure]) hanswer
  | forwarded now houtcome hanswer =>
    -- Every message of a batch that was forwarded has come to its end.
    obtain ⟨-, hready⟩ := outcome?_eq_ok.mp houtcome
    obtain ⟨hi, hget⟩ := List.getElem?_eq_some_iff.mp hitem
    have hresult := hready.get hi (hready.length_eq ▸ hi)
    rw [List.get_eq_getElem, hget, Item.result?, hstep.unfinished] at hresult
    cases hresult

end Batch

namespace Scene

theorem callsOf_concat (log : List (Option Nat × Step)) (tag : Option Nat) (call : Step) (k : Nat) :
    callsOf { x with log := log ++ [(tag, call)] } k =
      callsOf { x with log := log } k ++ if tag = some k then [call] else [] := by
  simp only [callsOf, List.filter_append, List.map_append]
  by_cases htag : tag = some k <;> simp [htag]

theorem getElem?_withBatch (hbatch : x.batches[k]? = some batch) (batch' : Batch) (j : Nat) :
    (x.withBatch k batch').batches[j]? = if j = k then some batch' else x.batches[j]? := by
  obtain ⟨hk, -⟩ := List.getElem?_eq_some_iff.mp hbatch
  rw [withBatch, List.getElem?_set]
  by_cases hj : k = j
  · simp [← hj, hk]
  · simp [hj, Ne.symm hj]

structure Sound (x : Scene σ) : Prop where
  batches : ∀ (k : Nat) (batch : Batch), x.batches[k]? = some batch → batch.Sound
  accounts : ∀ (k : Nat) (batch : Batch), x.batches[k]? = some batch → batch.Accounted (x.callsOf k)
  strangers : ∀ k, x.batches[k]? = none → x.callsOf k = []

/-- What one batch did leaves the others as they were. -/
theorem Sound.withBatch (h : x.Sound) (hbatch : x.batches[k]? = some batch) {batch' : Batch}
    {store : Store σ} {log : List (Option Nat × Step)}
    (hothers : ∀ j, j ≠ k → callsOf { x with log := log } j = x.callsOf j)
    (hsound : batch'.Sound) (haccount : batch'.Accounted (callsOf { x with log := log } k)) :
    Sound { x.withBatch k batch' with store := store, log := log } := by
  have hget := getElem?_withBatch hbatch batch'
  refine ⟨fun j other hother => ?_, fun j other hother => ?_, fun j hnone => ?_⟩
  · replace hother := (hget j).symm.trans hother
    split at hother
    · exact Option.some.inj hother ▸ hsound
    · exact h.batches j other hother
  · replace hother := (hget j).symm.trans hother
    split at hother
    · next hj =>
      subst hj
      exact Option.some.inj hother ▸ haccount
    · next hj =>
      have haccount := h.accounts j other hother
      rw [← hothers j hj] at haccount
      exact haccount
  · replace hnone := (hget j).symm.trans hnone
    split at hnone
    · cases hnone
    · next hj => exact (hothers j hj).trans (h.strangers j hnone)

end Scene

namespace Turn

theorem sound (h : Turn b window k x y) (hsound : x.Sound) : y.Sound := by
  cases h with
  | item hbatch hitem hstep =>
    exact hsound.withBatch hbatch (fun _ _ => rfl) ((hsound.batches k _ hbatch).move hitem hstep)
      ((hsound.accounts k _ hbatch).move hitem hstep)
  | fail hbatch hopen houtcome =>
    have hcalls : x.callsOf k = [] := (hsound.accounts k _ hbatch).eq_nil hopen
    obtain ⟨hfits, hnoted, horigin⟩ := hsound.batches k _ hbatch
    refine hsound.withBatch hbatch (fun _ _ => rfl) ⟨hfits, hnoted, horigin⟩ ?_
    change Batch.Accounted _ (x.callsOf k)
    rw [hcalls]
    exact .failed (Batch.outcome?_eq_error.mp houtcome) rfl
  | @forward batch envelopes now hbatch hopen houtcome =>
    have hcalls : x.callsOf k = [] := (hsound.accounts k _ hbatch).eq_nil hopen
    obtain ⟨hfits, hnoted, horigin⟩ := hsound.batches k _ hbatch
    refine hsound.withBatch hbatch (fun j hj => ?_) ⟨hfits, hnoted, horigin⟩ ?_
    · rw [Scene.callsOf_concat, if_neg (by simpa using Ne.symm hj), List.append_nil]
    · rw [Scene.callsOf_concat, if_pos rfl]
      change Batch.Accounted _ (x.callsOf k ++ _)
      rw [hcalls]
      exact .forwarded now houtcome (congrArg some answer_send_unit)

/-- A batch that was not answered can go on. -/
theorem possible (b : Storage.Backend σ) (window : Window) (h : batch.Sound)
    (hbatch : x.batches[k]? = some batch) (hopen : batch.answer = none) :
    ∃ y, Turn b window k x y := by
  cases houtcome : outcome? batch.dispatch with
  | none =>
    obtain ⟨i, item, hitem, hresult⟩ := h.exists_unfinished houtcome
    obtain ⟨stage, store, hstep⟩ := Advance.possible batch.offload b x.store hresult
    exact ⟨_, .item hbatch hitem hstep⟩
  | some r =>
    cases r with
    | error f => exact ⟨_, .fail hbatch hopen houtcome⟩
    | ok envelopes => exact ⟨_, .forward 0 hbatch hopen houtcome⟩

/-- A batch has fewer turns to come after each of them. -/
theorem left_lt (h : Turn b window k x y) :
    ∃ batch batch', x.batches[k]? = some batch ∧ y.batches[k]? = some batch' ∧
      batch'.left < batch.left := by
  cases h with
  | @item batch i item stage store hbatch hitem hstep =>
    refine ⟨batch, _, hbatch, (Scene.getElem?_withBatch hbatch _ k).trans (if_pos rfl), ?_⟩
    have hsum := sum_map_set (fun item => item.stage.left) hitem { item with stage := stage }
    have hlt := hstep.left_lt
    refine Nat.add_lt_add_right (m := (batch.items.map fun item => item.stage.left).sum) ?_ _
    change ((batch.items.set i _).map fun item => item.stage.left).sum < _
    dsimp only at hsum ⊢
    omega
  | @fail batch f hbatch hopen houtcome =>
    refine ⟨batch, _, hbatch, (Scene.getElem?_withBatch hbatch _ k).trans (if_pos rfl), ?_⟩
    simp [Batch.left, Batch.answered, hopen]
  | @forward batch envelopes now hbatch hopen houtcome =>
    refine ⟨batch, _, hbatch, (Scene.getElem?_withBatch hbatch _ k).trans (if_pos rfl), ?_⟩
    simp [Batch.left, Batch.answered, hopen]

end Turn

end Depot.Channel.Offload
