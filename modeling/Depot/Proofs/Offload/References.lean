import Depot.Proofs.Channel.Standing
import Depot.Proofs.Memory.Interleaving
import Depot.Proofs.Offload.Course
import Mathlib.Logic.Relation

/-!
What stands in a channel for a large payload. While several batches go on, whatever a batch
forwards tells where its payloads are, and they are there already. A batch in which a
generator or a write raises forwards nothing.
-/
namespace Depot.Channel.Offload

variable {σ : Type}

/-- A store in which a file that was written can be read, and keeps what it holds while
others are written. -/
structure KeepsFiles (b : Storage.Backend σ) : Prop where
  written : ∀ s p data, Path.normalize p = p → p ≠ Path.root →
    ((b.write p data false).runFrom s).1 = .ok () →
    b.read ((b.write p data false).runFrom s).2 p = .ok data
  others : ∀ s p data q content, Path.normalize p = p → p ≠ Path.root → q ≠ p →
    b.read s q = .ok content → b.read ((b.write p data false).runFrom s).2 q = .ok content

/-- What stands for a message: itself if it is small, and otherwise an envelope that tells
under which path its payload can be read. -/
inductive Stands (o : Offload) (b : Storage.Backend σ) (storage : σ) (m : Message) : Message → Prop
  | small (hsmall : o.isLarge m = false) : Stands o b storage m m
  | large {q : String} (hlarge : o.isLarge m = true) (hnormal : Path.normalize q = q)
      (hthere : b.fetch? (some q) storage = .ok (some m.content)) :
      Stands o b storage m
        { m with content := [], properties := m.properties.insert Message.offloadProperty q }

def Batch.places (x : Batch) : List String := x.items.filterMap fun item => item.stage.place?

namespace Scene

def Lands (b : Storage.Backend σ) (x : Scene σ) : Prop :=
  ∀ (k i : Nat) (item : Item) (p : String), x.item? k i = some item →
    item.stage.landed? = some p → p ≠ Path.root ∧
      b.read x.store.storage p = .ok item.message.content

def places (x : Scene σ) : List String := x.batches.flatMap Batch.places

def PlacesApart (x : Scene σ) : Prop :=
  ∀ (k i j l : Nat) (item other : Item) (p : String), x.item? k i = some item →
    x.item? j l = some other → item.stage.place? = some p → other.stage.place? = some p →
    k = j ∧ i = l

end Scene

/-- What can happen while batches are on their way: a turn of one of them, a new batch,
something in the store that leaves the payloads in it alone, and a call of someone else on
the inner channels. -/
inductive Move (b : Storage.Backend σ) (window : Window) (x : Scene σ) : Scene σ → Prop
  | turn {y : Scene σ} (k : Nat) (h : Turn b window k x y) : Move b window x y
  | begin (o : Offload) (channel : String) (messages : List Message) :
      Move b window x { x with batches := x.batches ++ [.begin o channel messages] }
  | others (store : Store σ)
      (hkept : ∀ (k i : Nat) (item : Item) (p : String), x.item? k i = some item →
        item.stage.landed? = some p → b.read store.storage p = b.read x.store.storage p) :
      Move b window x { x with store := store }
  | call (s : Step) : Move b window x { x with log := x.log ++ [(none, s)] }

variable {o : Offload} {b : Storage.Backend σ} {m e : Message} {s s' : Store σ} {t : σ}
  {stage stage' : Stage} {item other : Item} {batch : Batch} {window : Window} {k i j l : Nat}
  {x y : Scene σ} {p q path : String} {data content : Bytes}

theorem keepsFiles_memory (c : Storage.Memory.Config) : KeepsFiles (Storage.Memory.backend c) := by
  have hread (t : Storage.Memory.State) (p : String) :
      (Storage.Memory.backend c).read t p = t.table.read p := rfl
  refine ⟨fun s p data _ _ hok => ?_, fun s p data q content _ _ hne hold => ?_⟩
  · rw [Storage.Memory.runFrom_write] at hok ⊢
    obtain ⟨metadata, hput⟩ := Storage.Memory.write_eq_ok hok
    simp only [hread, hput, Storage.Memory.Table.read, Storage.Memory.Table.put,
      OrderedMap.get?_insert, if_true, Storage.Memory.Table.written]
    split <;> rfl
  · rw [hread] at hold ⊢
    rw [Storage.Memory.runFrom_write, Storage.Memory.Table.read,
      (Storage.Memory.Table.SameAt.write c.limit hne data false).1]
    exact hold

namespace KeepsFiles

theorem store_ok (hb : KeepsFiles b)
    (hok : ((b.store (some path) data false).runFrom t).1 = .ok ()) :
    Path.normalize path ≠ Path.root ∧
      b.read ((b.store (some path) data false).runFrom t).2 (Path.normalize path) = .ok data := by
  simp only [Storage.Backend.store, Storage.runFrom_onFile] at hok ⊢
  cases hpath : Storage.filePath (some path) with
  | error f => simp [hpath] at hok
  | ok q =>
    obtain ⟨rfl, hroot⟩ := Storage.filePath_eq_ok.mp hpath
    simp only [hpath] at hok ⊢
    exact ⟨hroot, hb.written t _ data (Path.normalize_normalize _) hroot hok⟩

theorem store_other (hb : KeepsFiles b) (hne : Path.normalize path ≠ q)
    (hread : b.read t q = .ok content) :
    b.read ((b.store (some path) data false).runFrom t).2 q = .ok content := by
  simp only [Storage.Backend.store, Storage.runFrom_onFile]
  cases hpath : Storage.filePath (some path) with
  | error f => exact hread
  | ok p =>
    obtain ⟨rfl, hroot⟩ := Storage.filePath_eq_ok.mp hpath
    exact hb.others t _ data q content (Path.normalize_normalize _) hroot (Ne.symm hne) hread

end KeepsFiles

theorem Stage.place?_of_landed? (h : stage.landed? = some p) : stage.place? = some p := by
  cases stage with
  | written path answer =>
    cases answer with
    | ok _ => exact h
    | error f => simp [landed?] at h
  | stored path => exact h
  | _ => simp [landed?] at h

namespace Advance

/-- A step changes no file but the one in the place of its message. -/
theorem read_other (hb : KeepsFiles b) (h : Advance o b m s stage stage' s')
    (hne : stage'.place? ≠ some q) (hread : b.read s.storage q = .ok content) :
    b.read s'.storage q = .ok content := by
  cases h with
  | write path => exact hb.store_other (fun heq => hne (congrArg some heq)) hread
  | _ => exact hread

/-- A payload is there once its write has succeeded. -/
theorem lands (hb : KeepsFiles b) (h : Advance o b m s stage stage' s')
    (hold : ∀ p, stage.landed? = some p →
      p ≠ Path.root ∧ b.read s.storage p = .ok m.content)
    (hlanded : stage'.landed? = some p) : p ≠ Path.root ∧ b.read s'.storage p = .ok m.content := by
  cases h with
  | write path =>
    cases hanswer : ((b.store (some path) m.content false).runFrom s.storage).1 with
    | error f => simp [hanswer, Stage.landed?] at hlanded
    | ok _ =>
      rw [hanswer] at hlanded
      obtain rfl : Path.normalize path = p := Option.some.inj hlanded
      exact hb.store_ok hanswer
  | store path => exact hold p hlanded
  | _ => simp [Stage.landed?] at hlanded

end Advance

namespace Scene

theorem item?_withBatch (hbatch : x.batches[k]? = some batch) (batch' : Batch) (j l : Nat) :
    (x.withBatch k batch').item? j l = if j = k then batch'.items[l]? else x.item? j l := by
  rw [item?, getElem?_withBatch hbatch]
  split <;> rfl

theorem item?_move (hbatch : x.batches[k]? = some batch) (hitem : batch.items[i]? = some item)
    (new : Item) (j l : Nat) :
    (x.withBatch k (batch.move i new)).item? j l =
      if j = k ∧ l = i then some new else x.item? j l := by
  rw [item?_withBatch hbatch, Batch.getElem?_move hitem]
  by_cases hj : j = k
  · subst hj
    simp [item?, hbatch]
  · simp [hj]

theorem item?_answered (hbatch : x.batches[k]? = some batch) (a : Except Fault Unit) (j l : Nat) :
    (x.withBatch k (batch.answered a)).item? j l = x.item? j l := by
  rw [item?_withBatch hbatch]
  split
  · next hj =>
    subst hj
    rw [item?, hbatch]
    rfl
  · rfl

theorem placesApart_of_nodup (h : x.places.Nodup) : x.PlacesApart := by
  obtain ⟨hwithin, hbetween⟩ := List.nodup_flatMap.mp h
  have hne : ∀ (k j i l : Nat) (item other : Item) (p : String), k < j →
      x.item? k i = some item → x.item? j l = some other →
      item.stage.place? = some p → other.stage.place? ≠ some p := by
    intro k j i l item other p hlt hitem hother hp hq
    obtain ⟨batch, hbatch, hget⟩ := Option.bind_eq_some_iff.mp hitem
    obtain ⟨batch', hbatch', hget'⟩ := Option.bind_eq_some_iff.mp hother
    obtain ⟨hk, rfl⟩ := List.getElem?_eq_some_iff.mp hbatch
    obtain ⟨hj, rfl⟩ := List.getElem?_eq_some_iff.mp hbatch'
    exact List.pairwise_iff_getElem.mp hbetween k j hk hj hlt
      (List.mem_filterMap.mpr ⟨item, List.mem_of_getElem? hget, hp⟩)
      (List.mem_filterMap.mpr ⟨other, List.mem_of_getElem? hget', hq⟩)
  intro k i j l item other p hitem hother hp hq
  rcases Nat.lt_trichotomy k j with hlt | rfl | hlt
  · exact absurd hq (hne k j i l item other p hlt hitem hother hp)
  · obtain ⟨batch, hbatch, hget⟩ := Option.bind_eq_some_iff.mp hitem
    rw [item?, hbatch] at hother
    obtain ⟨hi, rfl⟩ := List.getElem?_eq_some_iff.mp hget
    obtain ⟨hl, rfl⟩ := List.getElem?_eq_some_iff.mp hother
    have hapart := List.pairwise_iff_getElem.mp
      (List.pairwise_filterMap.mp (hwithin batch (List.mem_of_getElem? hbatch)))
    refine ⟨rfl, ?_⟩
    rcases Nat.lt_trichotomy i l with hlt | heq | hlt
    · exact absurd rfl (hapart i l hi hl hlt p hp p hq)
    · exact heq
    · exact absurd rfl (hapart l i hl hi hlt p hq p hp)
  · exact absurd hp (hne j k l i other item p hlt hother hitem hq)

end Scene

/-- What a turn does to the messages: one of them takes a step, or none does and the store
stays as it is. -/
theorem Turn.items (h : Turn b window k x y) :
    (∃ (o : Offload) (i : Nat) (item : Item) (stage : Stage), x.item? k i = some item ∧
      Advance o b item.message x.store item.stage stage y.store ∧
      ∀ j l, y.item? j l =
        if j = k ∧ l = i then some { item with stage := stage } else x.item? j l) ∨
    (y.store = x.store ∧ ∀ j l, y.item? j l = x.item? j l) := by
  cases h with
  | @item batch i item stage store hbatch hitem hstep =>
    refine Or.inl ⟨batch.offload, i, item, stage, ?_, hstep, ?_⟩
    · rw [Scene.item?, hbatch]
      exact hitem
    · exact Scene.item?_move hbatch hitem _
  | fail hbatch hopen houtcome => exact Or.inr ⟨rfl, Scene.item?_answered hbatch _⟩
  | forward now hbatch hopen houtcome => exact Or.inr ⟨rfl, Scene.item?_answered hbatch _⟩

theorem Turn.lands (h : Turn b window k x y) (hb : KeepsFiles b) (hplaces : y.PlacesApart)
    (hlands : x.Lands b) : y.Lands b := by
  intro j l other p hother hlanded
  rcases h.items with ⟨o, i, item, stage, hitem, hstep, hitems⟩ | ⟨hstore, hitems⟩
  · have hself : y.item? k i = some { item with stage := stage } := by simp [hitems]
    rw [hitems] at hother
    split at hother
    · obtain rfl := Option.some.inj hother
      exact hstep.lands hb (hlands k i item · hitem) hlanded
    · next hne =>
      obtain ⟨hroot, hread⟩ := hlands j l other p hother hlanded
      refine ⟨hroot, hstep.read_other hb (fun hplace => hne ?_) hread⟩
      have hother' : y.item? j l = some other := by rw [hitems, if_neg hne, hother]
      exact hplaces j l k i other _ p hother' hself (Stage.place?_of_landed? hlanded) hplace
  · rw [hitems] at hother
    rw [hstore]
    exact hlands j l other p hother hlanded

/-- A message stays where it is in its batch, and keeps its place. -/
theorem Turn.item_stays (h : Turn b window k x y) (hitem : x.item? j l = some item) :
    ∃ stage, y.item? j l = some { item with stage := stage } ∧
      ∀ p, item.stage.place? = some p → stage.place? = some p := by
  rcases h.items with ⟨o, i, moved, stage, hmoved, hstep, hitems⟩ | ⟨-, hitems⟩
  · by_cases hself : j = k ∧ l = i
    · obtain ⟨rfl, rfl⟩ := hself
      obtain rfl : moved = item := Option.some.inj (hmoved.symm.trans hitem)
      exact ⟨stage, by simp [hitems], fun p hp => hstep.place?_eq hp⟩
    · exact ⟨item.stage, by rw [hitems, if_neg hself, hitem], fun p hp => hp⟩
  · exact ⟨item.stage, by rw [hitems, hitem], fun p hp => hp⟩

namespace Scene

theorem getElem?_begin (o : Offload) (channel : String) (messages : List Message)
    (hbatch : (x.batches ++ [Batch.begin o channel messages])[k]? = some batch) :
    x.batches[k]? = some batch ∨
      x.batches[k]? = none ∧ batch = Batch.begin o channel messages := by
  rw [List.getElem?_append] at hbatch
  split at hbatch
  · exact Or.inl hbatch
  · next hk =>
    rw [List.getElem?_singleton] at hbatch
    split at hbatch
    · exact Or.inr ⟨List.getElem?_eq_none (by omega), (Option.some.inj hbatch).symm⟩
    · cases hbatch

theorem item?_begin (o : Offload) (channel : String) (messages : List Message)
    (hitem : x.item? k i = some item) :
    item? { x with batches := x.batches ++ [Batch.begin o channel messages] } k i = some item := by
  obtain ⟨batch, hbatch, hget⟩ := Option.bind_eq_some_iff.mp hitem
  obtain ⟨hk, -⟩ := List.getElem?_eq_some_iff.mp hbatch
  rw [item?, List.getElem?_append_left hk, hbatch]
  exact hget

end Scene

namespace Move

theorem sound (h : Move b window x y) (hsound : x.Sound) : y.Sound := by
  cases h with
  | turn k h => exact h.sound hsound
  | others store hkept => exact ⟨hsound.batches, hsound.accounts, hsound.strangers⟩
  | call s =>
    have hcalls : ∀ k, Scene.callsOf { x with log := x.log ++ [(none, s)] } k = x.callsOf k :=
      fun k => by rw [Scene.callsOf_concat, if_neg (by simp), List.append_nil]
    refine ⟨hsound.batches, fun k batch hbatch => ?_, fun k hnone => ?_⟩
    · rw [hcalls]
      exact hsound.accounts k batch hbatch
    · rw [hcalls]
      exact hsound.strangers k hnone
  | begin o channel messages =>
    refine ⟨fun k batch hbatch => ?_, fun k batch hbatch => ?_, fun k hnone => ?_⟩
    · rcases Scene.getElem?_begin o channel messages hbatch with hold | ⟨-, rfl⟩
      · exact hsound.batches k batch hold
      · exact Batch.sound_begin o channel messages
    · rcases Scene.getElem?_begin o channel messages hbatch with hold | ⟨hnone, rfl⟩
      · exact hsound.accounts k batch hold
      · have hcalls := hsound.strangers k hnone
        change Batch.Accounted _ (x.callsOf k)
        rw [hcalls]
        exact .unanswered rfl
    · refine hsound.strangers k ?_
      rw [List.getElem?_eq_none_iff, List.length_append] at hnone
      exact List.getElem?_eq_none (by omega)

theorem item_stays (h : Move b window x y) (hitem : x.item? j l = some item) :
    ∃ stage, y.item? j l = some { item with stage := stage } ∧
      ∀ p, item.stage.place? = some p → stage.place? = some p := by
  cases h with
  | turn k h => exact h.item_stays hitem
  | begin o channel messages =>
    exact ⟨item.stage, Scene.item?_begin o channel messages hitem, fun p hp => hp⟩
  | _ => exact ⟨item.stage, hitem, fun p hp => hp⟩

/-- Places that are apart in the end have been apart all along. -/
theorem placesApart (h : Move b window x y) (hplaces : y.PlacesApart) : x.PlacesApart := by
  intro k i j l item other p hitem hother hp hq
  obtain ⟨stage, hitem', hplace⟩ := h.item_stays hitem
  obtain ⟨stage', hother', hplace'⟩ := h.item_stays hother
  exact hplaces k i j l _ _ p hitem' hother' (hplace p hp) (hplace' p hq)

theorem lands (h : Move b window x y) (hb : KeepsFiles b) (hplaces : y.PlacesApart)
    (hlands : x.Lands b) : y.Lands b := by
  cases h with
  | turn k h => exact h.lands hb hplaces hlands
  | call s => exact hlands
  | others store hkept =>
    intro k i item p hitem hlanded
    obtain ⟨hroot, hread⟩ := hlands k i item p hitem hlanded
    exact ⟨hroot, (hkept k i item p hitem hlanded).trans hread⟩
  | begin o channel messages =>
    intro k i item p hitem hlanded
    obtain ⟨batch, hbatch, hget⟩ := Option.bind_eq_some_iff.mp hitem
    rcases Scene.getElem?_begin o channel messages hbatch with hold | ⟨-, rfl⟩
    · exact hlands k i item p (Option.bind_eq_some_iff.mpr ⟨batch, hold, hget⟩) hlanded
    · -- Nothing of a new batch has gone anywhere yet.
      simp [Batch.due_of_mem_begin (List.mem_of_getElem? hget), Stage.landed?] at hlanded

end Move

/-- What holds of a scene in which nothing has been sent holds all along: batches are
accounted for, and payloads whose writes succeeded are there. -/
theorem reached (hb : KeepsFiles b) (hbatches : x.batches = []) (hlog : ∀ e ∈ x.log, e.1 = none)
    (hmoves : Relation.ReflTransGen (Move b window) x y) (hplaces : y.PlacesApart) :
    y.Sound ∧ y.Lands b := by
  induction hmoves with
  | refl =>
    refine ⟨⟨by simp [hbatches], by simp [hbatches], fun k _ => ?_⟩, ?_⟩
    · have hnot : x.log.filter (·.1 = some k) = [] := by
        rw [List.filter_eq_nil_iff]
        intro e he
        simp [hlog e he]
      rw [Scene.callsOf, hnot]
      rfl
    · intro k i item p hitem
      simp [Scene.item?, hbatches] at hitem
  | tail _ hmove ih =>
    obtain ⟨hsound, hlands⟩ := ih (hmove.placesApart hplaces)
    exact ⟨hmove.sound hsound, hmove.lands hb hplaces hlands⟩

/-- What a message comes to stands for it. -/
theorem Item.stands (hfits : item.Fits o) (hresult : item.result? = some (.ok e))
    (hlands : ∀ p, item.stage.landed? = some p →
      p ≠ Path.root ∧ b.read t p = .ok item.message.content) :
    Stands o b t item.message e := by
  obtain ⟨m, stage⟩ := item
  cases stage with
  | kept =>
    obtain rfl : m = e := by simpa [Item.result?, Stage.result?] using hresult
    exact .small (by simpa [Item.Fits] using hfits)
  | stored path =>
    obtain rfl : envelope m path = e := by simpa [Item.result?, Stage.result?] using hresult
    obtain ⟨hroot, hread⟩ := hlands _ rfl
    refine .large (by simpa [Item.Fits] using hfits) (Path.normalize_normalize _) ?_
    have hpath : Storage.filePath (some (Path.normalize path)) = .ok (Path.normalize path) :=
      Storage.filePath_eq_ok.mpr ⟨Path.normalize_normalize _, hroot⟩
    rw [Storage.fetch?_eq hpath, hread]
  | _ => simp [Item.result?, Stage.result?] at hresult

namespace Scene

theorem mem_callsOf {s : Step} : s ∈ x.callsOf k ↔ (some k, s) ∈ x.log := by
  simp [callsOf]

/-- A batch that made a call is one that was forwarded, with what stands for its messages. -/
theorem Sound.forwarded {s : Step} (hsound : x.Sound) (hlands : x.Lands b)
    (hcall : (some k, s) ∈ x.log) :
    ∃ batch envelopes, x.batches[k]? = some batch ∧ s.call = .send batch.channel envelopes ∧
      x.callsOf k = [s] ∧
      List.Forall₂ (Stands batch.offload b x.store.storage) batch.messages envelopes := by
  have hmem := mem_callsOf.mpr hcall
  cases hbatch : x.batches[k]? with
  | none => simp [hsound.strangers k hbatch] at hmem
  | some batch =>
    have haccount := hsound.accounts k batch hbatch
    generalize hcalls : x.callsOf k = calls at haccount hmem
    cases haccount with
    | unanswered hopen => cases hmem
    | failed hfailure hanswer => cases hmem
    | @forwarded envelopes now houtcome hanswer =>
      obtain rfl := List.mem_singleton.mp hmem
      refine ⟨batch, envelopes, rfl, rfl, rfl, ?_⟩
      obtain ⟨-, hready⟩ := Batch.outcome?_eq_ok.mp houtcome
      rw [Batch.messages, List.forall₂_map_left_iff]
      rw [List.forall₂_iff_get] at hready ⊢
      refine ⟨hready.1, fun i hi hi' => ?_⟩
      have hitem : x.item? k i = some batch.items[i] := by
        rw [item?, hbatch]
        exact List.getElem?_eq_getElem hi
      exact Item.stands ((hsound.batches k batch hbatch).fits _ (List.getElem_mem hi))
        (hready.2 i hi hi') (hlands k i _ · hitem)

end Scene

def byIdentity : Offload := ⟨1, fun m _ => .ok ("jobs//" ++ m.id), false⟩

def threeBytes : Message := ⟨[1, 2, 3], "a", .empty, none, none⟩
def twoBytes : Message := ⟨[4, 5], "b", .empty, none, none⟩
def oneByte : Message := ⟨[6], "c", .empty, none, none⟩

end Depot.Channel.Offload
