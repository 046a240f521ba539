import Depot.Proofs.Offload.Alone
import Depot.Proofs.Offload.References
import Mathlib.Algebra.Order.BigOperators.Group.List

/-!
Offloading into the in-memory store, in any order of the turns of a batch. Where the store
has room for the payloads and nothing stands in their way, the batch is forwarded in one
call, and the payloads can be read back from where the envelopes say that they are.
-/
namespace Depot.Channel.Offload

open Storage.Memory (Table State Config backend)

namespace Item

def growth (t : Table) (x : Item) : Nat :=
  match x.stage.place? with
  | some p => x.message.content.length - t.contentSize p
  | none => 0

def grown (t : Table) (x : Item) : Nat := if x.stage.landed?.isSome then x.growth t else 0

def counted (x : Item) : Nat :=
  match x.stage with
  | .stored _ => 1
  | _ => 0

def countedBytes (x : Item) : Nat :=
  match x.stage with
  | .stored _ => x.message.content.length
  | _ => 0

end Item

/-- A table has room for the payloads of a batch, and nothing stands in their way: the places
are no folders and no files lie above or under them, neither in the table nor among
themselves, and the metadata of a file that a payload replaces can be kept. -/
structure Accommodates (limit : Int) (t : Table) (batch : Batch) : Prop where
  generated : ∀ item ∈ batch.items, ∀ f, item.stage ≠ .unplaced f
  proper : Path.root ∉ batch.places
  distinct : batch.places.Nodup
  unnested : ∀ p ∈ batch.places, ∀ q ∈ batch.places, Path.isUnder p q = false
  free : ∀ p ∈ batch.places, ∀ k f, t.files.get? k = some f →
    Path.isUnder p k = false ∧ Path.isUnder k p = false
  kept : ∀ p ∈ batch.places, ∃ metadata, t.keptMetadata p = .ok metadata
  room : limit ≤ 0 ∨ t.size + (batch.items.map (Item.growth t)).sum ≤ limit

/-- What a batch has made of a store: nothing was raised, no other file has changed, the
table has grown by no more than the payloads in it, and these are counted. -/
structure Laid (first : Store State) (batch : Batch) (s : Store State) : Prop where
  calm : ∀ item ∈ batch.items, item.stage.raised? = none
  others : ∀ k, (∀ item ∈ batch.items, item.stage.landed? ≠ some k) →
    s.storage.table.files.get? k = first.storage.table.files.get? k
  size : s.storage.table.size ≤
    first.storage.table.size + (batch.items.map (Item.grown first.storage.table)).sum
  counters : s.counters =
    { first.counters with
      messagesOffloaded :=
        first.counters.messagesOffloaded + (batch.items.map Item.counted).sum
      bytesOffloaded :=
        first.counters.bytesOffloaded + (batch.items.map Item.countedBytes).sum }

variable {c : Config} {o : Offload} {m : Message} {s s' first : Store State} {t : Table}
  {stage stage' : Stage} {item other : Item} {batch : Batch} {window : Window} {i n : Nat}
  {x y : Scene State} {p q path : String} {limit : Int}

theorem filterMap_sublist_set {α β : Type} {f : α → Option β} {l : List α} {a a' : α}
    (h : l[i]? = some a) (hf : ∀ v, f a = some v → f a' = some v) :
    (l.filterMap f).Sublist ((l.set i a').filterMap f) := by
  induction l generalizing i with
  | nil => simp at h
  | cons first rest ih =>
    cases i with
    | zero =>
      obtain rfl : first = a := by simpa using h
      rw [List.set_cons_zero]
      cases hv : f first with
      | none =>
        rw [List.filterMap_cons_none hv]
        cases hw : f a' with
        | none => rw [List.filterMap_cons_none hw]
        | some w =>
          rw [List.filterMap_cons_some hw]
          exact List.sublist_cons_self w _
      | some v => rw [List.filterMap_cons_some hv, List.filterMap_cons_some (hf v hv)]
    | succ i =>
      have hrest := ih (i := i) (by simpa using h)
      rw [List.set_cons_succ, List.filterMap_cons, List.filterMap_cons]
      cases f first with
      | none => exact hrest
      | some v => exact hrest.cons_cons v

namespace Batch

theorem mem_places (hitem : item ∈ batch.items) (hplace : item.stage.place? = some p) :
    p ∈ batch.places :=
  List.mem_filterMap.mpr ⟨item, hitem, hplace⟩

theorem eq_of_place (h : batch.places.Nodup) (hitem : item ∈ batch.items)
    (hother : other ∈ batch.items) (hp : item.stage.place? = some p)
    (hq : other.stage.place? = some p) : item = other := by
  by_contra hne
  have : Std.Symm fun x y : Item =>
      ∀ v, x.stage.place? = some v → ∀ w, y.stage.place? = some w → v ≠ w :=
    ⟨fun x y hxy v hv w hw heq => hxy w hw v hv heq.symm⟩
  exact (List.pairwise_filterMap.mp h).forall hitem hother hne p hp p hq rfl

end Batch

/-- A store that has room for a batch had it before a step. -/
theorem Accommodates.before (hitem : batch.items[i]? = some item)
    (hstep : Advance o (backend c) item.message s item.stage stage s')
    (h : Accommodates limit t (batch.move i { item with stage := stage })) :
    Accommodates limit t batch := by
  have hsub : batch.places.Sublist (batch.move i { item with stage := stage }).places :=
    filterMap_sublist_set hitem fun p hp => hstep.place?_eq hp
  have hsum := sum_map_set (Item.growth t) hitem { item with stage := stage }
  have hgrowth : item.growth t ≤ Item.growth t { item with stage := stage } := by
    unfold Item.growth
    cases hplace : item.stage.place? with
    | none => exact Nat.zero_le _
    | some p =>
      dsimp only
      rw [hstep.place?_eq hplace]
  refine ⟨fun other hother f hf => ?_, fun hroot => h.proper (hsub.subset hroot),
    h.distinct.sublist hsub,
    fun p hp q hq => h.unnested p (hsub.subset hp) q (hsub.subset hq),
    fun p hp => h.free p (hsub.subset hp), fun p hp => h.kept p (hsub.subset hp), ?_⟩
  · obtain ⟨j, hj⟩ := List.mem_iff_getElem?.mp hother
    have hmoved := Batch.getElem?_move hitem { item with stage := stage } j
    split at hmoved
    · next heq =>
      subst heq
      obtain rfl : other = item := Option.some.inj (hj.symm.trans hitem)
      have hunfinished := hstep.unfinished
      simp [hf, Stage.result?] at hunfinished
    · exact h.generated other (List.mem_of_getElem? (hmoved.trans hj)) f hf
  · have hroom := h.room
    change limit ≤ 0 ∨ t.size + ((batch.items.set i _).map (Item.growth t)).sum ≤ limit at hroom
    omega

theorem Accommodates.congr (h : Accommodates limit t batch) {batch' : Batch}
    (hitems : batch'.items = batch.items) : Accommodates limit t batch' := by
  have hplaces : batch'.places = batch.places := congrArg (List.filterMap _) hitems
  exact ⟨hitems ▸ h.generated, hplaces ▸ h.proper, hplaces ▸ h.distinct, hplaces ▸ h.unnested,
    hplaces ▸ h.free, hplaces ▸ h.kept, hitems ▸ h.room⟩

theorem Item.grown_le (t : Table) (x : Item) : x.grown t ≤ x.growth t := by
  unfold grown
  split
  · exact Nat.le_refl _
  · exact Nat.zero_le _

namespace Laid

/-- Nobody else is where a payload on its way goes to. -/
theorem get?_place (h : Laid first batch s) (hnodup : batch.places.Nodup)
    (hitem : batch.items[i]? = some ⟨m, .writing path⟩) :
    s.storage.table.files.get? (Path.normalize path) =
      first.storage.table.files.get? (Path.normalize path) := by
  refine h.others _ fun other hother hlanded => ?_
  obtain rfl := Batch.eq_of_place hnodup hother (List.mem_of_getElem? hitem)
    (Stage.place?_of_landed? hlanded) rfl
  simp [Stage.landed?] at hlanded

theorem contentSize_place (h : Laid first batch s) (hnodup : batch.places.Nodup)
    (hitem : batch.items[i]? = some ⟨m, .writing path⟩) :
    s.storage.table.contentSize (Path.normalize path) =
      first.storage.table.contentSize (Path.normalize path) := by
  simp only [Table.contentSize, h.get?_place hnodup hitem]

/-- What the table holds leaves the place of a payload free. -/
theorem free_place (h : Laid first batch s) (hfits : Accommodates limit first.storage.table batch)
    (hplace : p ∈ batch.places) {k : String} {f : Storage.Memory.Stored}
    (hf : s.storage.table.files.get? k = some f) :
    Path.isUnder p k = false ∧ Path.isUnder k p = false := by
  by_cases hlanded : ∃ item ∈ batch.items, item.stage.landed? = some k
  · obtain ⟨other, hother, hk⟩ := hlanded
    have hk' := Batch.mem_places hother (Stage.place?_of_landed? hk)
    exact ⟨hfits.unnested p hplace k hk', hfits.unnested k hk' p hplace⟩
  · rw [h.others k fun other hother hk => hlanded ⟨other, hother, hk⟩] at hf
    exact hfits.free p hplace k f hf

/-- The payloads that are there and one on its way are among those that there is room for. -/
theorem room_left (h : Laid first batch s) (hitem : batch.items[i]? = some ⟨m, .writing path⟩)
    (hfits : Accommodates limit first.storage.table batch) :
    limit ≤ 0 ∨ s.storage.table.size + (m.content.length -
      first.storage.table.contentSize (Path.normalize path) : Nat) ≤ limit := by
  have hgrowth := sum_map_set (Item.growth first.storage.table) hitem
    ⟨m, .written path (.ok ())⟩
  have hgrown := sum_map_set (Item.grown first.storage.table) hitem
    ⟨m, .written path (.ok ())⟩
  have hle : ((batch.items.set i ⟨m, .written path (.ok ())⟩).map
      (Item.grown first.storage.table)).sum ≤
      ((batch.items.set i ⟨m, .written path (.ok ())⟩).map
        (Item.growth first.storage.table)).sum :=
    List.sum_le_sum fun x _ => x.grown_le _
  have hroom := hfits.room
  have hbound := h.size
  simp only [Item.growth, Item.grown, Stage.place?, Stage.landed?, Option.isSome_some,
    Option.isSome_none, Bool.false_eq_true, if_true, if_false] at hgrowth hgrown
  omega

/-- The write of a payload succeeds. -/
theorem write_ok (h : Laid first batch s)
    (hitem : batch.items[i]? = some ⟨m, .writing path⟩)
    (hfits : Accommodates c.limit first.storage.table batch) :
    ∃ metadata, ((backend c).store (some path) m.content false).runFrom s.storage =
      (.ok (), { s.storage with
        table := s.storage.table.put (Path.normalize path) m.content metadata }) := by
  have hplace : Path.normalize path ∈ batch.places :=
    Batch.mem_places (List.mem_of_getElem? hitem) rfl
  have hroot : Path.normalize path ≠ Path.root := fun heq => hfits.proper (heq ▸ hplace)
  have hfile : Storage.filePath (some path) = .ok (Path.normalize path) :=
    Storage.filePath_eq_ok.mpr ⟨rfl, hroot⟩
  obtain ⟨metadata, hkept⟩ := hfits.kept _ hplace
  have hkept' : s.storage.table.keptMetadata (Path.normalize path) = .ok metadata := by
    simpa only [Table.keptMetadata, h.get?_place hfits.distinct hitem] using hkept
  have hroom := h.room_left hitem hfits
  rw [← h.contentSize_place hfits.distinct hitem] at hroom
  refine ⟨metadata, ?_⟩
  rw [Storage.Backend.store, Storage.runFrom_onFile, hfile]
  dsimp only
  rw [Storage.Memory.runFrom_write, Storage.Memory.write_ok (Path.normalize_normalize path) hroot
    (fun k f hf => h.free_place hfits hplace hf) hkept' hroom]

/-- A step of a message, from what it does to the table and to the counters. -/
theorem of_step (h : Laid first batch s) (hitem : batch.items[i]? = some item) (stage : Stage)
    (s' : Store State) (hunfinished : item.result? = none) (hraised : stage.raised? = none)
    (hlanded : ∀ k, item.stage.landed? = some k → stage.landed? = some k)
    (hothers : ∀ k, stage.landed? ≠ some k →
      s'.storage.table.files.get? k = s.storage.table.files.get? k)
    (hsize : s'.storage.table.size + item.grown first.storage.table ≤
      s.storage.table.size + Item.grown first.storage.table { item with stage := stage })
    (hcounters : s'.counters =
      { s.counters with
        messagesOffloaded :=
          s.counters.messagesOffloaded + Item.counted { item with stage := stage }
        bytesOffloaded :=
          s.counters.bytesOffloaded + Item.countedBytes { item with stage := stage } }) :
    Laid first (batch.move i { item with stage := stage }) s' := by
  have hmoved := Batch.getElem?_move hitem { item with stage := stage }
  have hsum (f : Item → Nat) : ((batch.move i { item with stage := stage }).items.map f).sum +
      f item = (batch.items.map f).sum + f { item with stage := stage } :=
    sum_map_set f hitem _
  refine ⟨fun other hother => ?_, fun k hk => ?_, ?_, ?_⟩
  · rcases Batch.mem_items_move hother with rfl | hold
    · exact hraised
    · exact h.calm other hold
  · have hself := hmoved i
    rw [if_pos rfl] at hself
    rw [hothers k (hk _ (List.mem_of_getElem? hself)), h.others k fun other hother hold => ?_]
    obtain ⟨j, hj⟩ := List.mem_iff_getElem?.mp hother
    by_cases hji : j = i
    · subst hji
      obtain rfl : other = item := Option.some.inj (hj.symm.trans hitem)
      exact hk _ (List.mem_of_getElem? hself) (hlanded k hold)
    · have hthere := hmoved j
      rw [if_neg hji, hj] at hthere
      exact hk other (List.mem_of_getElem? hthere) hold
  · have hgrown := hsum (Item.grown first.storage.table)
    have hbound := h.size
    omega
  · have hnone : item.counted = 0 ∧ item.countedBytes = 0 := by
      obtain ⟨m, stage⟩ := item
      cases stage with
      | stored path => simp [Item.result?, Stage.result?] at hunfinished
      | _ => exact ⟨rfl, rfl⟩
    have hcounted := hsum Item.counted
    have hbytes := hsum Item.countedBytes
    rw [hnone.1, Nat.add_zero] at hcounted
    rw [hnone.2, Nat.add_zero] at hbytes
    rw [hcounters, h.counters, hcounted, hbytes, Nat.add_assoc, Nat.add_assoc]

/-- A message that takes a step in a store that has room for its batch. -/
theorem move (h : Laid first batch s) (hitem : batch.items[i]? = some item)
    (hstep : Advance o (backend c) item.message s item.stage stage s')
    (hfits : Accommodates c.limit first.storage.table
      (batch.move i { item with stage := stage })) :
    Laid first (batch.move i { item with stage := stage }) s' := by
  have hbefore := hfits.before hitem hstep
  have hmem := List.mem_of_getElem?
    ((Batch.getElem?_move hitem { item with stage := stage } i).trans (if_pos rfl))
  have hof := h.of_step hitem stage s' hstep.unfinished
  obtain ⟨m, old⟩ := item
  cases hstep with
  | keep hsmall => exact hof rfl (fun _ hk => hk) (fun _ _ => rfl) (Int.le_refl _) rfl
  | unplace hlarge hpath => exact absurd rfl (hfits.generated _ hmem _)
  | place hlarge hpath => exact hof rfl (fun _ hk => hk) (fun _ _ => rfl) (Int.le_refl _) rfl
  | write path =>
    obtain ⟨metadata, hwrite⟩ := h.write_ok hitem hbefore
    rw [hwrite] at hof ⊢
    refine hof rfl (fun _ hk => by cases hk) (fun k hk => ?_) ?_ rfl
    · have hne : k ≠ Path.normalize path := fun heq => hk (congrArg some heq.symm)
      simp [Table.put, OrderedMap.get?_insert, hne]
    · simp only [Table.put, h.contentSize_place hbefore.distinct hitem, Item.grown, Item.growth,
        Stage.landed?, Stage.place?,
        Option.isSome_some, Option.isSome_none, Bool.false_eq_true, if_true, if_false]
      omega
  | store path => exact hof rfl (fun _ hk => hk) (fun _ _ => rfl) (Int.le_refl _) rfl
  | refuse path f =>
    have hcalm := h.calm _ (List.mem_of_getElem? hitem)
    simp [Stage.raised?] at hcalm

theorem start (o : Offload) (channel : String) (messages : List Message) (s : Store State) :
    Laid s (.begin o channel messages) s := by
  have hsum (f : Item → Nat) (hf : ∀ m, f ⟨m, .due⟩ = 0) :
      ((Batch.begin o channel messages).items.map f).sum = 0 := by
    simp [Batch.begin, Function.comp_def, hf]
  refine ⟨fun item hitem => by rw [Batch.due_of_mem_begin hitem]; rfl, fun _ _ => rfl, ?_, ?_⟩
  · omega
  · rw [hsum Item.counted fun _ => rfl, hsum Item.countedBytes fun _ => rfl]
    rfl

theorem congr (h : Laid first batch s) {batch' : Batch} (hitems : batch'.items = batch.items) :
    Laid first batch' s :=
  ⟨hitems ▸ h.calm, hitems ▸ h.others, hitems ▸ h.size, hitems ▸ h.counters⟩

end Laid

variable {channel : String} {messages : List Message} {past : List Step}

theorem Alone.places_eq (h : Alone o channel messages past n x batch) :
    x.places = batch.places := by
  simp [Scene.places, h.only]

/-- Whatever the order of the turns, the store is as a batch leaves it that it has room for. -/
theorem laid_of_turns (hturns : Turns (backend c) window 0 (.alone o channel messages s past) n y)
    (hfits : ∀ batch ∈ y.batches, Accommodates c.limit s.storage.table batch) :
    y.Lands (backend c) ∧ ∀ batch ∈ y.batches, Laid s batch y.store := by
  induction hturns with
  | start =>
    refine ⟨fun k i item p hitem hlanded => ?_, fun batch hbatch => ?_⟩
    · obtain ⟨batch, hbatch, hget⟩ := Option.bind_eq_some_iff.mp hitem
      obtain rfl : batch = .begin o channel messages :=
        List.mem_singleton.mp (List.mem_of_getElem? hbatch)
      simp [Batch.due_of_mem_begin (List.mem_of_getElem? hget), Stage.landed?] at hlanded
    · obtain rfl := List.mem_singleton.mp hbatch
      exact .start o channel messages s
  | @next n y z hturns hturn ih =>
    obtain ⟨batch, halone⟩ := hturns.alone
    obtain ⟨batch', halone', hstep⟩ := halone.turn hturn
    have hfits' := hfits batch' (by simp [halone'.only])
    have hlands (hy : y.Lands (backend c)) : z.Lands (backend c) := by
      refine hturn.lands (keepsFiles_memory c) (Scene.placesApart_of_nodup ?_) hy
      rw [halone'.places_eq]
      exact hfits'.distinct
    rw [halone.only] at ih
    simp only [List.mem_singleton, forall_eq] at ih
    rw [halone'.only]
    simp only [List.mem_singleton, forall_eq]
    rcases hstep with ⟨i, item, stage, hitem, hadvance, rfl⟩ | ⟨hstore, hitems⟩
    · obtain ⟨hold, hlaid⟩ := ih (hfits'.before hitem hadvance)
      exact ⟨hlands hold, hlaid.move hitem hadvance hfits'⟩
    · obtain ⟨hold, hlaid⟩ := ih (hfits'.congr hitems.symm)
      exact ⟨hlands hold, hstore ▸ hlaid.congr hitems⟩

/-- What a message has made the counters count in the end. -/
theorem Item.counted_of_ready {e : Message} (hfits : item.Fits o)
    (hresult : item.result? = some (.ok e)) :
    item.counted = (if o.isLarge item.message then 1 else 0) ∧
      item.countedBytes = if o.isLarge item.message then item.message.content.length else 0 := by
  obtain ⟨m, stage⟩ := item
  cases stage with
  | kept =>
    have hsmall : o.isLarge m = false := by simpa [Item.Fits] using hfits
    simp [Item.counted, Item.countedBytes, hsmall]
  | stored path =>
    have hlarge : o.isLarge m = true := by simpa [Item.Fits] using hfits
    simp [Item.counted, Item.countedBytes, hlarge]
  | _ => simp [Item.result?, Stage.result?] at hresult

theorem sum_of_ready {f : Item → Nat} {g : Message → Nat} {envelopes : List Message}
    (hready : List.Forall₂ (fun item e => item.result? = some (.ok e)) batch.items envelopes)
    (hf : ∀ item ∈ batch.items, ∀ e, item.result? = some (.ok e) →
      f item = if o.isLarge item.message then g item.message else 0) :
    (batch.items.map f).sum = ((batch.messages.filter o.isLarge).map g).sum := by
  have hmap : batch.items.map f =
      batch.messages.map fun m => if o.isLarge m then g m else 0 := by
    rw [Batch.messages, List.map_map]
    refine List.map_congr_left fun item hitem => ?_
    obtain ⟨i, hi, rfl⟩ := List.mem_iff_getElem.mp hitem
    exact hf _ hitem _ (hready.get hi (hready.length_eq ▸ hi))
  rw [hmap, List.sum_map_ite]
  simp

def resolve (b : Storage.Backend State) (storage : State) (e : Message) :
    Except Fault (Option Bytes) :=
  match e.properties.get? Message.offloadProperty with
  | some q => b.fetch? (some q) storage
  | none => .ok none

theorem Stands.payload {b : Storage.Backend State} {storage : State} {e : Message}
    (h : Stands o b storage m e) :
    (if o.isLarge m then resolve b storage e else .ok (some e.content)) =
      .ok (some m.content) := by
  cases h with
  | small hsmall => simp [hsmall]
  | large hlarge hnormal hthere =>
    rw [if_pos hlarge, resolve, OrderedMap.get?_insert, if_pos rfl]
    exact hthere

theorem payloads_of_stands {b : Storage.Backend State} {storage : State}
    {envelopes : List Message} (h : List.Forall₂ (Stands o b storage) messages envelopes) :
    List.zipWith (fun m e => if o.isLarge m then resolve b storage e else .ok (some e.content))
      messages envelopes = messages.map fun m => .ok (some m.content) := by
  induction h with
  | nil => rfl
  | cons hfirst _ ih => rw [List.zipWith_cons_cons, List.map_cons, hfirst.payload, ih]

/-- A batch that was forwarded has made the counters count all its large messages. -/
theorem Laid.counters_of_ready {envelopes : List Message} (h : Laid first batch s)
    (hsound : batch.Sound) (houtcome : outcome? batch.dispatch = some (.ok envelopes)) :
    s.counters =
      { first.counters with
        messagesOffloaded := first.counters.messagesOffloaded +
          (batch.messages.filter batch.offload.isLarge).length
        bytesOffloaded := first.counters.bytesOffloaded +
          ((batch.messages.filter batch.offload.isLarge).map fun m => m.content.length).sum } := by
  obtain ⟨-, hready⟩ := Batch.outcome?_eq_ok.mp houtcome
  have hcounted := sum_of_ready (g := fun _ => 1) hready fun item hitem _ hresult =>
    (Item.counted_of_ready (hsound.fits item hitem) hresult).1
  have hbytes := sum_of_ready (g := fun m => m.content.length) hready fun item hitem _ hresult =>
    (Item.counted_of_ready (hsound.fits item hitem) hresult).2
  rw [h.counters, hcounted, hbytes]
  simp

/-- A batch of any messages is sent through any offloading over the in-memory store, after any
calls on the inner channels. What `send` does is one way to take its turns. Whatever their
order, they come to an end, and no file but the payloads changes. As long as the batch is
not answered, nothing is forwarded and it can take another turn. If the store has room for
the payloads and nothing stands in their way, the answer is that of the one call in which
the batch is forwarded. What that call sends stands for the messages, one for one; what is
read where the envelopes tell gives the payloads back; and the counters have grown by the
number and the total length of the large messages. -/
theorem round_trip (c : Config) (o : Offload) (channel : String) (messages : List Message)
    (window : Window) (past : List Step) (s : Store State) {n : Nat} {y : Scene State}
    (hturns : Turns (backend c) window 0 (.alone o channel messages s past) n y)
    (hfits : ∀ batch ∈ y.batches, Accommodates c.limit s.storage.table batch) :
    (let outcome := o.send (backend c) channel messages s (.after window past)
      ∃ l z batch, Turns (backend c) window 0 (.alone o channel messages s past) l z ∧
        z.store = outcome.2 ∧ z.batches = [batch] ∧
        batch.answer = some (outcome.1.map fun _ => ()) ∧
        ∀ c, outcome.1 = .ok c → z.inner window = c) ∧
    n ≤ 3 * messages.length + 1 ∧
    (∀ k, k ∉ y.places →
      y.store.storage.table.files.get? k = s.storage.table.files.get? k) ∧
    ∃ batch, y.batches = [batch] ∧
      (batch.answer = none →
        y.log = past.map (Prod.mk none) ∧ ∃ z, Turn (backend c) window 0 y z) ∧
      ∀ a, batch.answer = some a →
        a = (if channel = "" then .error .emptyChannelName else .ok ()) ∧
        (∃ now envelopes,
          y.log = past.map (Prod.mk none) ++ [(some 0, ⟨now, .send channel envelopes⟩)] ∧
          List.Forall₂ (Stands o (backend c) y.store.storage) messages envelopes ∧
          List.zipWith (fun m e =>
              if o.isLarge m then resolve (backend c) y.store.storage e else .ok (some e.content))
            messages envelopes = messages.map fun m => .ok (some m.content)) ∧
        y.store.counters =
          { s.counters with
            messagesOffloaded :=
              s.counters.messagesOffloaded + (messages.filter o.isLarge).length
            bytesOffloaded := s.counters.bytesOffloaded +
              ((messages.filter o.isLarge).map fun m => m.content.length).sum } := by
  obtain ⟨batch, halone⟩ := hturns.alone
  obtain ⟨hlands, hlaid⟩ := laid_of_turns hturns hfits
  replace hlaid := hlaid batch (by simp [halone.only])
  have hsound := hturns.sound (Scene.sound_alone o channel messages s past)
  have hbatch : y.batches[0]? = some batch := by simp [halone.only]
  have haccount := hsound.accounts 0 batch hbatch
  have hlog := halone.log_eq
  refine ⟨send_turns o (backend c) channel messages window s past, ?_, fun k hk => ?_, batch,
    halone.only, fun hopen => ?_, fun a ha => ?_⟩
  · have hleft := halone.turns_le
    omega
  · refine hlaid.others k fun item hitem hlanded => hk ?_
    rw [halone.places_eq]
    exact Batch.mem_places hitem (Stage.place?_of_landed? hlanded)
  · rw [haccount.eq_nil hopen, List.map_nil, List.append_nil] at hlog
    exact ⟨hlog, Turn.possible (backend c) window (hsound.batches 0 batch hbatch) hbatch hopen⟩
  · generalize hcalls : y.callsOf 0 = calls at haccount hlog
    cases haccount with
    | unanswered hopen => simp [hopen] at ha
    | @failed f hfailure hanswer =>
      obtain ⟨item, hitem, hfailed⟩ := (hsound.batches 0 batch hbatch).origin f hfailure
      have hcalm := hlaid.calm item hitem
      simp [Item.raised?_of_failure? hfailed] at hcalm
    | @forwarded envelopes now houtcome hanswer =>
      have hcall : (some 0, ⟨now, .send batch.channel envelopes⟩) ∈ y.log := by
        rw [hlog]
        simp
      obtain ⟨batch', envelopes', hbatch', hsame, -, hstands⟩ := hsound.forwarded hlands hcall
      obtain rfl : batch = batch' := Option.some.inj (hbatch.symm.trans hbatch')
      obtain rfl : envelopes = envelopes' := (Call.send.inj hsame).2
      have hcounters := hlaid.counters_of_ready (hsound.batches 0 batch hbatch) houtcome
      rw [halone.messages_eq, halone.offload_eq] at hstands hcounters
      rw [halone.channel_eq] at hlog hanswer
      exact ⟨Option.some.inj (ha.symm.trans hanswer),
        ⟨now, envelopes, hlog, hstands, payloads_of_stands hstands⟩, hcounters⟩

def bothStored : Scene State where
  store :=
    { storage := { State.fresh with
        table := (Table.empty.put "jobs/b" [4, 5] .empty).put "jobs/a" [1, 2, 3] .empty }
      bits := 2
      counters := { messagesOffloaded := 2, bytesOffloaded := 5 } }
  batches :=
    [⟨byIdentity, "q", [⟨threeBytes, .stored "jobs//a"⟩, ⟨oneByte, .kept⟩,
      ⟨twoBytes, .stored "jobs//b"⟩], none, some (.ok ())⟩]
  log := [(some 0, ⟨0, .send "q"
    [envelope threeBytes "jobs//a", oneByte, envelope twoBytes "jobs//b"]⟩)]

theorem round_trip_bothStored :
    Turns (backend { limit := 5 }) usualWindow 0
        (.alone byIdentity "q" [threeBytes, oneByte, twoBytes] ⟨.fresh, 0, {}⟩ []) 8 bothStored ∧
      (∀ batch ∈ bothStored.batches, Accommodates 5 Table.empty batch) ∧
      bothStored.places = ["jobs/a", "jobs/b"] ∧
      bothStored.store.storage.table.files.get? "jobs" = none := by
  have hchain : Turns (backend { limit := 5 }) usualWindow 0
      (.alone byIdentity "q" [threeBytes, oneByte, twoBytes] ⟨.fresh, 0, {}⟩ []) 8 _ :=
    (((((((Turns.start.next
      (.item (i := 2) rfl rfl (.place rfl rfl))).next
      (.item (i := 0) rfl rfl (.place rfl rfl))).next
      (.item (i := 2) rfl rfl (.write _))).next
      (.item (i := 1) rfl rfl (.keep rfl))).next
      (.item (i := 0) rfl rfl (.write _))).next
      (.item (i := 0) rfl rfl (.store _))).next
      (.item (i := 2) rfl rfl (.store _))).next
      (.forward 0 rfl rfl rfl)
  have hturns : Turns (backend { limit := 5 }) usualWindow 0
      (.alone byIdentity "q" [threeBytes, oneByte, twoBytes] ⟨.fresh, 0, {}⟩ []) 8 bothStored :=
    hchain
  have hfits : ∀ batch ∈ bothStored.batches, Accommodates 5 Table.empty batch := by
    intro batch hbatch
    obtain rfl := List.mem_singleton.mp hbatch
    exact ⟨by simp, by decide +kernel, by decide +kernel, by decide +kernel,
      fun _ _ _ _ hf => (nomatch hf), fun _ _ => ⟨.empty, rfl⟩, Or.inr (by decide +kernel)⟩
  have hplaces : bothStored.places = ["jobs/a", "jobs/b"] := by decide +kernel
  obtain ⟨-, -, hothers, -⟩ := round_trip { limit := 5 } byIdentity "q"
    [threeBytes, oneByte, twoBytes] usualWindow [] ⟨.fresh, 0, {}⟩ hturns hfits
  exact ⟨hturns, hfits, hplaces, hothers "jobs" (by rw [hplaces]; decide)⟩

end Depot.Channel.Offload
