import Depot.Proofs.Channel.Standing

/-!
Windows of visibility. The messages in a queue are told apart by their serials, and each
receive of one is entered as a receipt with the window that it opens. If the clock never
goes back, the receipts of a message say when it is visible and how often it was received.
-/
namespace Depot.Channel

def elements (window : Window) (name : String) (past : List Step) : List Element :=
  ((standing name past).zip ((Channels.after window past).queue name)).map
    fun x => ⟨x.1.serial, x.2⟩

def firstVisible (now : Calendar.Instant) (most : Nat) (es : List Element) : List Element :=
  (es.filter fun e => visible now e.message).take most

/-- From `start` until `stop` an element is in the hands of one receiver. -/
structure Receipt where
  channel : String
  serial : Nat
  start : Calendar.Instant
  stop : Calendar.Instant

def Receipt.isOf (name : String) (serial : Nat) (r : Receipt) : Bool :=
  r.channel = name && r.serial = serial

def handedOut (name : String) (now expiry : Calendar.Instant) (es : List Element) :
    List Receipt :=
  es.map fun e => ⟨name, e.serial, now, expiry⟩

def Step.receipts (window : Window) (past : List Step) (s : Step) : List Receipt :=
  match s.call with
  | .receive name most w =>
    match after? s.now (w.getD window) with
    | .ok expiry =>
      handedOut name s.now expiry (firstVisible s.now most.toNat (elements window name past))
    | .error _ => []
  | _ => []

def receiptsFrom (window : Window) : List Step → List Step → List Receipt
  | _, [] => []
  | past, s :: rest => s.receipts window past ++ receiptsFrom window (past ++ [s]) rest

def receipts (window : Window) (past : List Step) : List Receipt := receiptsFrom window [] past

def receiptsOf (window : Window) (past : List Step) (name : String) (serial : Nat) :
    List Receipt :=
  (receipts window past).filter (·.isOf name serial)

def Chronological (past : List Step) : Prop := past.Pairwise fun s s' => s.now ≤ s'.now

variable {window : Window} {name : String} {past : List Step} {s : Step}
  {now expiry : Calendar.Instant} {e : Element} {es : List Element}

theorem receiptsFrom_concat (start rest : List Step) :
    receiptsFrom window start (rest ++ [s]) =
      receiptsFrom window start rest ++ s.receipts window (start ++ rest) := by
  induction rest generalizing start with
  | nil => simp [receiptsFrom]
  | cons first rest ih =>
    simp only [List.cons_append, receiptsFrom, ih, List.append_assoc, List.nil_append]

theorem receipts_concat :
    receipts window (past ++ [s]) = receipts window past ++ s.receipts window past :=
  receiptsFrom_concat [] past

theorem length_standing (window : Window) (name : String) (past : List Step) :
    (standing name past).length = ((Channels.after window past).queue name).length := by
  have hlength := congrArg List.length (core_standing window name past)
  rw [List.length_map, List.length_map] at hlength
  exact hlength.symm

theorem message_elements (window : Window) (name : String) (past : List Step) :
    (elements window name past).map Element.message = (Channels.after window past).queue name := by
  have hsnd := List.map_snd_zip (Nat.le_of_eq (length_standing window name past).symm)
  rw [elements, List.map_map]
  exact hsnd

theorem serial_elements (window : Window) (name : String) (past : List Step) :
    (elements window name past).map Element.serial = (standing name past).map Element.serial := by
  have hfst := List.map_fst_zip (Nat.le_of_eq (length_standing window name past))
  rw [elements, List.map_map]
  conv_rhs => rw [← hfst, List.map_map]
  rfl

theorem serials_lt (name : String) (past : List Step) :
    ((standing name past).map Element.serial).Pairwise (· < ·) := by
  have hsub : List.Sublist ((standing name past).map Element.serial)
      (((sendings name past).zipIdx).map Prod.snd) := by
    rw [standing, List.map_map]
    exact List.filter_sublist.map Prod.snd
  refine List.Pairwise.sublist hsub ?_
  rw [List.zipIdx_map_snd]
  exact List.pairwise_lt_range'

theorem serials_nodup (window : Window) (name : String) (past : List Step) :
    ((elements window name past).map Element.serial).Nodup := by
  rw [serial_elements]
  exact (serials_lt name past).imp Nat.ne_of_lt

theorem serial_lt (he : e ∈ elements window name past) :
    e.serial < (sendings name past).length := by
  have hmem : e.serial ∈ (standing name past).map Element.serial := by
    rw [← serial_elements window]
    exact List.mem_map_of_mem he
  obtain ⟨x, hx, hserial⟩ := List.mem_map.mp hmem
  obtain ⟨y, hy, rfl⟩ := List.mem_map.mp hx
  have hbound := List.snd_lt_add_of_mem_zipIdx (List.mem_filter.mp hy).1
  rw [← hserial]
  dsimp only
  omega

theorem find_handedOut (serial : Nat) :
    (handedOut name now expiry es).find? (·.isOf name serial) =
      if serial ∈ es.map Element.serial then some ⟨name, serial, now, expiry⟩ else none := by
  induction es with
  | nil => rfl
  | cons e rest ih =>
    by_cases hserial : e.serial = serial
    · simp [handedOut, Receipt.isOf, hserial]
    · have hne : serial ≠ e.serial := Ne.symm hserial
      have hnot : Receipt.isOf name serial ⟨name, e.serial, now, expiry⟩ = false := by
        simp [Receipt.isOf, hserial]
      simp only [handedOut, List.map_cons, List.find?_cons, hnot, List.mem_cons, hne, false_or]
      exact ih

def Element.after (rs : List Receipt) (name : String) (e : Element) : Element :=
  match rs.find? (·.isOf name e.serial) with
  | none => e
  | some r => { e with message := hide r.stop e.message }

theorem after_handedOut (e : Element) :
    e.after (handedOut name now expiry es) name =
      if e.serial ∈ es.map Element.serial then { e with message := hide expiry e.message }
      else e := by
  rw [Element.after, find_handedOut]
  by_cases hmem : e.serial ∈ es.map Element.serial
  · simp only [if_pos hmem]
  · simp only [if_neg hmem]

theorem firstVisible_subset {n : Nat} {x : Element} (hx : x ∈ firstVisible now n es) :
    x ∈ es ∧ visible now x.message = true :=
  List.mem_filter.mp (List.mem_of_mem_take hx)

/-- A receive hands out the first visible messages and hides these. -/
theorem takeVisible_elements (name : String) (hserials : (es.map Element.serial).Nodup) (n : Nat) :
    takeVisible now expiry n (es.map Element.message) =
      ((firstVisible now n es).map fun e => hide expiry e.message,
        (es.map (Element.after (handedOut name now expiry (firstVisible now n es)) name)).map
          Element.message) := by
  induction es generalizing n with
  | nil => cases n <;> rfl
  | cons e rest ih =>
    -- The receipt of the first element must not be taken for one of a later element.
    rw [List.map_cons, List.nodup_cons] at hserials
    obtain ⟨hnew, hrest⟩ := hserials
    have hother : ∀ x ∈ rest, x.serial ≠ e.serial := by
      intro x hx hsame
      exact hnew (hsame ▸ List.mem_map_of_mem hx)
    cases n with
    | zero =>
      have hnone : firstVisible now 0 (e :: rest) = [] := by simp [firstVisible]
      have hid : Element.after (handedOut name now expiry []) name = id := rfl
      rw [hnone, hid, List.map_id]
      rfl
    | succ n =>
      cases hvisible : visible now e.message with
      | true =>
        have hfirst : firstVisible now (n + 1) (e :: rest) = e :: firstVisible now n rest := by
          simp [firstVisible, hvisible]
        have hkeep : rest.map (Element.after
              (handedOut name now expiry (e :: firstVisible now n rest)) name) =
            rest.map (Element.after (handedOut name now expiry
              (firstVisible now n rest)) name) := by
          apply List.map_congr_left
          intro x hx
          simp only [after_handedOut, List.map_cons, List.mem_cons, hother x hx, false_or]
        rw [hfirst, List.map_cons, takeVisible, if_pos hvisible, ih hrest n, List.map_cons,
          List.map_cons, hkeep, after_handedOut, if_pos (by simp)]
        rfl
      | false =>
        have hfirst : firstVisible now (n + 1) (e :: rest) = firstVisible now (n + 1) rest := by
          simp [firstVisible, hvisible]
        have habsent : e.serial ∉ (firstVisible now (n + 1) rest).map Element.serial := by
          intro hmem
          obtain ⟨x, hx, hsame⟩ := List.mem_map.mp hmem
          exact hother x (firstVisible_subset hx).1 hsame
        rw [hfirst, List.map_cons, takeVisible, if_neg (by simp [hvisible]), ih hrest (n + 1),
          List.map_cons, List.map_cons, after_handedOut, if_neg habsent]

def Element.tag (e : Element) : Nat × String × Bytes × Texts := (e.serial, e.message.core)

theorem map_tag (es : List Element) :
    es.map Element.tag = (es.map Element.serial).zip (es.map fun e => e.message.core) :=
  List.zip_map'.symm

theorem tag_elements (window : Window) (name : String) (past : List Step) :
    (elements window name past).map Element.tag = (standing name past).map Element.tag := by
  have hcore : (elements window name past).map (fun e => e.message.core) =
      (standing name past).map fun e => e.message.core := by
    rw [← core_standing window, ← message_elements, List.map_map]
    rfl
  rw [map_tag, map_tag, serial_elements, hcore]

theorem tag_after (rs : List Receipt) (e : Element) : (e.after rs name).tag = e.tag := by
  unfold Element.after
  split <;> rfl

theorem serials_filter (p : String → Bool) (es : List Element) :
    (es.filter fun e => p e.message.id).map Element.serial =
      ((es.map Element.tag).filter fun x => p x.2.1).map Prod.fst := by
  rw [List.filter_map, List.map_map]
  rfl

theorem eq_of_parts {es es' : List Element}
    (hserial : es.map Element.serial = es'.map Element.serial)
    (hmessage : es.map Element.message = es'.map Element.message) : es = es' := by
  have hparts : ∀ es : List Element,
      es = ((es.map Element.serial).zip (es.map Element.message)).map fun x => ⟨x.1, x.2⟩ := by
    intro es
    rw [List.zip_map', List.map_map]
    exact (List.map_id es).symm
  rw [hparts es, hparts es', hserial, hmessage]

theorem after_nil (e : Element) : e.after [] name = e := rfl

theorem after_elsewhere {target : String} (h : name ≠ target) (e : Element) :
    e.after (handedOut target now expiry es) name = e := by
  have hnone : (handedOut target now expiry es).find? (·.isOf name e.serial) = none := by
    rw [List.find?_eq_none]
    intro r hr
    obtain ⟨x, -, rfl⟩ := List.mem_map.mp hr
    simp [Receipt.isOf, Ne.symm h]
  rw [Element.after, hnone]

/-- What a call does to the messages in a queue is told by its receipts. -/
theorem handle_elements (window : Window) (name : String) (past : List Step) (s : Step) :
    s.call.handle s.now window name ((Channels.after window past).queue name) =
      ((elements window name past).map (Element.after (s.receipts window past) name)).map
        Element.message := by
  have hid : ∀ rs, (∀ e, Element.after rs name e = e) →
      ((elements window name past).map (Element.after rs name)).map Element.message =
        (Channels.after window past).queue name := by
    intro rs hrs
    rw [funext hrs, List.map_id', message_elements]
  unfold Step.receipts
  cases hcall : s.call with
  | receive target most w =>
    dsimp only [Call.handle, received]
    cases hexpiry : after? s.now (w.getD window) with
    | error e =>
      rw [hid [] after_nil]
      split <;> rfl
    | ok expiry =>
      by_cases hname : name = target
      · subst hname
        have htake : takeVisible s.now expiry most.toNat
            ((elements window name past).map Element.message) = _ :=
          takeVisible_elements name (serials_nodup window name past) most.toNat
        rw [message_elements] at htake
        rw [if_pos rfl]
        exact congrArg Prod.snd htake
      · rw [if_neg hname]
        exact (hid _ (after_elsewhere hname)).symm
  | _ => exact (hid [] after_nil).symm

/-- The elements after a call. -/
theorem elements_concat (window : Window) (name : String) (past : List Step) (s : Step) :
    elements window name (past ++ [s]) =
      ((elements window name past).map (Element.after (s.receipts window past) name)).filter
          (fun e => !s.call.removes name e.message.id) ++
        (numbered (sendings name past).length (s.call.puts name)).map
          fun e => ⟨e.serial, enqueued e.message⟩ := by
  -- The serials are compared with what stands, the messages with the queue.
  apply eq_of_parts
  · have htags : ((elements window name past).map
        (Element.after (s.receipts window past) name)).map Element.tag =
          (standing name past).map Element.tag := by
      rw [List.map_map, ← tag_elements window]
      exact List.map_congr_left fun e _ => tag_after _ e
    rw [serial_elements, standing_concat, List.map_append, List.map_append,
      serials_filter fun id => !s.call.removes name id,
      serials_filter fun id => !s.call.removes name id, htags, List.map_map]
    rfl
  · rw [message_elements, Channels.after_concat, queue_apply, Channels.defaultWindow_after,
      handle_elements, List.map_append, List.filter_map, List.map_map,
      ← map_message_numbered (sendings name past).length]
    rfl

theorem isOf_iff {r : Receipt} {serial : Nat} :
    r.isOf name serial = true ↔ r.channel = name ∧ r.serial = serial := by
  simp [Receipt.isOf]

theorem mem_receiptsOf {r : Receipt} {serial : Nat} :
    r ∈ receiptsOf window past name serial ↔
      r ∈ receipts window past ∧ r.channel = name ∧ r.serial = serial := by
  rw [receiptsOf, List.mem_filter, isOf_iff]

theorem receiptsOf_concat (serial : Nat) :
    receiptsOf window (past ++ [s]) name serial =
      receiptsOf window past name serial ++
        (s.receipts window past).filter (·.isOf name serial) := by
  rw [receiptsOf, receipts_concat, List.filter_append]
  rfl

/-- A call hands out elements that are in the queue and visible, each of them once. -/
theorem receipts_spec (window : Window) (past : List Step) (s : Step) :
    (∀ r ∈ s.receipts window past, r.start = s.now ∧
      ∃ e ∈ elements window r.channel past, e.serial = r.serial ∧
        visible s.now e.message = true) ∧
    (s.receipts window past).Pairwise fun r r' => r.serial ≠ r'.serial := by
  unfold Step.receipts
  cases hcall : s.call with
  | receive name most w =>
    dsimp only
    cases after? s.now (w.getD window) with
    | error e => exact ⟨by simp, List.Pairwise.nil⟩
    | ok expiry =>
      refine ⟨fun r hr => ?_, ?_⟩
      · obtain ⟨e, he, rfl⟩ := List.mem_map.mp hr
        obtain ⟨hmem, hvisible⟩ := firstVisible_subset he
        exact ⟨rfl, e, hmem, rfl, hvisible⟩
      · have hsub : List.Sublist
            ((firstVisible s.now most.toNat (elements window name past)).map Element.serial)
            ((elements window name past).map Element.serial) :=
          ((List.take_sublist ..).trans List.filter_sublist).map _
        have hnodup := (serials_nodup window name past).sublist hsub
        exact List.pairwise_map.mpr (List.pairwise_map.mp hnodup)
  | _ => exact ⟨by simp, List.Pairwise.nil⟩

theorem filter_isOf {rs : List Receipt} (h : rs.Pairwise fun r r' => r.serial ≠ r'.serial)
    (name : String) (serial : Nat) :
    rs.filter (·.isOf name serial) = (rs.find? (·.isOf name serial)).toList := by
  induction rs with
  | nil => rfl
  | cons r rest ih =>
    rw [List.pairwise_cons] at h
    cases hof : r.isOf name serial with
    | false =>
      rw [List.filter_cons_of_neg (by simp [hof]), List.find?_cons_of_neg (by simp [hof]), ih h.2]
    | true =>
      have hnone : rest.filter (·.isOf name serial) = [] := by
        rw [List.filter_eq_nil_iff]
        intro r' hr' hof'
        exact h.1 r' hr' ((isOf_iff.mp hof).2.trans (isOf_iff.mp hof').2.symm)
      rw [List.filter_cons_of_pos hof, List.find?_cons_of_pos hof, hnone]
      rfl

/-- The receipts so far tell of every message when it is visible again and how often it was
received; and no two receipts of an element overlap. -/
structure Told (window : Window) (past : List Step) : Prop where
  known : ∀ r ∈ receipts window past, r.serial < (sendings r.channel past).length
  dated : ∀ r ∈ receipts window past, ∃ s ∈ past, r.start = s.now
  apart : (receipts window past).Pairwise fun r r' =>
    r.channel = r'.channel → r.serial = r'.serial → r.stop ≤ r'.start
  shown : ∀ name, ∀ e ∈ elements window name past,
    e.message.visibleAt = (receiptsOf window past name e.serial).getLast?.map Receipt.stop ∧
      e.message.dequeues = some ↑(receiptsOf window past name e.serial).length

/-- The receipts of one element follow each other. -/
theorem Told.apart_of (h : Told window past) (name : String) (serial : Nat) :
    (receiptsOf window past name serial).Pairwise fun r r' => r.stop ≤ r'.start := by
  have happart : (receiptsOf window past name serial).Pairwise _ :=
    h.apart.sublist List.filter_sublist
  refine happart.imp_of_mem fun hr hr' hstop => ?_
  obtain ⟨-, hchannel, hserial⟩ := mem_receiptsOf.mp hr
  obtain ⟨-, hchannel', hserial'⟩ := mem_receiptsOf.mp hr'
  exact hstop (hchannel.trans hchannel'.symm) (hserial.trans hserial'.symm)

/-- An element is visible outside the windows of its receipts. -/
theorem Told.visible_iff (h : Told window past) (hnow : ∀ s ∈ past, s.now ≤ now)
    (he : e ∈ elements window name past) :
    visible now e.message = true ↔
      ∀ r ∈ receiptsOf window past name e.serial, r.stop ≤ now := by
  obtain ⟨hvisible, -⟩ := h.shown name e he
  have happart := h.apart_of name e.serial
  have hdated : ∀ r ∈ receiptsOf window past name e.serial, r.start ≤ now := by
    intro r hr
    obtain ⟨s, hs, hstart⟩ := h.dated r (mem_receiptsOf.mp hr).1
    exact hstart ▸ hnow s hs
  -- The last receipt decides: the earlier ones were over when it was given.
  rcases List.eq_nil_or_concat (receiptsOf window past name e.serial) with
    hnil | ⟨earlier, last, hlast⟩
  · simp [visible, hvisible, hnil]
  · rw [hlast, List.concat_eq_append] at hvisible happart hdated ⊢
    have hshown : visible now e.message = true ↔ last.stop ≤ now := by
      simp [visible, hvisible]
    have hlate : last.start ≤ now := hdated last (by simp)
    rw [hshown]
    constructor
    · intro hstop r hr
      rcases List.mem_append.mp hr with hr | hr
      · have hbefore := (List.pairwise_append.mp happart).2.2 r hr last (by simp)
        exact Int.le_trans hbefore hlate
      · rw [List.mem_singleton.mp hr]
        exact hstop
    · intro hall
      exact hall last (by simp)

theorem Told.nil : Told window [] where
  known := by simp [receipts, receiptsFrom]
  dated := by simp [receipts, receiptsFrom]
  apart := List.Pairwise.nil
  shown := by simp [elements, standing, sendings]

theorem mem_numbered {first : Nat} {messages : List Message} (he : e ∈ numbered first messages) :
    first ≤ e.serial := by
  obtain ⟨x, hx, rfl⟩ := List.mem_map.mp he
  exact List.le_snd_of_mem_zipIdx hx

theorem length_sendings_le (name : String) (past : List Step) (s : Step) :
    (sendings name past).length ≤ (sendings name (past ++ [s])).length := by
  rw [sendings_concat, List.length_append, List.length_map]
  exact Nat.le_add_right ..

/-- A call keeps to the receipts. -/
theorem Told.step (h : Told window past) (hnow : ∀ s' ∈ past, s'.now ≤ s.now) :
    Told window (past ++ [s]) := by
  obtain ⟨hspec, hdistinct⟩ := receipts_spec window past s
  have hknown : ∀ r ∈ receipts window (past ++ [s]),
      r.serial < (sendings r.channel past).length := by
    intro r hr
    rw [receipts_concat] at hr
    rcases List.mem_append.mp hr with hr | hr
    · exact h.known r hr
    · obtain ⟨-, e, he, hserial, -⟩ := hspec r hr
      exact hserial ▸ serial_lt he
  refine ⟨fun r hr => ?_, fun r hr => ?_, ?_, fun name e he => ?_⟩
  · exact Nat.lt_of_lt_of_le (hknown r hr) (length_sendings_le ..)
  · rw [receipts_concat] at hr
    rcases List.mem_append.mp hr with hr | hr
    · obtain ⟨s', hs', hstart⟩ := h.dated r hr
      exact ⟨s', by simp [hs'], hstart⟩
    · exact ⟨s, by simp, (hspec r hr).1⟩
  · rw [receipts_concat]
    refine List.pairwise_append.mpr ⟨h.apart, ?_, fun r hr r' hr' hchannel hserial => ?_⟩
    · exact hdistinct.imp fun hne _ hserial => absurd hserial hne
    · obtain ⟨hstart, e, he, hserial', hvisible⟩ := hspec r' hr'
      rw [hstart]
      refine (h.visible_iff hnow he).mp hvisible r (mem_receiptsOf.mpr ⟨hr, hchannel, ?_⟩)
      exact hserial.trans hserial'.symm
  · rw [elements_concat] at he
    -- An element was there before and may have a receipt more, or it is new and has none.
    rcases List.mem_append.mp he with he | he
    · obtain ⟨x, hx, rfl⟩ := List.mem_map.mp (List.mem_filter.mp he).1
      obtain ⟨hvisible, hcount⟩ := h.shown name x hx
      have hserial : (x.after (s.receipts window past) name).serial = x.serial :=
        congrArg Prod.fst (tag_after _ x)
      rw [hserial, receiptsOf_concat, filter_isOf hdistinct, Element.after]
      cases (s.receipts window past).find? (·.isOf name x.serial) with
      | none => simp [hvisible, hcount]
      | some r => simp [hide, hcount]
    · obtain ⟨x, hx, rfl⟩ := List.mem_map.mp he
      have hnone : receiptsOf window (past ++ [s]) name x.serial = [] := by
        apply List.eq_nil_iff_forall_not_mem.mpr
        intro r hr
        obtain ⟨hmem, hchannel, hserial⟩ := mem_receiptsOf.mp hr
        have hnew := mem_numbered hx
        have hold := hknown r hmem
        rw [hchannel, hserial] at hold
        omega
      simp [hnone, enqueued]

theorem told (hclock : Chronological past) : Told window past := by
  induction past using List.reverseRecOn with
  | nil => exact .nil
  | append_singleton past s ih =>
    obtain ⟨hpast, -, hlast⟩ := List.pairwise_append.mp hclock
    exact (ih hpast).step fun s' hs' => hlast s' hs' s (by simp)

/-- A receive hands out the first visible elements. -/
theorem answer_receive_elements {most : Int} {w : Option Window} (hmost : 1 ≤ most)
    (hexpiry : after? now (w.getD window) = .ok expiry) :
    (Call.receive name most w).answer now (Channels.after window past) =
      .ok (.messages ((firstVisible now most.toNat (elements window name past)).map
        fun e => hide expiry e.message)) := by
  rw [← Channels.defaultWindow_after window past] at hexpiry
  rw [Call.answer_receive hmost hexpiry, ← message_elements,
    takeVisible_elements name (serials_nodup window name past)]

theorem answer_peek (most : Int) :
    (Call.peek name most).answer now (Channels.after window past) =
      .ok (.messages ((firstVisible now most.toNat (elements window name past)).map
        Element.message)) := by
  rw [firstVisible, List.map_take]
  have hfilter : ((elements window name past).filter fun e => visible now e.message).map
      Element.message = ((Channels.after window past).queue name).filter (visible now) := by
    rw [← message_elements, List.filter_map]
    rfl
  rw [hfilter]
  rfl

/-- The count on a copy that is handed out includes the receipt it is handed out with. -/
theorem dequeues_handedOut {most : Int} {w : Option Window} (hclock : Chronological past)
    (hnow : ∀ s ∈ past, s.now ≤ now) (hexpiry : after? now (w.getD window) = .ok expiry)
    (he : e ∈ firstVisible now most.toNat (elements window name past)) :
    (hide expiry e.message).dequeues =
      some ↑(receiptsOf window (past ++ [⟨now, .receive name most w⟩]) name e.serial).length := by
  let s : Step := ⟨now, .receive name most w⟩
  have htold : Told window (past ++ [s]) := (told hclock).step hnow
  have hreceipts : s.receipts window past =
      handedOut name now expiry (firstVisible now most.toNat (elements window name past)) := by
    simp only [s, Step.receipts, hexpiry]
  have hafter : e.after (s.receipts window past) name =
      { e with message := hide expiry e.message } := by
    rw [hreceipts, after_handedOut, if_pos (List.mem_map_of_mem he)]
  have hmem : ({ e with message := hide expiry e.message } : Element) ∈
      elements window name (past ++ [s]) := by
    rw [elements_concat]
    refine List.mem_append_left _ (List.mem_filter.mpr ⟨?_, rfl⟩)
    exact List.mem_map.mpr ⟨e, (firstVisible_subset he).1, hafter⟩
  exact (htold.shown name _ hmem).2

/-- In any run of calls during which the clock does not go back, a receive hands out the
first visible messages in the order of the queue, as many as are asked for. A message is
visible outside the windows of its earlier receipts, and only there, so no two receipts of
it overlap; the count on a copy is the number of receipts with this one; and a peek shows
the first visible messages and changes nothing. -/
theorem windows_exclusive (window : Window) (past : List Step) (now : Calendar.Instant)
    (hclock : Chronological past) (hnow : ∀ s ∈ past, s.now ≤ now) :
    (∀ name,
      (elements window name past).map Element.message = (Channels.after window past).queue name ∧
      (elements window name past).map Element.serial = (standing name past).map Element.serial ∧
      ((elements window name past).map Element.serial).Nodup ∧
      ∀ e ∈ elements window name past,
        (visible now e.message = true ↔
          ∀ r ∈ receiptsOf window past name e.serial, r.stop ≤ now) ∧
        e.message.visibleAt =
          (receiptsOf window past name e.serial).getLast?.map Receipt.stop ∧
        e.message.dequeues = some ↑(receiptsOf window past name e.serial).length) ∧
    (∀ name (most : Int) (w : Option Window) expiry, 1 ≤ most →
      after? now (w.getD window) = .ok expiry →
      ∃ taken, taken = firstVisible now most.toNat (elements window name past) ∧
        (Call.receive name most w).answer now (Channels.after window past) =
          .ok (.messages (taken.map fun e => hide expiry e.message)) ∧
        receipts window (past ++ [⟨now, .receive name most w⟩]) =
          receipts window past ++ handedOut name now expiry taken ∧
        ∀ e ∈ taken, (hide expiry e.message).dequeues =
          some ↑(receiptsOf window (past ++ [⟨now, .receive name most w⟩]) name
            e.serial).length) ∧
    (∀ name (most : Int),
      (Call.peek name most).answer now (Channels.after window past) =
        .ok (.messages ((firstVisible now most.toNat (elements window name past)).map
          Element.message)) ∧
      (Call.peek name most).apply now (Channels.after window past) =
        Channels.after window past) ∧
    (receipts window past).Pairwise fun r r' =>
      r.channel = r'.channel → r.serial = r'.serial → r.stop ≤ r'.start := by
  have htold : Told window past := told hclock
  refine ⟨fun name => ?_, fun name most w expiry hmost hexpiry => ?_, fun name most => ?_,
    htold.apart⟩
  · refine ⟨message_elements .., serial_elements .., serials_nodup .., fun e he => ?_⟩
    exact ⟨htold.visible_iff hnow he, htold.shown name e he⟩
  · refine ⟨_, rfl, answer_receive_elements hmost hexpiry, ?_, fun e he => ?_⟩
    · rw [receipts_concat, Step.receipts]
      simp only [hexpiry]
    · exact dequeues_handedOut hclock hnow hexpiry he
  · exact ⟨answer_peek most, rfl⟩

def receivedOnce : List Step :=
  [⟨0, .send "a" [⟨[1], "id", .empty, none, none⟩]⟩, ⟨5, .receive "a" 1 (some 20)⟩]

theorem windows_exclusive_receivedOnce :
    Chronological receivedOnce ∧ (∀ s ∈ receivedOnce, s.now ≤ 10) ∧
      (Call.peek "a" 1).answer 10 (Channels.after usualWindow receivedOnce) =
        .ok (.messages []) := by
  have hclock : Chronological receivedOnce := by simp [Chronological, receivedOnce]
  have hnow : ∀ s ∈ receivedOnce, s.now ≤ 10 := by simp [receivedOnce]
  have hhidden : firstVisible 10 1 (elements usualWindow "a" receivedOnce) = [] := by rfl
  have hpeek := ((windows_exclusive usualWindow receivedOnce 10 hclock hnow).2.2.1 "a" 1).1
  refine ⟨hclock, hnow, hpeek.trans ?_⟩
  rw [show (1 : Int).toNat = 1 from rfl, hhidden]
  rfl

end Depot.Channel
