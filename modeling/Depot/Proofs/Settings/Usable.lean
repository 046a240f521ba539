import Depot.Proofs.Channel.Span
import Depot.Settings.Assembly

/-!
What the code that settings feed makes of them. A document is read only if each field is
within its own bound, and so are the usual values. The bounds are all that listings and
offloading ask for. A receiver asks for more: its delays in order, and a window that is a
length of time; no field's bound says so.
-/
namespace Depot.Settings

open Channel (Window)
open Yaml (Value)

/-! ### Reading -/

section Reading

variable {α β : Type}

theorem Checked.map_eq_ok {f : α → β} {x : Checked α} {b : β} :
    f <$> x = .ok b ↔ ∃ a, x = .ok a ∧ f a = b := by
  change Checked.map f x = .ok b ↔ _
  cases x <;> simp [Checked.map]

theorem Checked.seq_eq_ok {f : Checked (α → β)} {x : Checked α} {b : β} :
    f <*> x = .ok b ↔ ∃ g, f = .ok g ∧ ∃ a, x = .ok a ∧ g a = b := by
  change Checked.apply f x = .ok b ↔ _
  cases f <;> cases x <;> simp [Checked.apply]

theorem bind_eq_ok {x : Except Fault α} {f : α → Except Fault β} {b : β} :
    x >>= f = .ok b ↔ ∃ a, x = .ok a ∧ f a = .ok b := by
  cases x <;> simp [bind, Except.bind]

/-- What holds of the usual value and of every value that is read holds of the field. -/
theorem field_induction {entries : Entries} {name : String} {usual a : α}
    {read : Value → Except Refusal α} {P : α → Prop} (h : field entries name usual read = .ok a)
    (husual : P usual) (hread : ∀ v a, read v = .ok a → P a) : P a := by
  unfold field checkedField at h
  split at h
  · rwa [← Checked.ok.inj h]
  · next v _ =>
    dsimp only at h
    cases hv : read v with
    | ok b =>
      rw [hv] at h
      rw [← Checked.ok.inj h]
      exact hread v b hv
    | error r =>
      rw [hv] at h
      cases h

theorem read_of_settle {name : String} {entries : Entries} {read : Entries → Checked α} {a : α}
    (h : settle name entries read = .ok a) : read entries = .ok a := by
  unfold settle at h
  split at h
  · split at h
    · next b hb => rwa [← Except.ok.inj h]
    · cases h
  · cases h

theorem le_of_atLeast {bound n : Int} {v : Value} (h : atLeast bound v = .ok n) : bound ≤ n := by
  unfold atLeast at h
  cases hv : intOf v with
  | error r => rw [hv] at h; cases h
  | ok m =>
    rw [hv] at h
    change (if m < bound then Except.error Refusal.notAtLeast else Except.ok m) = Except.ok n at h
    split_ifs at h with hlt
    rw [← Except.ok.inj h]
    exact not_lt.mp hlt

theorem pos_of_positive {x : Float} {v : Value} (h : positive v = .ok x) : 0 < x := by
  unfold positive at h
  cases hv : floatOf v with
  | error r => rw [hv] at h; cases h
  | ok y =>
    rw [hv] at h
    change (if y ≤ 0 || y.isNaN then Except.error Refusal.notGreater else Except.ok y) =
      Except.ok x at h
    split_ifs at h with hbound
    rw [← Except.ok.inj h, Decimal.pos_iff_not_le]
    simpa using hbound

end Reading

/-! ### Bounds -/

structure Listing.Bounded (l : Listing) : Prop where
  threads : 1 ≤ l.threads
  pageSize : 1 ≤ l.pageSize

structure Polling.Bounded (p : Polling) : Prop where
  smallestDelay : 0 < p.smallestDelay
  largestDelay : 0 < p.largestDelay
  maxBatch : 1 ≤ p.maxBatch
  visibility : 0 < p.visibility

structure LargeMessage.Bounded (l : LargeMessage) : Prop where
  threshold : 0 ≤ l.threshold

theorem Listing.bounded_usual : ({} : Listing).Bounded := ⟨by decide, by decide⟩

theorem Polling.bounded_usual : ({} : Polling).Bounded :=
  ⟨by decide +kernel, by decide +kernel, by decide, by decide +kernel⟩

theorem LargeMessage.bounded_usual : ({} : LargeMessage).Bounded := ⟨by decide⟩

variable {entries : Entries}

theorem Listing.bounded_of_read {l : Listing} (h : Listing.read entries = .ok l) : l.Bounded := by
  simp only [Listing.read, Checked.seq_eq_ok, Checked.map_eq_ok] at h
  obtain ⟨_, ⟨threads, hthreads, rfl⟩, pageSize, hpageSize, rfl⟩ := h
  exact
    { threads := field_induction hthreads bounded_usual.threads fun _ _ => le_of_atLeast
      pageSize := field_induction hpageSize bounded_usual.pageSize fun _ _ => le_of_atLeast }

theorem Polling.bounded_of_read {p : Polling} (h : Polling.read entries = .ok p) : p.Bounded := by
  simp only [Polling.read, Checked.seq_eq_ok, Checked.map_eq_ok] at h
  obtain ⟨_, ⟨_, ⟨_, ⟨smallest, hsmallest, rfl⟩, largest, hlargest, rfl⟩, batch, hbatch, rfl⟩,
    visibility, hvisibility, rfl⟩ := h
  exact
    { smallestDelay := field_induction hsmallest bounded_usual.smallestDelay fun _ _ =>
      pos_of_positive
      largestDelay := field_induction hlargest bounded_usual.largestDelay fun _ _ => pos_of_positive
      maxBatch := field_induction hbatch bounded_usual.maxBatch fun _ _ => le_of_atLeast
      visibility := field_induction hvisibility bounded_usual.visibility fun _ _ =>
        pos_of_positive }

theorem LargeMessage.bounded_of_read {l : LargeMessage} (h : LargeMessage.read entries = .ok l) :
    l.Bounded := by
  simp only [LargeMessage.read, Checked.seq_eq_ok, Checked.map_eq_ok] at h
  obtain ⟨_, ⟨_, ⟨threshold, hthreshold, rfl⟩, _, -, rfl⟩, _, -, rfl⟩ := h
  exact ⟨field_induction hthreshold bounded_usual.threshold fun _ _ => le_of_atLeast⟩

structure Bounded (s : Settings) : Prop where
  listing : s.listing.Bounded
  polling : s.polling.Bounded
  largeMessage : s.largeMessage.Bounded

theorem bounded_of_ofEntries? {s : Settings} (h : ofEntries? entries = .ok s) : s.Bounded := by
  simp only [ofEntries?, bind_eq_ok] at h
  obtain ⟨_, -, _, hlisting, _, hpolling, _, hlargeMessage, _, -, _, -, hs⟩ := h
  rw [← Except.ok.inj hs]
  exact
    { listing := Listing.bounded_of_read (read_of_settle hlisting)
      polling := Polling.bounded_of_read (read_of_settle hpolling)
      largeMessage := LargeMessage.bounded_of_read (read_of_settle hlargeMessage) }

theorem bounded_of_ofFile? {document : Option String} {s : Settings}
    (h : ofFile? document = .ok s) : s.Bounded := by
  cases document with
  | none => cases h
  | some text =>
    obtain ⟨v, -, hv⟩ := bind_eq_ok.mp h
    unfold ofValue? at hv
    split at hv
    · exact bounded_of_ofEntries? hv
    · split_ifs at hv
      exact bounded_of_ofEntries? hv

/-! ### Use -/

theorem Listing.options?_of_bounded {l : Listing} (h : l.Bounded) :
    ∃ o, l.options? = .ok o ∧ (o.threads : Int) = l.threads ∧ (o.pageSize : Int) = l.pageSize := by
  refine ⟨_, (dif_pos h.pageSize).trans (dif_pos h.threads), ?_, ?_⟩
  · exact Int.toNat_of_nonneg (zero_le_one.trans h.threads)
  · exact Int.toNat_of_nonneg (zero_le_one.trans h.pageSize)

theorem LargeMessage.offload?_of_bounded {l : LargeMessage} (h : l.Bounded) :
    ∃ o, l.offload? = .ok o ∧ (o.threshold : Int) = l.threshold ∧
      o.keepInnerOpen = l.keepInnerOpen :=
  ⟨_, if_neg (not_lt.mpr h.threshold), Int.toNat_of_nonneg h.threshold, rfl⟩

namespace Polling

variable {p : Polling} (channel : String)

structure Describes (p : Polling) (channel : String) (receiver : Channel.Receiver)
    (pump : Pump (Pump.Policy Float)) : Prop where
  place : receiver.channel = channel
  deadLetters : receiver.deadLetterChannel = channel ++ Channel.deadLetterSuffix
  window : Window.ofSeconds? p.visibility = .ok receiver.window
  batch : (receiver.maxBatch : Int) = p.maxBatch
  pumpBatch : pump.maxBatch = receiver.maxBatch
  policy : pump.policy = ⟨p.smallestDelay, p.largestDelay, Pump.defaultFactor, none⟩
  idle : pump.phase = .idle ∧ pump.task = none

theorem policy?_of_bounded (h : p.Bounded) :
    p.policy? =
      if p.largestDelay < p.smallestDelay then
        .error (.delaysOutOfOrder (Decimal.floatText p.largestDelay)
          (Decimal.floatText p.smallestDelay))
      else .ok ⟨p.smallestDelay, p.largestDelay, Pump.defaultFactor, none⟩ := by
  have hsmallest := (Decimal.pos_iff_not_le.mp h.smallestDelay).1
  have hfactor : ¬ Pump.defaultFactor < 1 := by decide +kernel
  rw [policy?, Pump.Policy.create?, if_neg hsmallest, if_neg hfactor]

theorem receiver?_of_ordered (h : p.Bounded) (hvisibility : p.visibility < Window.tooLong)
    (hdelays : ¬ p.largestDelay < p.smallestDelay) :
    ∃ receiver pump, p.receiver? channel = .ok (receiver, pump) ∧
      p.Describes channel receiver pump := by
  obtain ⟨w, hw⟩ := (Window.ofSeconds?_of_pos h.visibility).1 hvisibility
  have hpolicy := policy?_of_bounded h
  rw [if_neg hdelays] at hpolicy
  have hbatch : ¬ p.maxBatch < 1 := not_lt.mpr h.maxBatch
  simp only [receiver?, hw, hpolicy, Channel.Receiver.create?, Pump.create?, hbatch, bind, pure,
    Except.bind, Except.pure, dite_false, if_false]
  exact ⟨_, _, rfl,
    { place := rfl
      deadLetters := rfl
      window := hw
      batch := Int.toNat_of_nonneg (zero_le_one.trans h.maxBatch)
      pumpBatch := rfl
      policy := rfl
      idle := ⟨rfl, rfl⟩ }⟩

theorem receiver?_of_tooLong (h : p.Bounded) (htooLong : ¬ p.visibility < Window.tooLong) :
    p.receiver? channel = .error .outOfRange := by
  have hwindow := (Window.ofSeconds?_of_pos h.visibility).2 htooLong
  simp only [receiver?, hwindow, bind, Except.bind]

theorem receiver?_of_disordered (h : p.Bounded) (hvisibility : p.visibility < Window.tooLong)
    (hdelays : p.largestDelay < p.smallestDelay) :
    p.receiver? channel =
      .error (.delaysOutOfOrder (Decimal.floatText p.largestDelay)
        (Decimal.floatText p.smallestDelay)) := by
  obtain ⟨w, hw⟩ := (Window.ofSeconds?_of_pos h.visibility).1 hvisibility
  have hpolicy := policy?_of_bounded h
  rw [if_pos hdelays] at hpolicy
  simp only [receiver?, hw, hpolicy, bind, Except.bind]

end Polling

/-- Settings as the code takes them that they feed. Nothing is refused but a visibility that
is no length of time, and delays that are out of order. -/
structure Usable (s : Settings) : Prop where
  listing : ∃ o, s.listing.options? = .ok o ∧ (o.threads : Int) = s.listing.threads ∧
    (o.pageSize : Int) = s.listing.pageSize
  offload : ∃ o, s.largeMessage.offload? = .ok o ∧ (o.threshold : Int) = s.largeMessage.threshold ∧
    o.keepInnerOpen = s.largeMessage.keepInnerOpen
  receiver : s.polling.visibility < Window.tooLong →
    ¬ s.polling.largestDelay < s.polling.smallestDelay →
    ∀ channel, ∃ receiver pump, s.polling.receiver? channel = .ok (receiver, pump) ∧
      s.polling.Describes channel receiver pump
  disordered : s.polling.visibility < Window.tooLong →
    s.polling.largestDelay < s.polling.smallestDelay →
    ∀ channel, s.polling.receiver? channel =
      .error (.delaysOutOfOrder (Decimal.floatText s.polling.largestDelay)
        (Decimal.floatText s.polling.smallestDelay))
  tooLong : ¬ s.polling.visibility < Window.tooLong →
    ∀ channel, s.polling.receiver? channel = .error .outOfRange

theorem usable_of_ofFile? {document : Option String} {s : Settings}
    (h : ofFile? document = .ok s) : s.Usable := by
  have hbounded := bounded_of_ofFile? h
  exact
    { listing := Listing.options?_of_bounded hbounded.listing
      offload := LargeMessage.offload?_of_bounded hbounded.largeMessage
      receiver := fun hvisibility hdelays channel =>
        Polling.receiver?_of_ordered channel hbounded.polling hvisibility hdelays
      disordered := fun hvisibility hdelays channel =>
        Polling.receiver?_of_disordered channel hbounded.polling hvisibility hdelays
      tooLong := fun htooLong channel =>
        Polling.receiver?_of_tooLong channel hbounded.polling htooLong }

/-- A document that is read has settings that pass a test if the reading passes it. -/
theorem exists_of_test (document : String) (test : Settings → Bool)
    (h : ((ofFile? (some document)).toOption.any test) = true) :
    ∃ s, ofFile? (some document) = .ok s ∧ test s = true := by
  cases hread : ofFile? (some document) with
  | error f => rw [hread] at h; cases h
  | ok s => rw [hread] at h; exact ⟨s, rfl, h⟩

theorem usable_of_ofFile?_ordinary :
    ∃ s,
      ofFile? (some "listing:\n  page_size: 50\npolling:\n  max_delay: 30\n  visibility: 7.5\n") =
        .ok s ∧ s.Usable ∧ s.listing.pageSize = 50 ∧
      ∃ receiver pump, s.polling.receiver? "jobs" = .ok (receiver, pump) ∧
        receiver.window = 7500000 := by
  obtain ⟨s, hread, htest⟩ := exists_of_test
    "listing:\n  page_size: 50\npolling:\n  max_delay: 30\n  visibility: 7.5\n"
    (fun s => s.listing.pageSize = 50 ∧ s.polling.visibility = 7.5 ∧
      s.polling.smallestDelay = 0.1 ∧ s.polling.largestDelay = 30)
    (by decide +kernel)
  obtain ⟨hpageSize, hvisibility, hsmallest, hlargest⟩ := of_decide_eq_true htest
  have husable := usable_of_ofFile? hread
  obtain ⟨receiver, pump, hmade, hdescribes⟩ := husable.receiver
    (by rw [hvisibility]; decide +kernel) (by rw [hsmallest, hlargest]; decide +kernel) "jobs"
  refine ⟨s, hread, husable, hpageSize, receiver, pump, hmade, ?_⟩
  have hwindow := hdescribes.window
  rw [hvisibility] at hwindow
  exact (Except.ok.inj hwindow).symm

/-- Delays out of order are read, and so is a visibility of more than a billion days; no
receiver is made from them. -/
theorem refused_after_reading :
    (∃ s, ofFile? (some "polling:\n  max_delay: 1\n  min_delay: 10\n") = .ok s ∧
      s.polling.receiver? "jobs" = .error (.delaysOutOfOrder "1.0" "10.0")) ∧
    ∃ s, ofFile? (some "polling:\n  visibility: 1.0e+300\n") = .ok s ∧
      s.polling.receiver? "jobs" = .error .outOfRange := by
  constructor
  · obtain ⟨s, hread, htest⟩ := exists_of_test "polling:\n  max_delay: 1\n  min_delay: 10\n"
      (fun s => s.polling.visibility = 60 ∧ s.polling.smallestDelay = 10 ∧
        s.polling.largestDelay = 1)
      (by decide +kernel)
    obtain ⟨hvisibility, hsmallest, hlargest⟩ := of_decide_eq_true htest
    have hrefused := Polling.receiver?_of_disordered "jobs" (bounded_of_ofFile? hread).polling
      (by rw [hvisibility]; decide +kernel) (by rw [hsmallest, hlargest]; decide +kernel)
    refine ⟨s, hread, hrefused.trans ?_⟩
    have htexts : Decimal.floatText 1 = "1.0" ∧ Decimal.floatText 10 = "10.0" := by decide +kernel
    rw [hsmallest, hlargest, htexts.1, htexts.2]
  · obtain ⟨s, hread, htest⟩ := exists_of_test "polling:\n  visibility: 1.0e+300\n"
      (fun s => s.polling.visibility = 1.0e+300) (by decide +kernel)
    have hvisibility : s.polling.visibility = 1.0e+300 := of_decide_eq_true htest
    exact ⟨s, hread, Polling.receiver?_of_tooLong "jobs" (bounded_of_ofFile? hread).polling
      (by rw [hvisibility]; decide +kernel)⟩

end Depot.Settings
