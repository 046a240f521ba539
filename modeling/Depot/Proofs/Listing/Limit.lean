import Depot.Proofs.Listing.Completeness
import Mathlib.Data.List.Flatten

/-!
Walks under a limit. Calls that are out when the result becomes full may bring more than
the limit allows, and folders that still wait are given up; yet whatever calls come back
first, the answer is as long as the limit and the store allow, and it is the beginning of
what passes in the levels that were listed.
-/
namespace Depot.Listing

/-- Folders that the levels of a store lead to, though perhaps not all of them: the first
folder first, and each other one after one that shows it. -/
structure Explores (source : Source) (start : String) (order : List String) : Prop where
  unique : order.Nodup
  reached : ∀ f ∈ order, Reached source start f
  first : order.head? = some start
  after : ∀ pre f post, order = pre ++ f :: post → f = start ∨
    ∃ g ∈ pre, ∃ e ∈ source.level g, Shows g e ∧ e.path = f

/-- An answer under a limit, beside all that the listing has to show. -/
def CutAt (k : Nat) (source : Source) (o : Options) (all : List Entry)
    (answer : Except Fault (List Entry)) : Prop :=
  ∃ es order, answer = .ok es ∧ es.length = min k all.length ∧ Explores source o.folder order ∧
    es <+: passing source o order ∧ es.Subperm all

variable {source source' : Source} {o : Options} {start : String} {order whole : List String}
  {k : Nat} {all : List Entry} {answer : Except Fault (List Entry)}

theorem Explores.single : Explores source start [start] where
  unique := List.nodup_singleton start
  reached f hf := by
    rw [List.mem_singleton.mp hf]
    exact .start
  first := rfl
  after pre f post hsplit := by
    cases pre with
    | nil => exact Or.inl (List.cons.inj hsplit).1.symm
    | cons g rest => simp at hsplit

theorem Explores.congr (h : Explores source' start order) (hreply : source'.reply = source.reply) :
    Explores source start order := by
  refine ⟨h.unique, fun f hf => (reached_congr hreply).mp (h.reached f hf), h.first, ?_⟩
  rw [← Source.level_congr hreply]
  exact h.after

theorem CutAt.congr (h : CutAt k source' o all answer) (hreply : source'.reply = source.reply) :
    CutAt k source o all answer := by
  obtain ⟨es, order, hanswer, hlength, hexplores, hprefix, hsub⟩ := h
  refine ⟨es, order, hanswer, hlength, hexplores.congr hreply, ?_, hsub⟩
  simpa only [passing, Source.level_congr hreply] using hprefix

theorem subperm_passing (hunique : order.Nodup) (hsub : order ⊆ whole) :
    (passing source o order).Subperm (passing source o whole) := by
  obtain ⟨picked, hperm, hpicked⟩ := List.subperm_of_subset hunique hsub
  exact ⟨passing source o picked, hperm.flatMap_right _, hpicked.flatMap _⟩

namespace Timeline

variable {p : Plan} {roles : String → Role} {log : List Level} {s : Timeline} {past : List Moment}
  {reached : List String}

theorem Fair.result_eq (h : Fair p roles log past s) (hsame : Steady source past) :
    s.traversal.result = passing source p.options (log.map Prod.fst) := by
  rw [h.kept.record.result, passing, List.flatMap_map]
  apply List.flatMap_congr
  intro l hl
  rw [h.levels hsame l hl]

/-- The folders that have been listed at any moment of a run. -/
theorem Fair.explores (h : Fair p roles log past s) (hsame : Steady source past)
    (hsome : log ≠ []) : Explores source p.options.folder (log.map Prod.fst) where
  unique := h.kept.record.unique
  reached f hf := by
    obtain ⟨l, hl, rfl⟩ := List.mem_map.mp hf
    exact reached_of_order (h.levels hsame) h.kept.record.order l hl
  first := by
    cases hlog : log with
    | nil => exact absurd hlog hsome
    | cons l rest =>
      rcases h.kept.record.order [] l rest hlog with hfirst | ⟨m, hm, -⟩
      · simp [hfirst]
      · simp at hm
  after := after_of_order (h.levels hsame) h.kept.record.order

/-- What has been listed is part of what there is. -/
theorem Fair.subperm (h : Fair p roles log past s) (hsame : Steady source past)
    (hwhole : ∀ f, f ∈ whole ↔ Reached source p.options.folder f) :
    s.traversal.result.Subperm (passing source p.options whole) := by
  rw [h.result_eq hsame]
  apply subperm_passing h.kept.record.unique
  intro f hf
  obtain ⟨l, hl, rfl⟩ := List.mem_map.mp hf
  exact (hwhole _).mpr (reached_of_order (h.levels hsame) h.kept.record.order l hl)

/-- A walk that has ended with a full result holds enough, and any other one holds all. -/
theorem Fair.length_eq (h : Fair p roles log past s) (hsame : Steady source past)
    (hdescends : p.descends = true) (hlimit : p.options.limit = some k)
    (hended : s.ending?.isSome) (hunique : whole.Nodup)
    (hwhole : ∀ f, f ∈ whole ↔ Reached source p.options.folder f) :
    (s.traversal.result.take k).length = min k (passing source p.options whole).length := by
  have hresult := h.result_eq hsame
  rw [List.length_take]
  cases hfull : s.traversal.isFull p with
  | true =>
    have henough : k ≤ s.traversal.result.length := by
      simpa [Traversal.isFull, hlimit] using hfull
    have hmore := (h.subperm hsame hwhole).length_le
    omega
  | false =>
    have hall := (h.account_of_room hdescends hfull hended).enumerates (h.levels hsame)
    have hperm : (log.map Prod.fst).Perm whole := by
      rw [List.perm_ext_iff_of_nodup hall.unique hunique]
      exact fun f => (hall.complete f).trans (hwhole f).symm
    have hlength : (passing source p.options (log.map Prod.fst)).length =
        (passing source p.options whole).length := (hperm.flatMap_right _).length_eq
    rw [hresult, hlength]

/-- How a run under a limit ends. -/
theorem Fair.cut (h : Fair p roles log past s) (hsame : Steady source past)
    (hdescends : p.descends = true) (hlimit : p.options.limit = some k)
    (hended : s.ending?.isSome) (hunique : whole.Nodup)
    (hwhole : ∀ f, f ∈ whole ↔ Reached source p.options.folder f) :
    CutAt k source p.options (passing source p.options whole) (s.outcome p) := by
  have hresult := h.result_eq hsame
  have houtcome : s.outcome p = .ok (s.traversal.result.take k) := by
    rcases h.ending? with ⟨-, hending⟩ | ⟨-, hending⟩
    all_goals simp [Timeline.outcome, hending, Traversal.entries, hlimit]
  have hlength := h.length_eq hsame hdescends hlimit hended hunique hwhole
  have htake : (s.traversal.result.take k).Subperm (passing source p.options whole) :=
    (List.take_sublist k _).subperm.trans (h.subperm hsame hwhole)
  cases hlog : log with
  | nil =>
    -- Nothing was listed, so nothing is answered, and the first folder alone will do.
    have hnothing : s.traversal.result = [] := by rw [hresult, hlog]; rfl
    refine ⟨_, [p.options.folder], houtcome, hlength, .single, ?_, htake⟩
    rw [hnothing, List.take_nil]
    exact List.nil_prefix
  | cons l rest =>
    refine ⟨_, log.map Prod.fst, houtcome, hlength, h.explores hsame (by simp [hlog]), ?_, htake⟩
    rw [hresult]
    exact List.take_prefix k _

/-- A run under a limit over a store that stays the same. -/
theorem Runs.cut {p : Plan} (hrun : Runs p past s) (hsame : Steady source past)
    (hdescends : p.descends = true) (hlimit : p.options.limit = some k)
    (hfilter : p.options.Total) (hanswers : source.Answers) (hunique : whole.Nodup)
    (hwhole : ∀ f, f ∈ whole ↔ Reached source p.options.folder f) :
    past.length ≤ 6 * whole.length ∧
      (s.ending? = none → ∃ s', Move p source s s') ∧
      (s.ending?.isSome →
        CutAt k source p.options (passing source p.options whole) (s.outcome p)) := by
  have hcalm : ∀ m ∈ past, ∀ f, Calm m.source f := by
    intro m hm f
    unfold Calm
    rw [hsame m hm]
    exact hanswers.calm f
  obtain ⟨roles, log, h⟩ := hrun.fair hfilter hcalm
  exact ⟨h.moves_le hsame fun f hf => (hwhole f).mpr hf, fun hopen => h.goes_on source hopen,
    fun hended => h.cut hsame hdescends hlimit hended hunique hwhole⟩

end Timeline

/-- A walk under a limit over a store that answers the same whenever it is asked. There is a
fixed list of entries that every walk without the limit answers in some order, whatever calls
come back first and however many threads there are. The walk under the limit is never stuck
and ends; it answers as many of these entries as the limit allows, and they are the beginning
of what passes in the levels of the folders that it listed, one after another. So does the
walk on the clock. -/
theorem limit_law (hierarchical : Bool) (o : Options) (source : Source) (k : Nat)
    (hlocal : hierarchical = false ∨ o.mode = .localOnly) (hrecurse : o.recurse = true)
    (hlimit : o.limit = some k) (hfilter : o.Total) (hanswers : source.Answers)
    (hfinite : {f | Reached source o.folder f}.Finite) :
    ∃ all : List Entry,
      (∀ threads, (hthreads : 0 < threads) →
        ∀ past s, Timeline.Runs (Plan.ofOptions hierarchical
            { o with limit := none, threads := threads, threads_pos := hthreads }) past s →
          Timeline.Steady source past →
        past.length ≤ 6 * {f | Reached source o.folder f}.ncard ∧
        (s.ending? = none → ∃ s', Timeline.Move (Plan.ofOptions hierarchical
          { o with limit := none, threads := threads, threads_pos := hthreads }) source s s') ∧
        (s.ending?.isSome → ∃ es, s.outcome (Plan.ofOptions hierarchical
          { o with limit := none, threads := threads, threads_pos := hthreads }) = .ok es ∧
          es.Perm all)) ∧
      (∀ past s, Timeline.Runs (Plan.ofOptions hierarchical o) past s →
        Timeline.Steady source past →
        past.length ≤ 6 * {f | Reached source o.folder f}.ncard ∧
        (s.ending? = none → ∃ s', Timeline.Move (Plan.ofOptions hierarchical o) source s s') ∧
        (s.ending?.isSome →
          CutAt k source o all (s.outcome (Plan.ofOptions hierarchical o)))) ∧
      (∀ store : Options → Source,
        (store (Plan.ofOptions hierarchical o).callOptions).reply = source.reply →
        (Timeline.run (Plan.ofOptions hierarchical o)
            (store (Plan.ofOptions hierarchical o).callOptions)).ending?.isSome ∨
          (Timeline.Instant (store (Plan.ofOptions hierarchical o).callOptions) ∧
            {f | Reached source o.folder f}.ncard ≤
              (store (Plan.ofOptions hierarchical o).callOptions).folders + 1) →
        CutAt k source o all (list hierarchical o store).answer) := by
  have hunique : hfinite.toFinset.toList.Nodup := hfinite.toFinset.nodup_toList
  have hwhole : ∀ f, f ∈ hfinite.toFinset.toList ↔ Reached source o.folder f := by
    intro f
    simp
  have hcard : {f | Reached source o.folder f}.ncard = hfinite.toFinset.toList.length := by
    rw [Finset.length_toList, Set.ncard_eq_toFinset_card _ hfinite]
  rw [hcard]
  generalize hfinite.toFinset.toList = whole at hunique hwhole
  have hdescends := descends_of_local hlocal hrecurse
  refine ⟨passing source o whole, ?_, ?_, ?_⟩
  · intro threads hthreads past s hrun hsame
    obtain ⟨hmoves, hopen, hended⟩ := hrun.walk hsame (descends_of_local hlocal hrecurse) rfl
      hfilter hanswers fun f hf => (hwhole f).mpr hf
    refine ⟨hmoves, hopen, fun hend => ?_⟩
    obtain ⟨order, horder, houtcome⟩ := hended hend
    have hperm : order.Perm whole := by
      rw [List.perm_ext_iff_of_nodup horder.unique hunique]
      exact fun f => (horder.complete f).trans (hwhole f).symm
    exact ⟨_, houtcome, hperm.flatMap_right _⟩
  · intro past s hrun hsame
    exact hrun.cut hsame hdescends hlimit hfilter hanswers hunique hwhole
  · intro store hreply hends
    have hanswers' := hanswers.congr hreply
    have hwhole' : ∀ f, f ∈ whole ↔
        Reached (store (Plan.ofOptions hierarchical o).callOptions) o.folder f :=
      fun f => (hwhole f).trans (reached_congr hreply).symm
    obtain ⟨roles, log, past, h, hfixed, hsure⟩ := Timeline.run_fair (Plan.ofOptions hierarchical o)
      hfilter fun f _ => hanswers'.calm f
    have hended := hends.elim id fun hinstant =>
      hsure whole (fun f hf => (hwhole' f).mpr hf) hinstant.1 hinstant.2
    have hcut := (h.cut hfixed.steady hdescends hlimit hended hunique hwhole').congr hreply
    have hsame : passing (store (Plan.ofOptions hierarchical o).callOptions) o whole =
        passing source o whole := by
      simp only [passing, Source.level_congr hreply]
    cases k with
    | zero =>
      refine ⟨[], [o.folder], by simp [list, hlimit], by simp, .single, List.nil_prefix, ?_⟩
      exact List.nil_subperm
    | succ k =>
      have hanswer : (list hierarchical o store).answer =
          (Timeline.run (Plan.ofOptions hierarchical o)
            (store (Plan.ofOptions hierarchical o).callOptions)).outcome
              (Plan.ofOptions hierarchical o) := by
        simp [list, hlimit]
      rw [hanswer, ← hsame]
      exact hcut

/-- Two of the three entries of the store, taken from the first level. -/
theorem limit_law_twoLevels :
    ∃ all, CutAt 2 twoLevels { everything with limit := some 2 } all
      (list false { everything with limit := some 2 } fun _ => twoLevels).answer := by
  have hsub : {f | Reached twoLevels "" f} ⊆ {"", "a"} := fun f hf => twoLevels_reached hf
  have hcard : {f | Reached twoLevels "" f}.ncard ≤ twoLevels.folders + 1 :=
    (Set.ncard_le_ncard hsub).trans (Set.ncard_pair (by decide)).le
  obtain ⟨all, -, -, hclock⟩ := limit_law false { everything with limit := some 2 } twoLevels 2
    (Or.inl rfl) rfl rfl everything_total twoLevels_answers (Set.Finite.subset (by simp) hsub)
  exact ⟨all, hclock (fun _ => twoLevels) rfl
    (Or.inr ⟨fun _ => show ¬ (0 : Float) < 0 by decide, hcard⟩)⟩

end Depot.Listing
