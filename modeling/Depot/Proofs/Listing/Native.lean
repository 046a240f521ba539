import Depot.Proofs.Listing.Completeness

/-!
A listing that is left to the store. It is a single call, and the answer is what passes
in its level.
-/
namespace Depot.Listing

namespace Timeline

variable {p : Plan} {roles : String → Role} {log : List Level} {s : Timeline}
  {source : Source} {past : List Moment}

theorem Fair.links_of_single (h : Fair p roles log past s) (hsingle : p.descends = false) :
    s.links = [(p.options.folder, none)] := by
  obtain ⟨rest, hlinks, -⟩ := h.kept.family.first
  have hlength := h.kept.record.single hsingle
  rw [hlinks, List.length_cons] at hlength
  have hrest : rest = [] := List.length_eq_zero_iff.mp (by omega)
  rw [hlinks, hrest]

/-- Only the first folder is ever listed. -/
theorem Fair.log_of_single (h : Fair p roles log past s) (hsingle : p.descends = false)
    (hlimit : p.options.limit = none) (hended : s.ending?.isSome) :
    ∃ level, log = [(p.options.folder, level)] := by
  have hfull := isFull_of_unlimited hlimit s.traversal
  have honly : ∀ l ∈ log, l.1 = p.options.folder := by
    intro l hl
    by_contra hne
    have habsent : (Role.phase ∘ roles) l.1 = .absent := by
      rw [h.kept.family.known, h.links_of_single hsingle]
      simpa using hne
    have hpast := h.kept.record.past l.1 (List.mem_map_of_mem hl)
    rw [habsent] at hpast
    exact hpast
  have hstart : p.options.folder ∈ log.map Prod.fst := by
    obtain ⟨reported, hover⟩ : ∃ reported, roles p.options.folder = .ended reported := by
      rcases h.ending? with ⟨hover, -⟩ | ⟨-, hnone⟩
      · exact hover
      · simp [hnone] at hended
    rcases h.kept.record.listed p.options.folder (by simp [hover, Role.phase, Phase.isPast]) with
      hmem | hmem
    · exact hmem
    · simp [hfull] at hmem
  cases hlog : log with
  | nil => simp [hlog] at hstart
  | cons l rest =>
    rw [hlog] at honly
    have hl := honly l List.mem_cons_self
    have hunique := h.kept.record.unique
    rw [hlog, List.map_cons, List.nodup_cons] at hunique
    have hrest : rest = [] := by
      rw [List.eq_nil_iff_forall_not_mem]
      intro m hm
      apply hunique.1
      rw [hl, ← honly m (List.mem_cons_of_mem _ hm)]
      exact List.mem_map_of_mem hm
    exact ⟨l.2, by rw [hrest, ← hl]⟩

theorem Fair.outcome_of_single (h : Fair p roles log past s) (hsame : Steady source past)
    (hsingle : p.descends = false) (hlimit : p.options.limit = none)
    (hended : s.ending?.isSome) :
    s.outcome p = .ok ((source.level p.options.folder).filter p.options.passes) := by
  obtain ⟨level, rfl⟩ := h.log_of_single hsingle hlimit hended
  have hlevel := h.levels hsame (p.options.folder, level) (by simp)
  rw [h.outcome hlimit]
  simp [← hlevel]

end Timeline

/-- A listing that does not go down ends, when its call takes no time. -/
theorem list_of_single {hierarchical : Bool} {o : Options} (store : Options → Source)
    (hsingle : (Plan.ofOptions hierarchical o).descends = false)
    (hlimit : o.limit = none) (hfilter : o.Total)
    (hcalm : ∀ f, Reached (store (Plan.ofOptions hierarchical o).callOptions) o.folder f →
      Timeline.Calm (store (Plan.ofOptions hierarchical o).callOptions) f)
    (hinstant : Timeline.Instant (store (Plan.ofOptions hierarchical o).callOptions)) :
    (list hierarchical o store).answer = .ok
      (((store (Plan.ofOptions hierarchical o).callOptions).level o.folder).filter o.passes) := by
  obtain ⟨roles, log, past, h, hfixed, hmoves⟩ :=
    (Timeline.Fair.start (Plan.ofOptions hierarchical o)).steps hfilter hcalm
      (by simp [Timeline.Fixed])
      (7 * ((store (Plan.ofOptions hierarchical o).callOptions).folders + 1))
  have hended : (Timeline.run (Plan.ofOptions hierarchical o)
      (store (Plan.ofOptions hierarchical o).callOptions)).ending?.isSome := by
    rcases hmoves hinstant with hended | hlength
    · exact hended
    · have hscore := Timeline.score_le roles (Timeline.run (Plan.ofOptions hierarchical o)
        (store (Plan.ofOptions hierarchical o).callOptions))
      have hfolders : (Timeline.run (Plan.ofOptions hierarchical o)
          (store (Plan.ofOptions hierarchical o).callOptions)).folders.length = 1 := by
        rw [Timeline.folders_eq, List.length_map]
        exact h.kept.record.single hsingle
      have hmoved := h.moves
      simp only [List.length_nil] at hlength
      rw [hfolders] at hscore
      change past.length ≤ Timeline.score roles (Timeline.run _ _) at hmoved
      omega
  simp only [list, hlimit, reduceCtorEq, if_false]
  exact h.outcome_of_single hfixed.steady hsingle hlimit hended

end Depot.Listing
