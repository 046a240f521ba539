import Depot.Proofs.Listing.Moves

/-!
The end of a run without failures. Until the first visit is over, an event is on the
agenda or a call is running; once it is over, every folder that any level shows has
been listed, and what was listed is the answer.
-/
namespace Depot.Listing.Timeline

variable {p : Plan} {roles : String → Role} {log : List Level} {s s' : Timeline}
  {source : Source} {past : List Moment} {f : String}

/-- The first visit is the one of the folder that the listing is about. -/
theorem exists_head {start : String} {phase : String → Phase} (h : Family start phase s.links) :
    ∃ v rest, s.visits = v :: rest ∧ v.folder = start ∧ v.above = none := by
  obtain ⟨rest, hlinks, -⟩ := h.first
  cases hvisits : s.visits with
  | nil => simp [links, hvisits] at hlinks
  | cons v more =>
    simp only [links, hvisits, List.map_cons, List.cons.injEq, Prod.mk.injEq] at hlinks
    exact ⟨v, more, rfl, hlinks.1.1, hlinks.1.2⟩

/-- A listing has ended just when the first visit is over, and then it has not failed. -/
theorem Fair.ending? (h : Fair p roles log past s) :
    ((∃ reported, roles p.options.folder = .ended reported) ∧ s.ending? = some .done) ∨
      ((∀ reported, roles p.options.folder ≠ .ended reported) ∧ s.ending? = none) := by
  obtain ⟨v, rest, hvisits, hfolder, -⟩ := exists_head h.kept.family
  have hv : v ∈ s.visits := by simp [hvisits]
  have hfits := (h.kept.ledger.fits v hv).2
  have hrested := h.rested p.options.folder
  rw [Timeline.ending?, hvisits, List.head?_cons]
  rw [hfolder] at hfits
  cases hrole : roles p.options.folder with
  | ended reported =>
    simp only [hrole, Role.Fits] at hfits
    exact Or.inl ⟨⟨reported, rfl⟩, by simp [hfits]⟩
  | absent => simp [hrole, Role.Fits] at hfits
  | entering | leaving | closing => simp [hrole, Role.InTurn] at hrested
  | _ =>
    simp only [hrole, Role.Fits] at hfits
    exact Or.inr ⟨by simp, by simp [hfits]⟩

theorem Kept.agenda_of_turn (h : Kept p roles log s) (hturns : (roles f).turns = 1) :
    ∃ e rest, s.agenda = e :: rest := by
  have hcount := h.ledger.turns f
  rw [hturns] at hcount
  cases hagenda : s.agenda with
  | nil => simp [hagenda] at hcount
  | cons e rest => exact ⟨e, rest, rfl⟩

theorem Kept.agenda_of_report (h : Kept p roles log s) (hrole : roles f = .ended false) :
    ∃ e rest, s.agenda = e :: rest := by
  have hcount := h.ledger.reports f
  cases hagenda : s.agenda with
  | nil => simp [hagenda, hrole, Role.reports] at hcount
  | cons e rest => exact ⟨e, rest, rfl⟩

theorem Kept.running_of_call (h : Kept p roles log s) (hrole : roles f = .calling) :
    s.running ≠ [] := by
  have hcount := h.ledger.running f
  rintro hrunning
  simp [hrunning, hrole, Role.calls] at hcount

/-- Somebody holds the permits that are not free. -/
theorem Kept.holder (h : Kept p roles log s) (hpermits : s.permits = 0) :
    ∃ g, 0 < (roles g).permits := by
  by_contra hnone
  push Not at hnone
  have hzero : (s.folders.map fun g => (roles g).permits).sum = 0 := by
    apply List.sum_eq_zero_iff_forall_eq_nat.mpr
    intro n hn
    obtain ⟨g, -, rfl⟩ := List.mem_map.mp hn
    exact Nat.le_zero.mp (hnone g)
  have hsum := h.ledger.permits
  have hpos := p.options.threads_pos
  omega

/-- Nothing is stuck: an open visit has its turn, its report or its call under way. -/
theorem Fair.busy (h : Fair p roles log past s) (hopen : s.ending? = none) :
    (∃ e rest, s.agenda = e :: rest) ∨ s.running ≠ [] := by
  have hstart : ∀ reported, roles p.options.folder ≠ .ended reported := by
    rcases h.ending? with ⟨-, hsome⟩ | ⟨hstart, -⟩
    · simp [hsome] at hopen
    · exact hstart
  have hstart' : ∀ reported, (Role.phase ∘ roles) p.options.folder ≠ .ended reported := by
    intro reported hover
    cases hrole : roles p.options.folder <;> simp_all [Role.phase]
  have hholder : ∀ g, 0 < (roles g).permits →
      (∃ e rest, s.agenda = e :: rest) ∨ s.running ≠ [] := by
    intro g hg
    have hrested := h.rested g
    cases hrole : roles g with
    | granted | returned => exact Or.inl (h.kept.agenda_of_turn (f := g) (by rw [hrole]; rfl))
    | calling => exact Or.inr (h.kept.running_of_call hrole)
    | entering => simp [hrole, Role.InTurn] at hrested
    | _ => simp [hrole, Role.permits] at hg
  obtain ⟨f, -, hf⟩ := h.kept.family.exists_open hstart'
  have hrested := h.rested f
  cases hrole : roles f with
  | fresh | granted | returned | gathered =>
    exact Or.inl (h.kept.agenda_of_turn (f := f) (by rw [hrole]; rfl))
  | calling => exact Or.inr (h.kept.running_of_call hrole)
  | queued =>
    rcases h.kept.served ⟨f, hrole⟩ with hnone | ⟨g, hg⟩
    · obtain ⟨g, hg⟩ := h.kept.holder hnone
      exact hholder g hg
    · exact hholder g (by simp [hg, Role.permits])
  | ended reported =>
    simp only [Function.comp_apply, hrole, Role.phase] at hf
    obtain rfl : reported = false := by simpa using hf
    exact Or.inl (h.kept.agenda_of_report hrole)
  | entering | leaving | closing => simp [hrole, Role.InTurn] at hrested
  | absent | gathering => simp [hrole, Role.phase] at hf

/-- Whoever has something to do can go on. -/
theorem exists_move (p : Plan) (source : Source) (hopen : s.ending? = none)
    (hbusy : (∃ e rest, s.agenda = e :: rest) ∨ s.running ≠ []) : ∃ s', Move p source s s' := by
  have hopen' : s.ending?.isNone := by simp [hopen]
  rcases hbusy with ⟨e, rest, hagenda⟩ | hrunning
  · exact ⟨_, .handle hopen' hagenda⟩
  · have hperm : (s.running ++ []).Perm s.running := by simp
    exact ⟨_, .elapse s.now hopen' hperm hrunning⟩

theorem Fair.goes_on (h : Fair p roles log past s) (source : Source) (hopen : s.ending? = none) :
    ∃ s', Move p source s s' :=
  exists_move p source hopen (h.busy hopen)

/-- A listing level by level: every folder that a level shows has its level, and every
folder but the first comes after one whose level shows it. -/
structure Account (start : String) (log : List Level) : Prop where
  unique : (log.map Prod.fst).Nodup
  first : (log.map Prod.fst).head? = some start
  closed : ∀ l ∈ log, ∀ e ∈ l.2, Shows l.1 e → e.path ∈ log.map Prod.fst
  order : ∀ pre l post, log = pre ++ l :: post → l.1 = start ∨
    ∃ m ∈ pre, ∃ e ∈ m.2, Shows m.1 e ∧ e.path = l.1

theorem isFull_of_unlimited (hlimit : p.options.limit = none) (t : Traversal) :
    t.isFull p = false := by
  simp [Traversal.isFull, hlimit]

/-- What has been listed once the listing has ended before its result was full. -/
theorem Fair.account_of_room (h : Fair p roles log past s) (hdescends : p.descends = true)
    (hroom : s.traversal.isFull p = false) (hended : s.ending?.isSome) :
    Account p.options.folder log := by
  obtain ⟨reported, hover⟩ : ∃ reported, roles p.options.folder = .ended reported := by
    rcases h.ending? with ⟨hover, -⟩ | ⟨-, hnone⟩
    · exact hover
    · simp [hnone] at hended
  have hall := h.kept.family.all_over ⟨reported, by simp [hover, Role.phase]⟩
  have hlisted : ∀ f ∈ s.links.map Prod.fst, f ∈ log.map Prod.fst := by
    intro f hf
    rcases h.kept.record.listed f (by rw [hall f hf]; exact trivial) with hmem | hmem
    · exact hmem
    · simp [hroom] at hmem
  have hstart := hlisted _ (List.mem_map_of_mem (f := Prod.fst) h.kept.family.start_mem)
  refine ⟨h.kept.record.unique, ?_, ?_, h.kept.record.order⟩
  · cases hlog : log with
    | nil => simp [hlog] at hstart
    | cons l rest =>
      rcases h.kept.record.order [] l rest hlog with hfirst | ⟨m, hm, -⟩
      · simp [hfirst]
      · simp at hm
  · intro l hl e he hshows
    rcases h.kept.record.closed hdescends l hl e he hshows with hvisited | hmem
    · rw [h.kept.record.visited] at hvisited
      exact hlisted _ hvisited
    · simp [hroom] at hmem

theorem Fair.account (h : Fair p roles log past s) (hdescends : p.descends = true)
    (hlimit : p.options.limit = none) (hended : s.ending?.isSome) :
    Account p.options.folder log :=
  h.account_of_room hdescends (isFull_of_unlimited hlimit _) hended

theorem Fair.outcome (h : Fair p roles log past s) (hlimit : p.options.limit = none) :
    s.outcome p = .ok (log.flatMap fun l => l.2.filter p.options.passes) := by
  have hentries : s.traversal.entries p = s.traversal.result := by
    simp [Traversal.entries, hlimit]
  rw [← h.kept.record.result, ← hentries]
  rcases h.ending? with ⟨-, hending⟩ | ⟨-, hending⟩ <;> simp [Timeline.outcome, hending]

end Depot.Listing.Timeline
