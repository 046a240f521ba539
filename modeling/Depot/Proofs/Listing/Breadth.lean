import Depot.Proofs.Listing.Completeness
import Mathlib.Logic.Function.Iterate

/-!
A listing whose calls take no time. Nobody has to wait for a permit, so the folders
have their turns in the order in which they were found: the first folder in line is
listed and merged, and the new folders of its level go behind the others.
-/
namespace Depot.Listing

namespace Traversal

def advance (p : Plan) (source : Source) (t : Traversal) : Traversal :=
  match t.waiting with
  | [] => t
  | folder :: _ =>
    if t.isFull p then t.launch p folder
    else (t.launch p folder).absorb p folder (source.reply folder)

theorem found_launch {p : Plan} {t : Traversal} (folder : String) (level : List Entry) :
    (t.launch p folder).found p folder level = t.found p folder level := by
  simp only [found, merged, isFull, result_launch, visited_launch]
  rfl

end Traversal

namespace Timeline

def Stage.isFresh : Stage → Bool
  | .fresh => true
  | _ => false

def isNew (s : Timeline) (folder : String) : Bool :=
  (s.visit? folder).any fun v => v.stage.isFresh

def turnsOf (agenda : List Event) : List String :=
  agenda.filterMap fun e => match e with
    | .turn folder => some folder
    | .report _ => none

def firstTurns (s : Timeline) : List String := (turnsOf s.agenda).filter s.isNew

/-- Nobody is in line for a permit, all permits are free, and first turns come in the order
in which the folders were found. -/
structure Prompt (p : Plan) (s : Timeline) : Prop where
  line : s.line = []
  permits : s.permits = p.options.threads
  inOrder : s.firstTurns = s.traversal.waiting

variable {p : Plan} {roles : String → Role} {log : List Level} {s s' : Timeline}
  {source : Source} {past : List Moment} {f g : String} {v : Visit} {stage : Stage}
  {rest : List Event}

/-- Nothing is lost from a list without the one that is left out. -/
theorem filter_ne_self {folders : List String} (h : f ∉ folders) :
    folders.filter (· ≠ f) = folders := by
  rw [List.filter_eq_self]
  intro g hg
  have hne : g ≠ f := fun hsame => h (hsame ▸ hg)
  simpa using hne

theorem find_eq_none {visits : List Visit} (h : ∀ v ∈ visits, v.folder ≠ g) :
    visits.find? (fun v => decide (v.folder = g)) = none := by
  rw [List.find?_eq_none]
  intro v hv
  simpa using h v hv

theorem isNew_setStage (hstage : stage.isFresh = false) :
    (s.setStage f stage).isNew g = (decide (g ≠ f) && s.isNew g) := by
  simp only [isNew, visit?_setStage]
  by_cases hg : g = f
  · subst hg
    cases s.visit? g <;> simp [hstage]
  · simp [hg]

theorem not_mem_firstTurns (hold : s.isNew f = false) : f ∉ s.firstTurns := by
  intro hmem
  have hnew := (List.mem_filter.mp hmem).2
  simp [hold] at hnew

/-- A visit that leaves its first stage has its first turn behind it. -/
theorem firstTurns_setStage (hstage : stage.isFresh = false) :
    (s.setStage f stage).firstTurns = s.firstTurns.filter (· ≠ f) := by
  unfold firstTurns
  rw [List.filter_filter]
  apply List.filter_congr
  intro g _
  exact isNew_setStage hstage

/-- A visit that had its first turn before does not count among the first turns. -/
theorem firstTurns_restage (hold : s.isNew f = false) (hstage : stage.isFresh = false) :
    (s.setStage f stage).firstTurns = s.firstTurns := by
  rw [firstTurns_setStage hstage, filter_ne_self (not_mem_firstTurns hold)]

theorem turnsOf_append (agenda more : List Event) :
    turnsOf (agenda ++ more) = turnsOf agenda ++ turnsOf more :=
  List.filterMap_append ..

theorem turnsOf_turns (found : List String) : turnsOf (found.map Event.turn) = found := by
  simp [turnsOf, List.filterMap_map]

theorem firstTurns_report : (s.push (.report f)).firstTurns = s.firstTurns := by
  simp only [firstTurns, push, turnsOf_append]
  exact congrArg (List.filter _) (List.append_nil _)

theorem firstTurns_turn (hold : s.isNew f = false) :
    (s.push (.turn f)).firstTurns = s.firstTurns := by
  have hnone : (turnsOf [.turn f]).filter s.isNew = [] := by
    simp [turnsOf, hold]
  have happend : (s.push (.turn f)).firstTurns =
      s.firstTurns ++ (turnsOf [.turn f]).filter s.isNew := by
    rw [firstTurns, push, turnsOf_append, List.filter_append]
    rfl
  rw [happend, hnone, List.append_nil]

theorem firstTurns_finish (how : Ending) :
    (s.finish v how).firstTurns = s.firstTurns.filter (· ≠ v.folder) := by
  unfold finish
  split
  · rw [firstTurns_report, firstTurns_setStage rfl]
  · exact firstTurns_setStage rfl

/-- New visits have their first turns behind those that others await. -/
theorem firstTurns_awaiting {found : List String} (hnew : ∀ g ∈ found, g ∉ s.folders)
    (hturns : ∀ g ∈ found, g ∉ turnsOf s.agenda) (hf : f ∈ s.folders) :
    (s.awaiting f found).firstTurns = s.firstTurns.filter (· ≠ f) ++ found := by
  let more : Timeline := { s with
    visits := s.visits ++ found.map fun g => (⟨g, some f, .fresh, false⟩ : Visit)
    agenda := s.agenda ++ found.map Event.turn }
  have hold : ∀ g, g ∉ found → more.isNew g = s.isNew g := by
    intro g hg
    have hnone : (found.map fun g => (⟨g, some f, .fresh, false⟩ : Visit)).find?
        (fun v => decide (v.folder = g)) = none := by
      apply find_eq_none
      intro v hv hsame
      obtain ⟨h, hh, rfl⟩ := List.mem_map.mp hv
      exact hg (hsame ▸ hh)
    simp only [isNew, visit?, more, List.find?_append, hnone, Option.or_none]
  have hfresh : ∀ g ∈ found, more.isNew g = true := by
    intro g hg
    have hnone : s.visits.find? (fun v => decide (v.folder = g)) = none :=
      find_eq_none fun v hv hsame => hnew g hg (hsame ▸ List.mem_map_of_mem hv)
    obtain ⟨v, hv⟩ : ∃ v, (found.map fun g => (⟨g, some f, .fresh, false⟩ : Visit)).find?
        (fun v => decide (v.folder = g)) = some v := by
      apply Option.isSome_iff_exists.mp
      rw [List.find?_isSome]
      exact ⟨_, List.mem_map_of_mem hg, by simp⟩
    obtain ⟨h, -, rfl⟩ := List.mem_map.mp (List.mem_of_find?_eq_some hv)
    simp only [isNew, visit?, more, List.find?_append, hnone, Option.none_or, hv]
    rfl
  have hmore : more.firstTurns = s.firstTurns ++ found := by
    have hfirst : (turnsOf s.agenda).filter more.isNew = (turnsOf s.agenda).filter s.isNew := by
      apply List.filter_congr
      intro g hg
      exact hold g fun hin => hturns g hin hg
    have hlast : found.filter more.isNew = found := List.filter_eq_self.mpr hfresh
    rw [firstTurns, show more.agenda = s.agenda ++ found.map Event.turn from rfl, turnsOf_append,
      turnsOf_turns, List.filter_append, hfirst, hlast]
    rfl
  have hout : found.filter (· ≠ f) = found := filter_ne_self fun hin => hnew f hin hf
  rw [awaiting, firstTurns_setStage rfl, hmore, List.filter_append, hout]

/-- The state of a timeline in which nobody is in line when a permit comes back. -/
theorem release_eq (hline : s.line = []) : s.release = { s with permits := s.permits + 1 } := by
  simp [release, wakeNext, hline]

/-- A report changes the stage of a visit that had its first turn before, if anything. -/
theorem report_cases (how : Ending) :
    s.report f how = s ∨ ∃ stage, stage.isFresh = false ∧ s.isNew f = false ∧
      (s.report f how = s.setStage f stage ∨
        s.report f how = (s.setStage f stage).push (.turn f)) := by
  unfold report
  cases hvisit : s.visit? f with
  | none => exact Or.inl rfl
  | some v =>
    dsimp only
    split
    · rename_i n hstage
      have hold : s.isNew f = false := by simp [isNew, hvisit, hstage, Stage.isFresh]
      split
      · split
        · exact Or.inr ⟨_, rfl, hold, Or.inr rfl⟩
        · exact Or.inr ⟨_, rfl, hold, Or.inl rfl⟩
      · exact Or.inr ⟨_, rfl, hold, Or.inr rfl⟩
    · exact Or.inl rfl

/-- Nothing that matters to first turns changes with a report. -/
theorem Prompt.report (h : Prompt p s) (f : String) (how : Ending) :
    Prompt p (s.report f how) ∧ (s.report f how).traversal = s.traversal := by
  rcases report_cases (s := s) (f := f) how with hsame | ⟨stage, hstage, hold, hsame | hsame⟩
  · rw [hsame]
    exact ⟨h, rfl⟩
  · rw [hsame]
    exact ⟨⟨h.line, h.permits, (firstTurns_restage hold hstage).trans h.inOrder⟩, rfl⟩
  · rw [hsame]
    have hold' : (s.setStage f stage).isNew f = false := by
      rw [isNew_setStage hstage]
      simp
    refine ⟨⟨h.line, h.permits, ?_⟩, rfl⟩
    rw [firstTurns_turn hold', firstTurns_restage hold hstage]
    exact h.inOrder

theorem mem_turnsOf : f ∈ turnsOf s.agenda ↔ 0 < s.agenda.count (.turn f) := by
  rw [List.count_pos_iff, turnsOf, List.mem_filterMap]
  constructor
  · rintro ⟨e, he, hf⟩
    cases e with
    | turn g =>
      obtain rfl : g = f := by simpa using hf
      exact he
    | report g => simp at hf
  · intro hmem
    exact ⟨_, hmem, rfl⟩

/-- The turn of a visit whose visits below are all over. -/
theorem Prompt.turn_gathered (h : Prompt p s) (hagenda : s.agenda = .turn v.folder :: rest)
    (hold : s.isNew v.folder = false) :
    Prompt p ({ s with agenda := rest }.finish v .done) where
  line := (line_finish .done).trans h.line
  permits := (permits_finish .done).trans h.permits
  inOrder := by
    have hnew : isNew { s with agenda := rest } = s.isNew := rfl
    have hfirst : firstTurns { s with agenda := rest } = s.firstTurns := by
      simp [firstTurns, hagenda, turnsOf, hnew, hold]
    rw [firstTurns_finish, traversal_finish, hfirst, filter_ne_self (not_mem_firstTurns hold)]
    exact h.inOrder

/-- A visit that holds a permit is through with its call at once. -/
theorem prompt_enter (hline : s.line = []) (hpermits : s.permits + 1 = p.options.threads)
    (hmem : v.folder ∈ s.folders)
    (hwaiting : s.traversal.waiting = v.folder :: s.firstTurns.filter (· ≠ v.folder))
    (hfresh : ∀ level, ∀ g ∈ s.traversal.found p v.folder level,
      g ∉ s.folders ∧ g ∉ turnsOf s.agenda)
    (hfilter : p.options.Total) (hcalm : Calm source v.folder) (hinstant : Instant source) :
    Prompt p (s.enter p source v) ∧
      (s.enter p source v).traversal = s.traversal.advance p source := by
  let t := s.traversal.launch p v.folder
  let started : Timeline := { s with traversal := t, peak := max s.peak t.inFlight.length }
  have hrelease : started.release = { started with permits := started.permits + 1 } :=
    release_eq hline
  have hleft : t.waiting = s.firstTurns.filter (· ≠ v.folder) := by
    simp only [t, Traversal.launch]
    split <;> simp [hwaiting]
  simp only [Timeline.enter, Traversal.advance, hwaiting]
  by_cases hfull : s.traversal.isFull p = true
  · rw [if_pos hfull, if_pos hfull]
    refine ⟨⟨?_, ?_, ?_⟩, ?_⟩
    · rw [line_finish]
      exact (congrArg Timeline.line hrelease).trans hline
    · rw [permits_finish]
      exact (congrArg Timeline.permits hrelease).trans hpermits
    · rw [firstTurns_finish, traversal_finish, traversal_release]
      exact (congrArg (fun s => s.firstTurns.filter (· ≠ v.folder)) hrelease).trans hleft.symm
    · rw [traversal_finish, traversal_release]
  · rw [if_neg hfull, if_neg hfull, if_neg (hinstant v.folder)]
    obtain ⟨level, hreply⟩ := hcalm
    let merged := t.absorb p v.folder (source.reply v.folder)
    let back : Timeline := { started with permits := started.permits + 1, traversal := merged }
    have hback : started.back p v.folder (source.reply v.folder) = back := by
      simp only [Timeline.back, hrelease, back]
      rfl
    have hmerged : merged.waiting =
        s.firstTurns.filter (· ≠ v.folder) ++ s.traversal.found p v.folder level := by
      rw [← hleft, ← Traversal.found_launch]
      exact congrArg Traversal.waiting (Traversal.absorb_eq (t := t) hfilter hreply)
    rw [comeBack_eq hfilter hreply]
    dsimp only
    rw [hback, show started.traversal.found p v.folder level = s.traversal.found p v.folder level
      from Traversal.found_launch v.folder level]
    by_cases hnone : s.traversal.found p v.folder level = []
    · rw [if_pos hnone]
      refine ⟨⟨(line_finish .done).trans hline, (permits_finish .done).trans hpermits, ?_⟩,
        traversal_finish .done⟩
      rw [firstTurns_finish, traversal_finish]
      rw [hnone, List.append_nil] at hmerged
      exact hmerged.symm
    · rw [if_neg hnone]
      have hturns := firstTurns_awaiting (s := back) (fun g hg => (hfresh level g hg).1)
        (fun g hg => (hfresh level g hg).2) hmem
      exact ⟨⟨hline, hpermits, hturns.trans hmerged.symm⟩, rfl⟩

/-- The first turn of a visit, in which its folder is listed. -/
theorem Prompt.turn_fresh (hprompt : Prompt p s) (h : Kept p roles log s)
    (hfilter : p.options.Total) (hcalm : Calm source v.folder) (hinstant : Instant source)
    (hagenda : s.agenda = .turn v.folder :: rest) (hv : v ∈ s.visits)
    (hrole : roles v.folder = .fresh) :
    Prompt p ({ s with agenda := rest }.turn p source v) ∧
      ({ s with agenda := rest }.turn p source v).traversal = s.traversal.advance p source := by
  have hfits := h.ledger.fits v hv
  simp only [hrole, Role.Fits] at hfits
  have hnew : s.isNew v.folder = true := by
    simp [isNew, visit?_of_mem h.ledger.unique hv, hfits.2, Stage.isFresh]
  have honce : v.folder ∉ turnsOf rest := by
    have hturns := h.ledger.turns v.folder
    rw [hagenda, hrole, List.count_cons_self] at hturns
    rw [mem_turnsOf (s := { s with agenda := rest })]
    simp only [Role.turns] at hturns
    dsimp only
    omega
  have hpos := p.options.threads_pos
  have hpermits := hprompt.permits
  have hmust : mustQueue { s with agenda := rest } = false := by
    simp only [mustQueue, hprompt.line, List.any_nil, Bool.or_false, decide_eq_false_iff_not]
    omega
  simp only [Timeline.turn, hfits.1, hfits.2, hmust, Bool.false_eq_true, if_false]
  refine prompt_enter hprompt.line ?_ (List.mem_map_of_mem hv) ?_ ?_ hfilter hcalm hinstant
  · dsimp only
    omega
  · have hothers : ((turnsOf rest).filter s.isNew).filter (· ≠ v.folder) =
        (turnsOf rest).filter s.isNew :=
      filter_ne_self fun hin => honce (List.mem_filter.mp hin).1
    have hwaiting : s.traversal.waiting = v.folder :: (turnsOf rest).filter s.isNew := by
      rw [← hprompt.inOrder]
      simp [firstTurns, hagenda, turnsOf, hnew]
    rw [← hothers] at hwaiting
    exact hwaiting
  · intro level g hg
    obtain ⟨habsent, -⟩ := (h.found_spec v.folder level).2 g hg
    refine ⟨(h.ledger.absent g).mp habsent, ?_⟩
    have hturns := h.ledger.turns g
    rw [hagenda, habsent, List.count_cons] at hturns
    simp only [Role.turns] at hturns
    rw [mem_turnsOf]
    dsimp only
    omega

theorem Prompt.start (p : Plan) : Prompt p (.start p) where
  line := rfl
  permits := rfl
  inOrder := by simp [firstTurns, turnsOf, Timeline.start, Traversal.start, isNew, visit?,
    Stage.isFresh]

/-- One event of the agenda. -/
theorem Prompt.handle (hprompt : Prompt p s) (h : Fair p roles log past s)
    (hquiet : ∀ f, ¬ (roles f).IsOut) (hfilter : p.options.Total) (hcalm : ∀ f, Calm source f)
    (hinstant : Instant source) {e : Event} (hagenda : s.agenda = e :: rest) :
    Prompt p ({ s with agenda := rest }.handle p source e) ∧
      (({ s with agenda := rest }.handle p source e).traversal = s.traversal ∨
        ({ s with agenda := rest }.handle p source e).traversal =
          s.traversal.advance p source) := by
  cases e with
  | report f =>
    have hfirst : firstTurns { s with agenda := rest } = s.firstTurns := by
      simp only [firstTurns, hagenda, turnsOf]
      rfl
    have hpopped : Prompt p { s with agenda := rest } :=
      ⟨hprompt.line, hprompt.permits, hfirst.trans hprompt.inOrder⟩
    simp only [Timeline.handle]
    split
    · rename_i above how _ _
      exact ⟨(hpopped.report above how).1, Or.inl (hpopped.report above how).2⟩
    · exact ⟨hpopped, Or.inl rfl⟩
  | turn f =>
    have hturns : 0 < (roles f).turns := by
      rw [← h.kept.ledger.turns, hagenda]
      simp
    obtain ⟨v, hv, rfl, hvisit⟩ := h.kept.ledger.visit (f := f)
      (by intro habsent; simp [habsent, Role.turns] at hturns)
    have hvisit' : visit? { s with agenda := rest } v.folder = some v := hvisit
    simp only [Timeline.handle, hvisit']
    cases hrole : roles v.folder with
    | fresh =>
      have hturn := hprompt.turn_fresh h.kept hfilter (hcalm v.folder) hinstant hagenda hv hrole
      exact ⟨hturn.1, Or.inr hturn.2⟩
    | granted =>
      have hplace := h.kept.ledger.line v.folder
      simp [hprompt.line, hrole, Role.places] at hplace
    | returned => exact absurd (Or.inr hrole) (hquiet v.folder)
    | gathered =>
      have hfits := h.kept.ledger.fits v hv
      simp only [hrole, Role.Fits] at hfits
      simp only [Timeline.turn, hfits.1, hfits.2, Bool.false_eq_true, if_false]
      have hold : s.isNew v.folder = false := by simp [isNew, hvisit, hfits.2, Stage.isFresh]
      exact ⟨hprompt.turn_gathered hagenda hold, Or.inl (traversal_finish .done)⟩
    | _ => simp [hrole, Role.turns] at hturns

/-- A run in which calls take no time lists one folder after another, in the order in which
they were found. -/
theorem Runs.breadth_first (hrun : Runs p past s) (hfilter : p.options.Total)
    (hcalm : ∀ f, Calm source f) (hinstant : Instant source) (hfixed : Fixed source past) :
    Prompt p s ∧ ∃ n, s.traversal = (Traversal.advance p source)^[n] (.start p) := by
  induction hrun with
  | start => exact ⟨Prompt.start p, 0, rfl⟩
  | @move past moment s s' hrun hmove ih =>
    have hfixed' : Fixed source past := fun m hm => hfixed m (List.mem_append_left _ hm)
    obtain rfl : moment = source := hfixed ⟨moment, s, s'⟩ (by simp)
    have hcalm' : ∀ m ∈ past, ∀ f, Calm m.source f := fun m hm => hfixed' m hm ▸ hcalm
    have hinstant' : ∀ m ∈ past, Instant m.source := fun m hm => hfixed' m hm ▸ hinstant
    obtain ⟨roles, log, h⟩ := hrun.fair hfilter hcalm'
    obtain ⟨hprompt, n, hn⟩ := ih hfixed'
    cases hmove with
    | handle hopen hagenda =>
      obtain ⟨hprompt', hsame | hnext⟩ :=
        hprompt.handle h (h.quiet hinstant') hfilter hcalm hinstant hagenda
      · exact ⟨hprompt', n, hsame.trans hn⟩
      · refine ⟨hprompt', n + 1, ?_⟩
        rw [hnext, hn, Function.iterate_succ_apply']
    | elapse now hopen hperm hdue =>
      rw [h.running_eq_nil hinstant'] at hperm
      exact absurd (List.append_eq_nil_iff.mp hperm.eq_nil).1 hdue

/-- Nobody is left in the queue when the listing has ended. -/
theorem Prompt.waiting_eq_nil (hprompt : Prompt p s) (h : Fair p roles log past s)
    (hended : s.ending?.isSome) : s.traversal.waiting = [] := by
  obtain ⟨reported, hover⟩ : ∃ reported, roles p.options.folder = .ended reported := by
    rcases h.ending? with ⟨hover, -⟩ | ⟨-, hnone⟩
    · exact hover
    · simp [hnone] at hended
  have hall := h.kept.family.all_over ⟨reported, by simp [hover, Role.phase]⟩
  rw [← hprompt.inOrder, firstTurns, List.filter_eq_nil_iff]
  intro g _ hnew
  obtain ⟨v, hvisit, hfresh⟩ := (Option.any_eq_true _ _).mp hnew
  obtain ⟨hv, rfl⟩ := mem_of_visit? hvisit
  have hphase := hall v.folder (List.mem_map_of_mem (f := Prod.fst) (links_mem hv))
  have hfits := (h.kept.ledger.fits v hv).2
  simp only [Function.comp_apply] at hphase
  cases hrole : roles v.folder with
  | ended reported =>
    simp only [hrole, Role.Fits] at hfits
    simp [hfits, Stage.isFresh] at hfresh
  | _ => simp [hrole, Role.phase] at hphase

/-- The schedule of a store whose calls take no time is a run. -/
theorem runs_invariant (hfilter : p.options.Total) (hcalm : ∀ f, Calm source f)
    (hinstant : Instant source) : Invariant p source fun n s => ∃ past, Runs p past s ∧
      Fixed source past ∧ past.length = n := by
  have hfair : ∀ {past s}, Runs p past s → Fixed source past →
      ∃ roles log, Fair p roles log past s := fun hrun hfixed =>
    hrun.fair hfilter fun m hm => hfixed m hm ▸ hcalm
  have hquiet : ∀ {past s}, Runs p past s → Fixed source past → s.running = [] := by
    intro past s hrun hfixed
    obtain ⟨roles, log, h⟩ := hfair hrun hfixed
    exact h.running_eq_nil fun m hm => hfixed m hm ▸ hinstant
  refine ⟨?_, ?_, ?_, ?_⟩
  · rintro n s s' ⟨past, hrun, hfixed, rfl⟩ hmove
    exact ⟨_, hrun.move hmove, hfixed.concat s s', by simp⟩
  · rintro n s now ⟨past, hrun, hfixed, -⟩ hrunning
    exact absurd (hquiet hrun hfixed) hrunning
  · rintro n s ⟨past, hrun, hfixed, -⟩ hopen
    obtain ⟨roles, log, h⟩ := hfair hrun hfixed
    exact h.busy hopen
  · rintro - n s ⟨past, hrun, hfixed, -⟩
    exact hquiet hrun hfixed

theorem Runs.steps (hrun : Runs p past s) (hfilter : p.options.Total)
    (hcalm : ∀ f, Calm source f) (hinstant : Instant source) (hfixed : Fixed source past)
    (n : Nat) :
    ∃ past', Runs p past' (Timeline.steps p source n s) ∧ Fixed source past' ∧
      ((Timeline.steps p source n s).ending?.isSome ∨ past'.length = past.length + n) := by
  obtain ⟨n', ⟨past', hrun', hfixed', hlength⟩, hend⟩ :=
    (runs_invariant hfilter hcalm hinstant).steps ⟨past, hrun, hfixed, rfl⟩ n
  exact ⟨past', hrun', hfixed', hlength ▸ hend hinstant⟩

end Timeline

def Source.Bounded (source : Source) (start : String) : Prop :=
  ∃ reached : List String, reached.length ≤ source.folders + 1 ∧
    ∀ f, Reached source start f → f ∈ reached

namespace Timeline

variable {p : Plan} {source : Source}

/-- The schedule of a store whose calls take no time comes to its end. -/
theorem run_ends (hfilter : p.options.Total) (hcalm : ∀ f, Calm source f)
    (hinstant : Instant source)
    (hbound : p.descends = true → source.Bounded p.options.folder) :
    ∃ past, Runs p past (run p source) ∧ Fixed source past ∧ (run p source).ending?.isSome := by
  obtain ⟨past, hrun, hfixed, hend⟩ := (Runs.start (p := p)).steps hfilter hcalm hinstant
    (by simp [Fixed]) (7 * (source.folders + 1))
  refine ⟨past, hrun, hfixed, ?_⟩
  rcases hend with hended | hlength
  · exact hended
  · exfalso
    obtain ⟨roles, log, h⟩ := hrun.fair hfilter fun m hm => hfixed m hm ▸ hcalm
    have hmoves : past.length ≤ 6 * (source.folders + 1) := by
      cases hdescends : p.descends with
      | true =>
        obtain ⟨reached, hlength, hreached⟩ := hbound hdescends
        have hle := h.moves_le hfixed.steady hreached
        omega
      | false =>
        have hscore := score_le roles (steps p source (7 * (source.folders + 1)) (.start p))
        have hmoved := h.moves
        rw [folders_eq, List.length_map, h.kept.record.single hdescends] at hscore
        omega
    simp only [List.length_nil] at hlength
    omega

end Timeline

variable {hierarchical : Bool} {o : Options}

/-- What is answered when calls take no time: folders are listed in the order in which they
were found, until none is left. -/
theorem list_in_order (store : Options → Source) (hfilter : o.Total)
    (hcalm : ∀ f, Timeline.Calm (store (Plan.ofOptions hierarchical o).callOptions) f)
    (hinstant : Timeline.Instant (store (Plan.ofOptions hierarchical o).callOptions))
    (hbound : (Plan.ofOptions hierarchical o).descends = true →
      (store (Plan.ofOptions hierarchical o).callOptions).Bounded o.folder) :
    ∃ n t, t = (Traversal.advance (Plan.ofOptions hierarchical o)
        (store (Plan.ofOptions hierarchical o).callOptions))^[n]
          (.start (Plan.ofOptions hierarchical o)) ∧ t.waiting = [] ∧
      (list hierarchical o store).answer = .ok (t.entries (Plan.ofOptions hierarchical o)) := by
  obtain ⟨past, hrun, hfixed, hended⟩ := Timeline.run_ends hfilter hcalm hinstant hbound
  obtain ⟨hprompt, n, hn⟩ := hrun.breadth_first hfilter hcalm hinstant hfixed
  obtain ⟨roles, log, h⟩ := hrun.fair hfilter fun m hm => hfixed m hm ▸ hcalm
  refine ⟨n, _, hn, hprompt.waiting_eq_nil h hended, ?_⟩
  have houtcome : ∀ s : Timeline, s.ending? = some .done →
      s.outcome (Plan.ofOptions hierarchical o) =
        .ok (s.traversal.entries (Plan.ofOptions hierarchical o)) := by
    intro s hdone
    simp [Timeline.outcome, hdone]
  have hdone : (Timeline.run (Plan.ofOptions hierarchical o)
      (store (Plan.ofOptions hierarchical o).callOptions)).ending? = some .done := by
    rcases h.ending? with ⟨-, hdone⟩ | ⟨-, hnone⟩
    · exact hdone
    · simp [hnone] at hended
  unfold list
  dsimp only
  split
  · rename_i hzero
    have hnothing : ∀ t : Traversal, t.entries (Plan.ofOptions hierarchical o) = [] := by
      intro t
      simp [Traversal.entries, Plan.ofOptions, hzero]
    rw [hnothing]
  · exact houtcome _ hdone

end Depot.Listing
