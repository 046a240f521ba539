import Depot.Proofs.Listing.Raising

/-!
Listings in which folders may fail. A visit that failed or was dropped is spoiled for good;
for the tree it stays where it was when things went wrong, so that the tree goes on as if the
visit were late. A spoiled visit has its turn to come or its report, which spoils the visit
above unless that one is spoiled already; only what lies below a spoiled visit is ever
cancelled, hence never the first visit. What fails, fails with an error that some folder
raises, and a visit that came to its end well has heard all that its folder shows.
-/
namespace Depot.Listing.Timeline

namespace Stage

def how? : Stage → Option Ending
  | .gathered how | .over how => some how
  | _ => none

def isSpoiled (stage : Stage) : Bool :=
  match stage.how? with
  | none | some .done => false
  | some _ => true

def isEarly : Stage → Bool
  | .fresh | .queued | .granted | .calling | .returned => true
  | _ => false

def isGathering : Stage → Bool
  | .gathering _ => true
  | _ => false

def isGathered : Stage → Bool
  | .gathered _ => true
  | _ => false

def isOver : Stage → Bool
  | .over _ => true
  | _ => false

/-- The place in the tree that goes with a stage. A spoiled visit has any but that of one
that is over. -/
def Suits (stage : Stage) (phase : Phase) : Prop :=
  match stage with
  | .gathering n => phase = .gathering n
  | .gathered .done => phase = .gathered
  | .over .done => ∃ reported, phase = .ended reported
  | .gathered _ | .over _ => ∀ reported, phase ≠ .ended reported
  | _ => phase = .early

variable {stage : Stage} {phase : Phase}

theorem Suits.of_isEarly (h : stage.Suits phase) (hearly : stage.isEarly = true) :
    phase = .early := by
  cases stage <;> simp_all [isEarly, Suits]

theorem suits_of_isEarly (hearly : stage.isEarly = true) : stage.Suits .early := by
  cases stage <;> simp_all [isEarly, Suits]

theorem suits_of_isSpoiled (hspoiled : stage.isSpoiled = true)
    (h : ∀ reported, phase ≠ .ended reported) : stage.Suits phase := by
  cases stage with
  | gathered how | «over» how =>
    cases how with
    | done => simp [isSpoiled, how?] at hspoiled
    | failed e | dropped => exact h
  | _ => simp [isSpoiled, how?] at hspoiled

/-- Only a visit that came out well is over for the tree. -/
theorem Suits.ended {reported : Bool} (h : stage.Suits (.ended reported)) :
    stage = .over .done := by
  cases stage with
  | gathered how | «over» how => cases how <;> simp_all [Suits]
  | _ => simp [Suits] at h

theorem Suits.of_isSpoiled (h : stage.Suits phase) (hspoiled : stage.isSpoiled = true)
    (reported : Bool) : phase ≠ .ended reported := by
  rintro rfl
  simp [h.ended, isSpoiled, how?] at hspoiled

theorem Suits.gathering {n : Nat} (h : stage.Suits (.gathering n)) :
    stage = .gathering n ∨ stage.isSpoiled = true := by
  cases stage with
  | gathered how | «over» how => cases how <;> simp_all [Suits, isSpoiled, how?]
  | _ => simp_all [Suits]

theorem not_isSpoiled_of_isEarly (hearly : stage.isEarly = true) : stage.isSpoiled = false := by
  cases stage <;> simp_all [isEarly, isSpoiled, how?]

end Stage

def Phase.reports : Phase → Nat
  | .ended false => 1
  | _ => 0

def Spoiled (s : Timeline) (f : String) : Prop :=
  ∃ v ∈ s.visits, v.folder = f ∧ v.stage.isSpoiled = true

def Gathers (s : Timeline) (f : String) : Prop :=
  ∃ v ∈ s.visits, v.folder = f ∧ v.stage.isGathering = true

def Heard (p : Plan) (source : Source) (t : Traversal) (f : String) : Prop :=
  t.isFull p = true ∨ (∀ e, ¬ Raises source p.options f e) ∧
    (p.descends = true → ∀ d ∈ source.level f, Shows f d → d.path ∈ t.visited)

/-- What is known of a visit. The turn of the visit `active` is going on. -/
structure Stands (p : Plan) (source : Source) (active : Option String) (phase : String → Phase)
    (s : Timeline) (v : Visit) : Prop where
  suits : v.stage.Suits (phase v.folder)
  reports : v.stage.isSpoiled = false →
    s.agenda.count (.report v.folder) = (phase v.folder).reports
  turn : v.stage.isGathered = true → active ≠ some v.folder → .turn v.folder ∈ s.agenda
  told : v.stage.isOver = true → v.stage.isSpoiled = true → ∀ a, v.above = some a →
    s.Gathers a → .report v.folder ∈ s.agenda
  doomed : v.cancelled = true ∨ v.stage.how? = some .dropped →
    Beneath s.links s.Spoiled v.folder
  blamed : ∀ e, v.stage.how? = some (.failed e) → Blamed source p.options e
  calm : v.stage = .over .done → v.cancelled = false
  heard : v.stage.isGathering = true ∨ v.stage.how? = some .done →
    Heard p source s.traversal v.folder

structure Underway (s : Timeline) : Prop where
  unique : (s.running.map Prod.fst).Nodup
  calling : ∀ f ∈ s.running.map Prod.fst, ∃ v ∈ s.visits, v.folder = f ∧ v.stage = .calling

structure Watched (p : Plan) (source : Source) (active : Option String) (phase : String → Phase)
    (s : Timeline) : Prop where
  family : Family p.options.folder phase s.links
  visited : s.traversal.visited = s.folders
  reached : ∀ f ∈ s.folders, Reached source p.options.folder f
  reporters : ∀ f, .report f ∈ s.agenda → f ∈ s.folders
  underway : Underway s
  burnt : s.traversal.failures ≠ [] → ∃ f, s.Spoiled f
  stands : ∀ v ∈ s.visits, Stands p source active phase s v

/-- What later states keep of earlier ones. -/
structure Frame (p : Plan) (s s' : Timeline) : Prop where
  links : ∀ l ∈ s.links, l ∈ s'.links
  spoiled : ∀ f, s.Spoiled f → s'.Spoiled f
  gathers : ∀ f a, (f, some a) ∈ s.links → s'.Gathers a → s.Gathers a
  visited : ∀ f ∈ s.traversal.visited, f ∈ s'.traversal.visited
  full : s.traversal.isFull p = true → s'.traversal.isFull p = true

variable {p : Plan} {source : Source} {active active' : Option String}
  {phase phase' : String → Phase} {s s' : Timeline} {f : String} {v w : Visit} {stage : Stage}
  {g : Visit → Visit}

theorem Frame.beneath (h : Frame p s s') (hf : Beneath s.links s.Spoiled f) :
    Beneath s'.links s'.Spoiled f :=
  hf.mono h.links h.spoiled

theorem Frame.heard (h : Frame p s s') (hf : Heard p source s.traversal f) :
    Heard p source s'.traversal f :=
  hf.imp h.full fun ⟨hcalm, hshown⟩ =>
    ⟨hcalm, fun hdescends d hd hshows => h.visited _ (hshown hdescends d hd hshows)⟩

/-- A visit that stays as it is, while its place in the tree may change. -/
theorem Stands.carry (h : Stands p source active phase s v) (hframe : Frame p s s')
    (hsuits : v.stage.Suits (phase' v.folder))
    (hreports : v.stage.isSpoiled = false →
      s'.agenda.count (.report v.folder) = (phase' v.folder).reports)
    (hturn : (active ≠ some v.folder → .turn v.folder ∈ s.agenda) →
      active' ≠ some v.folder → .turn v.folder ∈ s'.agenda)
    (htold : v.stage.isOver = true → v.stage.isSpoiled = true → ∀ a, v.above = some a →
      s'.Gathers a → .report v.folder ∈ s'.agenda) :
    Stands p source active' phase' s' v where
  suits := hsuits
  reports := hreports
  turn hgathered := hturn (h.turn hgathered)
  told := htold
  doomed hmarked := hframe.beneath (h.doomed hmarked)
  blamed := h.blamed
  calm := h.calm
  heard hheard := hframe.heard (h.heard hheard)

/-- A visit that a step does not touch. -/
theorem Stands.frame (h : Stands p source active phase s v) (hv : v ∈ s.visits)
    (hframe : Frame p s s') (hphase : phase' v.folder = phase v.folder)
    (hreports : s'.agenda.count (.report v.folder) = s.agenda.count (.report v.folder))
    (hturn : (active ≠ some v.folder → .turn v.folder ∈ s.agenda) →
      active' ≠ some v.folder → .turn v.folder ∈ s'.agenda) :
    Stands p source active' phase' s' v := by
  refine h.carry hframe (hphase ▸ h.suits) (fun hspoiled => ?_) hturn ?_
  · rw [hreports, hphase]
    exact h.reports hspoiled
  · intro hover hspoiled a ha hgathers
    rw [← List.count_pos_iff, hreports, List.count_pos_iff]
    exact h.told hover hspoiled a ha (hframe.gathers _ a (ha ▸ links_mem hv) hgathers)

/-- A visit that is spoiled now. -/
theorem Stands.spoil (h : Stands p source active phase s v) (hframe : Frame p s s')
    (hbad : stage.isSpoiled = true) (hphase : ∀ reported, phase' v.folder ≠ .ended reported)
    (hturn : stage.isGathered = true → .turn v.folder ∈ s'.agenda)
    (htold : stage.isOver = true → ∀ a, v.above = some a → .report v.folder ∈ s'.agenda)
    (hdoomed : stage.how? = some .dropped → Beneath s'.links s'.Spoiled v.folder)
    (hblamed : ∀ e, stage.how? = some (.failed e) → Blamed source p.options e) :
    Stands p source active' phase' s' { v with stage := stage } := by
  have hnot : stage.how? ≠ some .done := by
    intro hdone
    simp [Stage.isSpoiled, hdone] at hbad
  refine ⟨Stage.suits_of_isSpoiled hbad hphase, by simp [hbad], fun hgathered _ => hturn hgathered,
    fun hover _ a ha _ => htold hover a ha, ?_, hblamed, fun hdone => ?_, ?_⟩
  · rintro (hcancelled | hdropped)
    · exact hframe.beneath (h.doomed (Or.inl hcancelled))
    · exact hdoomed hdropped
  · exact absurd (congrArg Stage.how? hdone) hnot
  · rintro (hgathering | hdone)
    · have hopen : stage.isGathering = true := hgathering
      cases stage <;> simp_all [Stage.isGathering, Stage.isSpoiled, Stage.how?]
    · exact absurd hdone hnot

/-! One visit changes at a time. -/

theorem links_of_update (hkeeps : ∀ v, (g v).folder = v.folder ∧ (g v).above = v.above)
    (hvisits : s'.visits = (s.update f g).visits) : s'.links = s.links := by
  simp only [links, hvisits, update, List.map_map]
  apply List.map_congr_left
  intro v _
  simp only [Function.comp_apply]
  split
  · rw [(hkeeps v).1, (hkeeps v).2]
  · rfl

theorem mem_update (hunique : s.folders.Nodup) (hv : v ∈ s.visits) :
    w ∈ (s.update v.folder g).visits ↔ (w ∈ s.visits ∧ w.folder ≠ v.folder) ∨ w = g v := by
  simp only [update, List.mem_map]
  constructor
  · rintro ⟨u, hu, rfl⟩
    by_cases hsame : u.folder = v.folder
    · obtain rfl : u = v := List.inj_on_of_nodup_map hunique hu hv hsame
      exact Or.inr (by simp)
    · exact Or.inl (by simp [hsame, hu])
  · rintro (⟨hw, hne⟩ | rfl)
    · exact ⟨w, hw, by simp [hne]⟩
    · exact ⟨v, hv, by simp⟩

/-- A sum over all visits, of which one changes. -/
theorem sum_update (hunique : s.folders.Nodup) (hv : v ∈ s.visits) (weight : Visit → Nat) :
    ((s.update v.folder g).visits.map weight).sum + weight v =
      (s.visits.map weight).sum + weight (g v) := by
  have hswap := sum_map_swap hunique hv
    (u := fun u => weight (if u.folder = v.folder then g u else u)) (w := weight) (by
      intro u _ hne
      rw [if_neg hne])
  rw [if_pos rfl] at hswap
  simpa [update, List.map_map, Function.comp_def] using hswap

theorem Frame.of_update (hunique : s.folders.Nodup) (hv : v ∈ s.visits)
    (hkeeps : ∀ v, (g v).folder = v.folder ∧ (g v).above = v.above)
    (hvisits : s'.visits = (s.update v.folder g).visits)
    (hspoiled : v.stage.isSpoiled = true → (g v).stage.isSpoiled = true)
    (hgathers : (g v).stage.isGathering = true → v.stage.isGathering = true)
    (hvisited : s'.traversal.visited = s.traversal.visited)
    (hfull : s.traversal.isFull p = true → s'.traversal.isFull p = true) : Frame p s s' where
  links l hl := links_of_update hkeeps hvisits ▸ hl
  spoiled f := by
    rintro ⟨w, hw, rfl, hbad⟩
    by_cases hwv : w.folder = v.folder
    · obtain rfl : w = v := List.inj_on_of_nodup_map hunique hw hv hwv
      exact ⟨g w, hvisits ▸ (mem_update hunique hv).mpr (Or.inr rfl), (hkeeps w).1, hspoiled hbad⟩
    · exact ⟨w, hvisits ▸ (mem_update hunique hv).mpr (Or.inl ⟨hw, hwv⟩), rfl, hbad⟩
  gathers f a _ := by
    rintro ⟨w, hw, rfl, hgather⟩
    rw [hvisits, mem_update hunique hv] at hw
    rcases hw with ⟨hw, -⟩ | rfl
    · exact ⟨w, hw, rfl, hgather⟩
    · exact ⟨v, hv, (hkeeps v).1.symm, hgathers hgather⟩
  visited f hf := hvisited ▸ hf
  full := hfull

/-- Nothing is taken in while the visit changes. -/
theorem Frame.of_visit (hunique : s.folders.Nodup) (hv : v ∈ s.visits)
    (hkeeps : ∀ v, (g v).folder = v.folder ∧ (g v).above = v.above)
    (hvisits : s'.visits = (s.update v.folder g).visits)
    (hspoiled : v.stage.isSpoiled = true → (g v).stage.isSpoiled = true)
    (hgathers : (g v).stage.isGathering = true → v.stage.isGathering = true)
    (htraversal : s'.traversal = s.traversal) : Frame p s s' :=
  .of_update hunique hv hkeeps hvisits hspoiled hgathers (by rw [htraversal])
    (by rw [htraversal]; exact id)

theorem isFull_of_result (h : s'.traversal.result = s.traversal.result) :
    s'.traversal.isFull p = s.traversal.isFull p := by
  simp only [Traversal.isFull, h]

/-- The visits stay as they are. -/
theorem Frame.of_visits (hvisits : s'.visits = s.visits)
    (hvisited : s'.traversal.visited = s.traversal.visited)
    (hresult : s'.traversal.result = s.traversal.result) : Frame p s s' where
  links l hl := by rwa [Timeline.links, hvisits]
  spoiled f hf := by rwa [Spoiled, hvisits]
  gathers f a _ ha := by rwa [Gathers, hvisits] at ha
  visited f hf := hvisited ▸ hf
  full hfull := (isFull_of_result hresult).trans hfull

theorem folders_of_links (h : s'.links = s.links) : s'.folders = s.folders := by
  rw [folders_eq, folders_eq, h]

theorem Watched.unique (h : Watched p source active phase s) : s.folders.Nodup := by
  rw [folders_eq]
  exact h.family.unique

/-- There are no more visits than folders that can be reached. -/
theorem Watched.visits_le (h : Watched p source active phase s) {reached : List String}
    (hreached : ∀ f, Reached source p.options.folder f → f ∈ reached) :
    s.visits.length ≤ reached.length := by
  have hsub : s.folders.Subperm reached := List.subperm_of_subset h.unique
    fun f hf => hreached f (h.reached f hf)
  simpa [folders] using hsub.length_le

/-- A step that touches one visit, in what it is or in what it has on the agenda. -/
theorem Watched.change (h : Watched p source active phase s) (hv : v ∈ s.visits)
    (hkeeps : ∀ v, (g v).folder = v.folder ∧ (g v).above = v.above)
    (hvisits : s'.visits = (s.update v.folder g).visits) (hframe : Frame p s s')
    (hagenda : s'.agenda = s.agenda ∨ s'.agenda = s.agenda ++ [.turn v.folder] ∨
      s'.agenda = s.agenda ++ [.report v.folder])
    (hvisited : s'.traversal.visited = s.traversal.visited)
    (hburnt : s'.traversal.failures ≠ [] → s.traversal.failures ≠ [] ∨
      (g v).stage.isSpoiled = true)
    (hactive : active' = active ∨ active = some v.folder)
    (hfamily : Family p.options.folder phase' s.links)
    (hphase : ∀ f, f ≠ v.folder → phase' f = phase f) (hunderway : Underway s')
    (hstands : Stands p source active' phase' s' (g v)) : Watched p source active' phase' s' := by
  have hlinks : s'.links = s.links := links_of_update hkeeps hvisits
  have hfolders := folders_of_links hlinks
  have hchanged : g v ∈ s'.visits := hvisits ▸ (mem_update h.unique hv).mpr (Or.inr rfl)
  refine ⟨hlinks ▸ hfamily, ?_, hfolders ▸ h.reached, ?_, hunderway, ?_, ?_⟩
  · rw [hvisited, hfolders]
    exact h.visited
  · intro f hf
    rw [hfolders]
    rcases hagenda with heq | heq | heq
    · exact h.reporters f (heq ▸ hf)
    · exact h.reporters f (by simpa [heq] using hf)
    · rcases (by simpa [heq] using hf : Event.report f ∈ s.agenda ∨ f = v.folder) with hf | rfl
      · exact h.reporters f hf
      · exact List.mem_map_of_mem hv
  · intro hfailed
    rcases hburnt hfailed with hbefore | hbad
    · obtain ⟨f, hf⟩ := h.burnt hbefore
      exact ⟨f, hframe.spoiled f hf⟩
    · exact ⟨(g v).folder, g v, hchanged, rfl, hbad⟩
  · intro w hw
    rw [hvisits, mem_update h.unique hv] at hw
    rcases hw with ⟨hw, hne⟩ | rfl
    · refine (h.stands w hw).frame hw hframe (hphase _ hne) ?_ fun hturn hidle => ?_
      · rcases hagenda with heq | heq | heq
        all_goals simp [heq, List.count_append, Ne.symm hne]
      · have hbefore : .turn w.folder ∈ s.agenda := hturn (by
          rcases hactive with rfl | rfl
          · exact hidle
          · simpa using Ne.symm hne)
        rcases hagenda with heq | heq | heq
        all_goals simp [heq, hbefore]
    · exact hstands

/-- Nothing changes but what the visits do not depend on. -/
theorem Watched.quiet (h : Watched p source active phase s) (hvisits : s'.visits = s.visits)
    (hagenda : s'.agenda = s.agenda) (hunderway : Underway s')
    (hvisited : s'.traversal.visited = s.traversal.visited)
    (hresult : s'.traversal.result = s.traversal.result)
    (hfailures : s'.traversal.failures = s.traversal.failures) :
    Watched p source active phase s' := by
  have hlinks : s'.links = s.links := by rw [links, hvisits, links]
  have hfolders := folders_of_links hlinks
  have hframe : Frame p s s' := .of_visits hvisits hvisited hresult
  refine ⟨hlinks ▸ h.family, ?_, hfolders ▸ h.reached, ?_, hunderway, ?_, ?_⟩
  · rw [hvisited, hfolders]
    exact h.visited
  · rw [hagenda, hfolders]
    exact h.reporters
  · intro hfailed
    obtain ⟨f, hf⟩ := h.burnt (hfailures ▸ hfailed)
    exact ⟨f, hframe.spoiled f hf⟩
  · intro v hv
    rw [hvisits] at hv
    exact (h.stands v hv).frame hv hframe rfl (by rw [hagenda]) (by rw [hagenda]; exact id)

theorem Underway.of_same (h : Underway s) (hvisits : s'.visits = s.visits)
    (hrunning : s'.running = s.running) : Underway s' := by
  refine ⟨hrunning ▸ h.unique, ?_⟩
  rw [hrunning, hvisits]
  exact h.calling

/-- The permits are of no interest to the visits. -/
theorem Watched.of_permits (h : Watched p source active phase s) (permits : Nat) :
    Watched p source active phase { s with permits := permits } :=
  h.quiet rfl rfl (h.underway.of_same rfl rfl) rfl rfl rfl

theorem Watched.leaveLine (h : Watched p source active phase s) (f : String) :
    Watched p source active phase (s.leaveLine f) :=
  h.quiet rfl rfl (h.underway.of_same rfl rfl) rfl rfl rfl

theorem Watched.launched (h : Watched p source active phase s) (f : String) :
    Watched p source active phase (s.launched p f) :=
  h.quiet rfl rfl (h.underway.of_same rfl rfl) Traversal.visited_launch Traversal.result_launch
    Traversal.failures_launch

/-- The turn of a visit begins. -/
theorem Watched.begin (h : Watched p source none phase s) {rest : List Event}
    (hagenda : s.agenda = .turn f :: rest) :
    Watched p source (some f) phase { s with agenda := rest } := by
  have hframe : Frame p s { s with agenda := rest } := .of_visits rfl rfl rfl
  refine ⟨h.family, h.visited, h.reached, ?_, h.underway.of_same rfl rfl, h.burnt, ?_⟩
  · intro g hg
    exact h.reporters g (by simp [hagenda, show Event.report g ∈ rest from hg])
  · intro v hv
    refine (h.stands v hv).frame hv hframe rfl (by simp [hagenda]) fun hturn hidle => ?_
    have hmem : .turn v.folder ∈ s.agenda := hturn (by simp)
    have hne : v.folder ≠ f := fun hsame => hidle (by rw [hsame])
    simpa [hagenda, hne] using hmem

/-- A turn is over that left nothing to do. -/
theorem Watched.pause (h : Watched p source (some f) phase s)
    (hidle : ∀ v ∈ s.visits, v.folder = f → v.stage.isGathered = false) :
    Watched p source none phase s := by
  refine ⟨h.family, h.visited, h.reached, h.reporters, h.underway, h.burnt, fun v hv => ?_⟩
  have hstands := h.stands v hv
  refine ⟨hstands.suits, hstands.reports, fun hgathered _ =>
    hstands.turn hgathered ?_, hstands.told,
    hstands.doomed, hstands.blamed, hstands.calm, hstands.heard⟩
  intro hsame
  rw [hidle v hv (by simpa using hsame.symm)] at hgathered
  simp at hgathered

namespace Underway

/-- The visit of no running call changes its stage. -/
theorem restage (h : Underway s) (hf : f ∉ s.running.map Prod.fst)
    (hvisits : s'.visits = (s.setStage f stage).visits) (hrunning : s'.running = s.running) :
    Underway s' := by
  refine ⟨hrunning ▸ h.unique, fun g hg => ?_⟩
  rw [hrunning] at hg
  obtain ⟨v, hv, rfl, hcalling⟩ := h.calling g hg
  have hne : v.folder ≠ f := fun hsame => hf (hsame ▸ hg)
  exact ⟨v, by rw [hvisits]; exact List.mem_map.mpr ⟨v, hv, if_neg hne⟩, rfl, hcalling⟩

/-- A visit that waits for nothing has no running call. -/
theorem not_running (h : Underway s) (hunique : s.folders.Nodup) (hv : v ∈ s.visits)
    (hstage : v.stage ≠ .calling) : v.folder ∉ s.running.map Prod.fst := by
  intro hrunning
  obtain ⟨w, hw, hsame, hcalling⟩ := h.calling _ hrunning
  obtain rfl : w = v := List.inj_on_of_nodup_map hunique hw hv hsame
  exact hstage hcalling

end Underway

theorem Stage.facts_of_isEarly (hearly : stage.isEarly = true) : stage.how? = none ∧
    stage.isGathering = false ∧ stage.isGathered = false ∧ stage.isOver = false := by
  cases stage <;> simp_all [isEarly, how?, isGathering, isGathered, isOver]

/-- A visit goes on to another of the stages before its call is merged. -/
theorem Watched.shuffle (h : Watched p source active phase s) (stage : Stage) (hv : v ∈ s.visits)
    (hearly : v.stage.isEarly = true) (hstage : stage.isEarly = true)
    (hvisits : s'.visits = (s.setStage v.folder stage).visits)
    (hagenda : s'.agenda = s.agenda ∨ s'.agenda = s.agenda ++ [.turn v.folder])
    (htraversal : s'.traversal = s.traversal) (hactive : active' = active ∨ active = some v.folder)
    (hunderway : Underway s') : Watched p source active' phase s' := by
  have hstands := h.stands v hv
  obtain ⟨hhow, hgathering, hgathered, hover⟩ := Stage.facts_of_isEarly hstage
  have hclean := Stage.not_isSpoiled_of_isEarly hearly
  have hframe : Frame p s s' := .of_visit (g := fun v => { v with stage := stage }) h.unique hv
    (fun _ => ⟨rfl, rfl⟩) hvisits (by simp [hclean]) (by simp [hgathering]) htraversal
  refine h.change (g := fun v => { v with stage := stage }) hv (fun _ => ⟨rfl, rfl⟩) hvisits
    hframe ?_ (by rw [htraversal]) (by rw [htraversal]; exact Or.inl) hactive h.family
    (fun _ _ => rfl) hunderway ?_
  · rcases hagenda with heq | heq
    · exact Or.inl heq
    · exact Or.inr (Or.inl heq)
  · refine ⟨?_, ?_, ?_, ?_, ?_, ?_, ?_, ?_⟩
    · rw [hstands.suits.of_isEarly hearly]
      exact Stage.suits_of_isEarly hstage
    · intro _
      rw [← hstands.reports hclean]
      rcases hagenda with heq | heq <;> simp [heq, List.count_append]
    · simp [hgathered]
    · simp [hover]
    · simp only [hhow, reduceCtorEq, or_false]
      exact fun hcancelled => hframe.beneath (hstands.doomed (Or.inl hcancelled))
    · simp [hhow]
    · intro hdone
      have hstage' : stage = .over .done := hdone
      simp [hstage', Stage.isOver] at hover
    · simp [hhow, hgathering]

theorem isQueued_iff : isQueued v = true ↔ v.stage = .queued ∧ v.cancelled = false := by
  unfold isQueued
  split <;> simp_all

/-- A free permit goes to one visit in line, or nobody is in line for it. -/
theorem wakeNext_cases (s : Timeline) : s.wakeNext = s ∨
    ∃ v ∈ s.visits, s.visit? v.folder = some v ∧ v.stage = .queued ∧ v.cancelled = false ∧
      s.wakeNext = ({ s with permits := s.permits - 1 }.setStage v.folder .granted).push
        (.turn v.folder) := by
  unfold wakeNext
  cases hfind : s.line.find? fun folder => (s.visit? folder).any isQueued with
  | none => exact Or.inl rfl
  | some folder =>
    have hany : (s.visit? folder).any isQueued = true := by simpa using List.find?_some hfind
    obtain ⟨v, hvisit, hqueued⟩ := (Option.any_eq_true _ _).mp hany
    obtain ⟨hv, rfl⟩ := mem_of_visit? hvisit
    obtain ⟨hstage, hfree⟩ := isQueued_iff.mp hqueued
    exact Or.inr ⟨v, hv, hvisit, hstage, hfree, rfl⟩

@[simp] theorem running_wakeNext : s.wakeNext.running = s.running := by
  rcases wakeNext_cases s with heq | ⟨v, -, -, -, -, heq⟩
  · rw [heq]
  · rw [heq]
    rfl

@[simp] theorem running_release : s.release.running = s.running := running_wakeNext

/-- Waking touches only a visit in line. -/
theorem mem_wakeNext (hv : v ∈ s.visits) (hstage : v.stage ≠ .queued)
    (hunique : s.folders.Nodup) : v ∈ s.wakeNext.visits := by
  rcases wakeNext_cases s with heq | ⟨w, hw, -, hqueued, -, heq⟩
  · rwa [heq]
  · rw [heq]
    have hne : v.folder ≠ w.folder := by
      intro hsame
      obtain rfl : v = w := List.inj_on_of_nodup_map hunique hv hw hsame
      exact hstage hqueued
    exact List.mem_map.mpr ⟨v, hv, if_neg hne⟩

theorem Watched.wakeNext (h : Watched p source active phase s) :
    Watched p source active phase s.wakeNext := by
  rcases wakeNext_cases s with heq | ⟨v, hv, -, hqueued, -, heq⟩
  · rwa [heq]
  · rw [heq]
    have hidle := h.underway.not_running h.unique hv (by simp [hqueued])
    exact h.shuffle .granted hv (by simp [hqueued, Stage.isEarly]) rfl rfl
      (Or.inr rfl) rfl (Or.inl rfl) (h.underway.restage hidle rfl rfl)

theorem Watched.release (h : Watched p source active phase s) :
    Watched p source active phase s.release :=
  (h.of_permits (s.permits + 1)).wakeNext

theorem mem_release (hv : v ∈ s.visits) (hstage : v.stage ≠ .queued)
    (hunique : s.folders.Nodup) : v ∈ s.release.visits :=
  mem_wakeNext (s := { s with permits := s.permits + 1 }) hv hstage hunique

end Depot.Listing.Timeline
