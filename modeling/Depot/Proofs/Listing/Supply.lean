import Depot.Proofs.Listing.Books

/-!
Why nobody waits in vain. Whatever a visit waits for is to come: its turn is on the agenda or
its call is running, unless it is in line for a permit or waits for others below it; and
nobody is in line while a permit is free, unless another visit in line was just granted one.
-/
namespace Depot.Listing.Timeline

def Sure (s : Timeline) (v : Visit) : Prop :=
  match v.stage with
  | .fresh | .granted | .returned => .turn v.folder ∈ s.agenda
  | .queued => v.cancelled = true → .turn v.folder ∈ s.agenda
  | .calling => v.folder ∈ s.running.map Prod.fst
  | _ => True

def Assured (active : Option String) (s : Timeline) : Prop :=
  ∀ v ∈ s.visits, active ≠ some v.folder → Sure s v

/-- Whoever is in line finds no free permit, or another visit was granted one. -/
def Supplied (active : Option String) (s : Timeline) : Prop :=
  (∃ v ∈ s.visits, isQueued v = true) →
    s.permits = 0 ∨ ∃ w ∈ s.visits, w.stage = .granted ∧ active ≠ some w.folder

variable {p : Plan} {source source' : Source} {active : Option String} {phase : String → Phase}
  {s s' : Timeline} {f g : String} {v w : Visit} {stage : Stage} {past : List Moment}

theorem Sure.mono (h : Sure s v) (hagenda : .turn v.folder ∈ s.agenda → .turn v.folder ∈ s'.agenda)
    (hrunning : v.folder ∈ s.running.map Prod.fst → v.folder ∈ s'.running.map Prod.fst) :
    Sure s' v := by
  unfold Sure at h ⊢
  cases hstage : v.stage with
  | fresh | granted | returned =>
    simp only [hstage] at h
    exact hagenda h
  | queued =>
    simp only [hstage] at h
    exact fun hcancelled => hagenda (h hcancelled)
  | calling =>
    simp only [hstage] at h
    exact hrunning h
  | gathering n | gathered how | «over» how => trivial

/-! What is sure stays so while one visit has its turn. -/

theorem Assured.quiet (h : Assured active s) (hvisits : s'.visits = s.visits)
    (hagenda : s'.agenda = s.agenda) (hrunning : s'.running = s.running) : Assured active s' := by
  intro v hv hidle
  exact (h v (hvisits ▸ hv) hidle).mono (by rw [hagenda]; exact id) (by rw [hrunning]; exact id)

/-- The turn of a visit begins. -/
theorem Assured.begin (h : Assured none s) {rest : List Event}
    (hagenda : s.agenda = .turn f :: rest) :
    Assured (some f) { s with agenda := rest } := by
  intro v hv hidle
  have hne : v.folder ≠ f := by simpa using Ne.symm hidle
  refine (h v hv (by simp)).mono (fun hturn => ?_) id
  simpa [hagenda, hne] using hturn

/-- One visit goes on to another stage, and what it waits for then is to come. -/
theorem Assured.settle (h : Assured (some f) s) (stage : Stage)
    (hvisits : s'.visits = (s.setStage f stage).visits)
    (hagenda : ∀ g, g ≠ f → .turn g ∈ s.agenda → .turn g ∈ s'.agenda)
    (hrunning : ∀ g, g ≠ f → g ∈ s.running.map Prod.fst → g ∈ s'.running.map Prod.fst)
    (hown : ∀ v ∈ s'.visits, v.folder = f → v.stage = stage → Sure s' v) : Assured active s' := by
  intro v hv _
  have hold := hvisits ▸ hv
  rcases mem_setStage hold with ⟨hne, hmem⟩ | ⟨hfolder, hstage, -⟩
  · exact (h v hmem (by simpa using Ne.symm hne)).mono (hagenda _ hne) (hrunning _ hne)
  · exact hown v hv hfolder hstage

theorem Assured.wakeNext (h : Assured active s) : Assured active s.wakeNext := by
  rcases wakeNext_cases s with heq | ⟨v, -, -, -, -, heq⟩
  · rwa [heq]
  · rw [heq]
    intro w hw hidle
    rcases mem_setStage hw with ⟨-, hmem⟩ | ⟨hfolder, hstage, -⟩
    · exact (h w hmem hidle).mono (fun hturn => List.mem_append_left _ hturn) id
    · simp [Sure, hstage, push, hfolder]

theorem Assured.release (h : Assured active s) : Assured active s.release :=
  Assured.wakeNext (s := { s with permits := s.permits + 1 }) (h.quiet rfl rfl rfl)

theorem Assured.finish (h : Assured (some v.folder) s) (how : Ending) :
    Assured none (s.finish v how) := by
  refine h.settle _ (visits_finish how) (fun g _ hturn => ?_) (fun g _ hcall => ?_)
    fun w _ _ hstage => by simp [Sure, hstage]
  · rw [agenda_finish]
    split
    · exact List.mem_append_left _ hturn
    · exact hturn
  · rwa [running_finish]

theorem Assured.awaiting (h : Assured (some f) s) (found : List String) :
    Assured none (s.awaiting f found) := by
  have hgrown : Assured (some f) (s.extended f found) := by
    intro v hv hidle
    rcases List.mem_append.mp hv with hv | hv
    · exact (h v hv hidle).mono (fun hturn => List.mem_append_left _ hturn) id
    · obtain ⟨g, hg, rfl⟩ := List.mem_map.mp hv
      exact List.mem_append_right _ (List.mem_map_of_mem hg)
  exact hgrown.settle _ rfl (fun _ _ => id) (fun _ _ => id)
    fun w _ _ hstage => by simp [Sure, hstage]

/-- A call that nobody waits for any more. -/
theorem Assured.hangUp (h : Assured (some f) s) :
    Assured (some f) { s with running := s.running.filter (·.1 ≠ f) } := by
  intro v hv hidle
  have hne : v.folder ≠ f := by simpa using Ne.symm hidle
  refine (h v hv hidle).mono id fun hcall => ?_
  obtain ⟨call, hmem, hfolder⟩ := List.mem_map.mp hcall
  exact List.mem_map.mpr ⟨call, List.mem_filter.mpr ⟨hmem, by simpa [hfolder] using hne⟩, hfolder⟩

/-! How permits get to those in line. -/

theorem Supplied.of_visits (h : Supplied active s) (hvisits : s'.visits = s.visits)
    (hpermits : s.permits = 0 → s'.permits = 0) : Supplied active s' := by
  intro hwaits
  rw [hvisits] at hwaits ⊢
  exact (h hwaits).imp_left hpermits

/-- The turn of a visit begins that was not granted a permit. -/
theorem Supplied.begin (h : Supplied none s) (hunique : s.folders.Nodup) (hv : v ∈ s.visits)
    (hstage : v.stage ≠ .granted) : Supplied (some v.folder) s := by
  intro hwaits
  refine (h hwaits).imp_right ?_
  rintro ⟨w, hw, hgranted, -⟩
  refine ⟨w, hw, hgranted, fun hsame => hstage ?_⟩
  obtain rfl : w = v := List.inj_on_of_nodup_map hunique hw hv (by simpa using hsame.symm)
  exact hgranted

/-- A visit that has no place in line goes on to another stage. -/
theorem Supplied.settle (h : Supplied (some f) s) (stage : Stage)
    (hvisits : s'.visits = (s.setStage f stage).visits) (hstage : stage ≠ .queued)
    (hpermits : s'.permits = s.permits) : Supplied none s' := by
  rintro ⟨v, hv, hqueued⟩
  rw [hvisits] at hv
  have hbefore : ∃ v ∈ s.visits, isQueued v = true := by
    rcases mem_setStage hv with ⟨-, hmem⟩ | ⟨-, hsame, -⟩
    · exact ⟨v, hmem, hqueued⟩
    · exact absurd (hsame.symm.trans (isQueued_iff.mp hqueued).1) hstage
  rcases h hbefore with hnone | ⟨w, hw, hgranted, hother⟩
  · exact Or.inl (hpermits.trans hnone)
  · have hne : w.folder ≠ f := by simpa using Ne.symm hother
    refine Or.inr ⟨w, ?_, hgranted, by simp⟩
    rw [hvisits]
    exact List.mem_map.mpr ⟨w, hw, if_neg hne⟩

theorem Supplied.finish (h : Supplied (some v.folder) s) (how : Ending) :
    Supplied none (s.finish v how) :=
  h.settle _ (visits_finish how) (by simp) (permits_finish how)

theorem Supplied.awaiting (h : Supplied (some f) s) (found : List String) :
    Supplied none (s.awaiting f found) := by
  have hgrown : Supplied (some f) (s.extended f found) := by
    rintro ⟨v, hv, hqueued⟩
    rcases List.mem_append.mp hv with hv | hv
    · refine (h ⟨v, hv, hqueued⟩).imp_right ?_
      rintro ⟨w, hw, hgranted, hother⟩
      exact ⟨w, List.mem_append_left _ hw, hgranted, hother⟩
    · obtain ⟨g, -, rfl⟩ := List.mem_map.mp hv
      simp [isQueued] at hqueued
  exact hgrown.settle _ rfl (by simp) rfl

/-- Somebody in line is woken if anybody is. -/
theorem supplied_wakeNext (hwaits : ∀ v ∈ s.visits, isQueued v = true →
    v.folder ∈ s.line ∧ active ≠ some v.folder) (hunique : s.folders.Nodup) :
    Supplied active s.wakeNext := by
  rintro ⟨v, hv, hqueued⟩
  unfold Timeline.wakeNext at hv ⊢
  cases hfind : s.line.find? fun folder => (s.visit? folder).any isQueued with
  | none =>
    -- Nobody in line waits, and whoever waits is in line.
    simp only [hfind] at hv
    have hline := (hwaits v hv hqueued).1
    have hnot := List.find?_eq_none.mp hfind v.folder hline
    simp [visit?_of_mem hunique hv, hqueued] at hnot
  | some folder =>
    have hany : (s.visit? folder).any isQueued = true := by simpa using List.find?_some hfind
    obtain ⟨w, hvisit, hwaiting⟩ := (Option.any_eq_true _ _).mp hany
    obtain ⟨hw, rfl⟩ := mem_of_visit? hvisit
    refine Or.inr ⟨{ w with stage := .granted }, ?_, rfl, (hwaits w hw hwaiting).2⟩
    exact List.mem_map.mpr ⟨w, hw, if_pos rfl⟩

theorem supplied_release (hwaits : ∀ v ∈ s.visits, isQueued v = true →
    v.folder ∈ s.line ∧ active ≠ some v.folder) (hunique : s.folders.Nodup) :
    Supplied active s.release :=
  supplied_wakeNext (s := { s with permits := s.permits + 1 }) hwaits hunique

/-- In a turn of a visit that does not wait, whoever waits is another one in line. -/
theorem Books.waits (hbooks : Books active s) (hunique : s.folders.Nodup)
    (hnot : ∀ v ∈ s.visits, active = some v.folder → isQueued v = false) :
    ∀ v ∈ s.visits, isQueued v = true → v.folder ∈ s.line ∧ active ≠ some v.folder := by
  intro v hv hqueued
  have hother : active ≠ some v.folder := by
    intro hsame
    simp [hnot v hv hsame] at hqueued
  refine ⟨?_, hother⟩
  rw [← List.count_pos_iff, (hbooks v.folder hother).line, stageOf_of_mem hunique hv,
    (isQueued_iff.mp hqueued).1]
  exact Nat.one_pos

/-! Marks. -/

theorem Supplied.mark (h : Supplied active s) (f : String) : Supplied active (s.mark f) := by
  rintro ⟨v, hv, hqueued⟩
  have hbefore : ∃ v ∈ s.visits, isQueued v = true := by
    obtain ⟨w, hw, rfl⟩ := List.mem_map.mp hv
    refine ⟨w, hw, ?_⟩
    by_cases hf : w.folder = f
    · simp [hf, isQueued_iff] at hqueued
    · simpa [hf] using hqueued
  refine (h hbefore).imp_right ?_
  rintro ⟨w, hw, hgranted, hother⟩
  obtain ⟨u, hu, hfolder, -, hstage⟩ := exists_of_shape (shape_mark f) hw
  exact ⟨u, hu, hstage.trans hgranted, hfolder ▸ hother⟩

/-- Whoever is cancelled while at rest is given a turn. -/
theorem Assured.cancelBelow (hassured : Assured active s) (hsupplied : Supplied active s)
    (hunique : s.folders.Nodup) (f : String) :
    Assured active (s.cancelBelow f) ∧ Supplied active (s.cancelBelow f) := by
  have hbears : Bears (fun s => Assured active s ∧ Supplied active s ∧ s.folders.Nodup)
      fun _ => True := by
    refine ⟨fun _ _ _ _ _ _ => trivial, ?_, ?_⟩
    · rintro s v ⟨hassured, hsupplied, hunique⟩ - hvisit hdue
      obtain ⟨hv, -⟩ := mem_of_visit? hvisit
      refine ⟨fun w hw hidle => ?_, hsupplied.mark v.folder, ?_⟩
      · rcases (mem_update hunique hv).mp hw with ⟨hw, -⟩ | rfl
        · exact hassured w hw hidle
        · have hbefore := hassured v hv hidle
          unfold Sure at hbefore ⊢
          cases hstage : v.stage <;> simp_all [Stage.isDue, Timeline.mark, update]
      · rwa [folders_of_links (links_of_shape (shape_mark v.folder))]
    · rintro s v ⟨hassured, hsupplied, hunique⟩ - hvisit hatRest -
      obtain ⟨hv, -⟩ := mem_of_visit? hvisit
      refine ⟨fun w hw hidle => ?_, hsupplied.mark v.folder, ?_⟩
      · rcases (mem_update hunique hv).mp hw with ⟨hw, -⟩ | rfl
        · exact (hassured w hw hidle).mono (fun hturn => List.mem_append_left _ hturn) id
        · have hbefore := hassured v hv hidle
          unfold Sure at hbefore ⊢
          cases hstage : v.stage <;> simp_all [Stage.isIdle, Timeline.mark, update, push]
      · rwa [folders_of_links (links_of_shape ((shape_push _).trans (shape_mark v.folder)))]
  obtain ⟨hassured', hsupplied', -⟩ := hbears.cancelBelow ⟨hassured, hsupplied, hunique⟩
    fun _ _ => trivial
  exact ⟨hassured', hsupplied'⟩

/-! Turns and the other steps. -/

structure Lively (s : Timeline) : Prop where
  assured : Assured none s
  supplied : Supplied none s

/-- A visit comes to its end once permits were given back. -/
theorem Lively.end_release (hassured : Assured (some v.folder) s) (hbooks : Books (some v.folder) s)
    (hunique : s.folders.Nodup) (hnot : ∀ w ∈ s.visits, w.folder = v.folder → isQueued w = false)
    (t : Traversal) (how : Ending) : Lively ({ s.release with traversal := t }.finish v how) := by
  have hsupplied : Supplied (some v.folder) s.release :=
    supplied_release (hbooks.waits hunique fun w hw hsame => hnot w hw (by simpa using hsame.symm))
      hunique
  refine ⟨Assured.finish ?_ how, Supplied.finish ?_ how⟩
  · exact hassured.release.quiet rfl rfl rfl
  · exact hsupplied.of_visits rfl id

theorem Lively.comeBack (hassured : Assured (some v.folder) s) (hbooks : Books (some v.folder) s)
    (hunique : s.folders.Nodup) (hnot : ∀ w ∈ s.visits, w.folder = v.folder → isQueued w = false) :
    Lively (s.comeBack p source v) := by
  have hended := Lively.end_release hassured hbooks hunique hnot
  rcases comeBack_cases p source s v with ⟨e, more, -, heq⟩ | ⟨-, heq⟩
  · rw [heq]
    exact hended _ _
  · rw [heq]
    simp only
    split
    · exact hended _ _
    · have hsupplied : Supplied (some v.folder) s.release := supplied_release
        (hbooks.waits hunique fun w hw hsame => hnot w hw (by simpa using hsame.symm)) hunique
      exact ⟨(hassured.release.awaiting _).quiet rfl rfl rfl,
        (hsupplied.awaiting _).of_visits rfl id⟩

theorem Lively.enter (hassured : Assured (some v.folder) s) (hsupplied : Supplied (some v.folder) s)
    (hbooks : Books (some v.folder) s) (hunique : s.folders.Nodup)
    (hnot : ∀ w ∈ s.visits, w.folder = v.folder → isQueued w = false) :
    Lively (s.enter p source v) := by
  have hassured' : Assured (some v.folder) (s.launched p v.folder) := hassured.quiet rfl rfl rfl
  have hbooks' := hbooks.launched (p := p)
  rw [enter_eq]
  split
  · have hended := Lively.end_release (s := s.launched p v.folder) hassured' hbooks' hunique hnot
      (s.launched p v.folder).release.traversal .done
    exact hended
  · split
    · refine ⟨hassured'.settle .calling rfl (fun _ _ => id) (fun g _ hcall => ?_)
        fun w _ hfolder hstage => ?_, ?_⟩
      · rw [List.map_append]
        exact List.mem_append_left _ hcall
      · simp [Sure, hstage, hfolder]
      · have hsupplied' : Supplied (some v.folder) (s.launched p v.folder) :=
          hsupplied.of_visits rfl id
        exact hsupplied'.settle .calling rfl (by simp) rfl
    · exact Lively.comeBack hassured' hbooks' hunique hnot

/-- Nobody in line is passed: whoever goes into line finds no free permit, or one that was
granted to a visit in line. -/
theorem supplied_queue (hsupplied : Supplied none s) (hbooks : Books none s)
    (hunique : s.folders.Nodup) (hmust : s.mustQueue = true) :
    s.permits = 0 ∨ ∃ w ∈ s.visits, w.stage = .granted := by
  simp only [mustQueue, Bool.or_eq_true, decide_eq_true_eq, List.any_eq_true] at hmust
  rcases hmust with hnone | ⟨folder, hline, hany⟩
  · exact Or.inl hnone
  · obtain ⟨w, hvisit, hahead⟩ := (Option.any_eq_true _ _).mp hany
    obtain ⟨hw, rfl⟩ := mem_of_visit? hvisit
    have hplace := (hbooks w.folder (by simp)).line
    rw [stageOf_of_mem hunique hw] at hplace
    have hpos := List.count_pos_iff.mpr hline
    cases hstage : w.stage with
    | queued =>
      simp only [hstage, Bool.not_eq_true'] at hahead
      refine (hsupplied ⟨w, hw, isQueued_iff.mpr ⟨hstage, hahead⟩⟩).imp_right ?_
      rintro ⟨u, hu, hgranted, -⟩
      exact ⟨u, hu, hgranted⟩
    | granted => exact Or.inr ⟨w, hw, hstage⟩
    | _ =>
      simp only [hstage, Stage.places] at hplace
      omega

/-- Whoever does not have to queue leaves nobody behind in line. -/
theorem not_queued_of_mustQueue (hbooks : Books none s) (hunique : s.folders.Nodup)
    (hmust : s.mustQueue = false) (hv : v ∈ s.visits) : isQueued v = false := by
  by_contra hqueued
  rw [Bool.not_eq_false] at hqueued
  have hline := (hbooks.waits hunique (by simp) v hv hqueued).1
  obtain ⟨hstage, hfree⟩ := isQueued_iff.mp hqueued
  simp only [mustQueue, Bool.or_eq_false_iff, List.any_eq_false] at hmust
  have hnot := hmust.2 v.folder hline
  simp [visit?_of_mem hunique hv, hstage, hfree] at hnot

theorem Lively.dropVisit (hassured : Assured (some v.folder) s) (hsupplied : Supplied none s)
    (hbooks : Books (some v.folder) s) (hunique : s.folders.Nodup) (hv : v ∈ s.visits)
    (hcancelled : v.cancelled = true) : Lively (s.dropVisit v) := by
  have hnot : ∀ w ∈ s.visits, w.folder = v.folder → isQueued w = false := by
    intro w hw hfolder
    obtain rfl : w = v := List.inj_on_of_nodup_map hunique hw hv hfolder
    simp [Bool.eq_false_iff, isQueued_iff, hcancelled]
  have hgiven : Books (some v.folder) { s with traversal := s.traversal.abandon v.folder } :=
    hbooks.landed rfl rfl
  have hended : ∀ s' : Timeline, Assured (some v.folder) s' → Supplied (some v.folder) s' →
      Lively (s'.finish v .dropped) := fun s' h h' => ⟨h.finish _, h'.finish _⟩
  have hreleased : ∀ s' : Timeline, s'.visits = s.visits → Assured (some v.folder) s' →
      Books (some v.folder) s' → Lively (s'.release.finish v .dropped) := by
    intro s' hvisits h h'
    refine Lively.end_release h h' ?_ ?_ s'.release.traversal .dropped
    · rwa [folders, hvisits]
    · rwa [hvisits]
  simp only [Timeline.dropVisit]
  cases hstage : v.stage with
  | fresh | gathering n | «over» how | queued =>
    exact hended _ (hassured.quiet rfl rfl rfl)
      ((hsupplied.begin hunique hv (by simp [hstage])).of_visits rfl id)
  | granted => exact hreleased _ rfl (hassured.quiet rfl rfl rfl) hgiven.leaveLine
  | calling | returned =>
    exact hreleased _ rfl (hassured.hangUp.quiet rfl rfl rfl) (hgiven.quiet rfl rfl rfl)
  | gathered how =>
    have hbegun := hsupplied.begin hunique hv (by simp [hstage])
    obtain ⟨h, h'⟩ := Assured.cancelBelow
      (s := { s with traversal := s.traversal.abandon v.folder }) (hassured.quiet rfl rfl rfl)
      (hbegun.of_visits rfl id) hunique v.folder
    exact hended _ h h'

theorem Lively.turn (hassured : Assured (some v.folder) s) (hsupplied : Supplied none s)
    (hbooks : Books none s) (hunique : s.folders.Nodup) (hv : v ∈ s.visits)
    (hcalling : v.stage = .calling → v.folder ∈ s.running.map Prod.fst) :
    Lively (s.turn p source v) := by
  have hothers := hbooks.begin v.folder
  have hsame : ∀ w ∈ s.visits, w.folder = v.folder → w = v := fun w hw hfolder =>
    List.inj_on_of_nodup_map hunique hw hv hfolder
  cases hcancelled : v.cancelled with
  | true =>
    simp only [Timeline.turn, hcancelled, if_true]
    exact Lively.dropVisit hassured hsupplied hothers hunique hv hcancelled
  | false =>
    simp only [Timeline.turn, hcancelled, Bool.false_eq_true, if_false]
    -- A turn that finds nothing to do.
    have hpause : Sure s v → Lively s := by
      refine fun hsure => ⟨fun w hw _ => ?_, hsupplied⟩
      by_cases hfolder : w.folder = v.folder
      · rwa [hsame w hw hfolder]
      · exact hassured w hw (by simpa using Ne.symm hfolder)
    cases hstage : v.stage with
    | fresh =>
      have hnot : ∀ w ∈ s.visits, w.folder = v.folder → isQueued w = false := by
        intro w hw hfolder
        simp [hsame w hw hfolder, isQueued, hstage]
      simp only
      split
      · rename_i hmust
        refine ⟨hassured.settle .queued rfl (fun _ _ => id) (fun _ _ => id)
          fun w hw hfolder hqueued => ?_, fun _ => ?_⟩
        · obtain ⟨hne, -⟩ | ⟨-, -, u, hu, hu', hmark⟩ := mem_setStage (s := s) (f := v.folder) hw
          · exact absurd hfolder hne
          · simp [Sure, hqueued, ← hmark, hsame u hu hu', hcancelled]
        · rcases supplied_queue hsupplied hbooks hunique hmust with hnone | ⟨w, hw, hgranted⟩
          · exact Or.inl hnone
          · refine Or.inr ⟨w, List.mem_map.mpr ⟨w, hw, if_neg fun hfolder => ?_⟩, hgranted, by simp⟩
            simp [hsame w hw hfolder, hstage] at hgranted
      · rename_i hmust
        have hnone : ∀ w ∈ s.visits, isQueued w = false := fun w hw =>
          not_queued_of_mustQueue hbooks hunique (Bool.eq_false_iff.mpr hmust) hw
        refine Lively.enter (s := { s with permits := s.permits - 1 }) (hassured.quiet rfl rfl rfl)
          ?_ (hothers.quiet rfl rfl rfl) hunique hnot
        rintro ⟨w, hw, hqueued⟩
        simp [hnone w hw] at hqueued
    | granted =>
      have hnot : ∀ w ∈ s.visits, w.folder = v.folder → isQueued w = false := by
        intro w hw hfolder
        simp [hsame w hw hfolder, isQueued, hstage]
      have hleft : Assured (some v.folder) (s.leaveLine v.folder) := hassured.quiet rfl rfl rfl
      have hleft' := hothers.leaveLine
      simp only
      split
      · have hwaits := hleft'.waits hunique fun w hw hactive =>
          hnot w hw (by simpa using hactive.symm)
        refine Lively.enter hleft.wakeNext (supplied_wakeNext hwaits hunique) hleft'.wakeNext ?_
          fun w hw hfolder => ?_
        · rwa [folders_of_links links_wakeNext]
        · have hkept : v ∈ (s.leaveLine v.folder).wakeNext.visits :=
            mem_wakeNext (s := s.leaveLine v.folder) hv (by simp [hstage]) hunique
          have hnodup : (s.leaveLine v.folder).wakeNext.folders.Nodup := by
            rwa [folders_of_links links_wakeNext]
          rw [List.inj_on_of_nodup_map hnodup hw hkept hfolder]
          simp [isQueued, hstage]
      · rename_i hfree
        exact Lively.enter hleft (fun _ => Or.inl (Nat.eq_zero_of_not_pos hfree))
          hleft' hunique hnot
    | returned =>
      refine Lively.comeBack hassured hothers hunique fun w hw hfolder => ?_
      simp [hsame w hw hfolder, isQueued, hstage]
    | gathered how =>
      have hbegun := hsupplied.begin hunique hv (by simp [hstage])
      obtain ⟨hassured', hsupplied'⟩ := hassured.cancelBelow hbegun hunique v.folder
      cases how with
      | done => exact ⟨hassured.finish .done, hbegun.finish .done⟩
      | failed e => exact ⟨hassured'.finish _, hsupplied'.finish _⟩
      | dropped => exact ⟨hassured'.finish _, hsupplied'.finish _⟩
    | queued => exact hpause (by simp [Sure, hstage, hcancelled])
    | calling =>
      refine hpause ?_
      simp only [Sure, hstage]
      exact hcalling hstage
    | gathering n | «over» how => exact hpause (by simp [Sure, hstage])

theorem Lively.report (hassured : Assured none s) (hsupplied : Supplied none s)
    (hunique : s.folders.Nodup) (a : String) (how : Ending) : Lively (s.report a how) := by
  cases hw : s.visit? a with
  | none =>
    simp only [Timeline.report, hw]
    exact ⟨hassured, hsupplied⟩
  | some w =>
    obtain ⟨hmem, rfl⟩ := mem_of_visit? hw
    cases hstage : w.stage with
    | gathering n =>
      have hbegun := hsupplied.begin hunique hmem (by simp [hstage])
      have hothers : Assured (some w.folder) s := fun v hv _ => hassured v hv (by simp)
      have hafter : Stage.after n how ≠ .queued ∧
          ∀ s' v, v.stage = Stage.after n how → Sure s' v := by
        cases how with
        | done =>
          simp only [Stage.after]
          split <;> simp +contextual [Sure]
        | failed e | dropped => simp +contextual [Stage.after, Sure]
      rw [report_of_gathering hw hstage]
      split
      · exact ⟨hothers.settle _ rfl (fun _ _ hturn => List.mem_append_left _ hturn) (fun _ _ => id)
          fun v _ _ hv => hafter.2 _ v hv, hbegun.settle _ rfl hafter.1 rfl⟩
      · exact ⟨hothers.settle _ rfl (fun _ _ => id) (fun _ _ => id) fun v _ _ hv => hafter.2 _ v hv,
          hbegun.settle _ rfl hafter.1 rfl⟩
    | _ =>
      rw [report_of_not_gathering hw (by simp [hstage, Stage.isGathering])]
      exact ⟨hassured, hsupplied⟩

/-- A call that comes back as time passes leaves its visit with a turn. -/
theorem Watched.lively_arrive_all {due left : List (String × Float)}
    (h : Watched p source none phase { s with running := due ++ left })
    (hlively : Lively { s with running := due ++ left }) :
    Lively (due.foldl Timeline.arrive { s with running := left }) := by
  induction due generalizing s with
  | nil => exact hlively
  | cons call rest ih =>
    obtain ⟨v, hv, hfolder, hcalling⟩ := h.underway.calling call.1 (by simp)
    refine ih (s := s.arrive call) (h.arrive (rest ++ left)) ⟨?_, ?_⟩
    · have hothers : Assured (some call.1) { s with running := call :: (rest ++ left) } :=
        fun w hw _ => hlively.assured w hw (by simp)
      refine hothers.settle .returned rfl (fun _ _ hturn => List.mem_append_left _ hturn)
        (fun g hg hcall => ?_) fun w _ hsame hstage => ?_
      · simpa [hg] using hcall
      · simp [Sure, hstage, Timeline.arrive, push, hsame]
    · have hbegun := hlively.supplied.begin h.unique hv (by simp [hcalling])
      rw [hfolder] at hbegun
      exact hbegun.settle .returned rfl (by simp) rfl

/-- Every step leaves nobody waiting in vain. -/
theorem Watched.lively_step (h : Watched p source none phase s) (hbooks : Books none s)
    (hlively : Lively s) (hstep : Step p source' s s') : Lively s' := by
  cases hstep with
  | @handle e rest hagenda =>
    cases e with
    | report f =>
      have hassured : Assured none { s with agenda := rest } := fun v hv _ =>
        (hlively.assured v hv (by simp)).mono (by simp [hagenda]) id
      have hsupplied : Supplied none { s with agenda := rest } :=
        hlively.supplied.of_visits rfl id
      simp only [handle]
      split
      · exact Lively.report hassured hsupplied h.unique _ _
      · exact ⟨hassured, hsupplied⟩
    | turn f =>
      have hassured := hlively.assured.begin hagenda
      have hsupplied : Supplied none { s with agenda := rest } :=
        hlively.supplied.of_visits rfl id
      simp only [handle]
      split
      · rename_i v hvisit
        obtain ⟨hv, rfl⟩ := mem_of_visit? hvisit
        refine Lively.turn hassured hsupplied (hbooks.quiet rfl rfl rfl) h.unique hv
          fun hcalling => ?_
        have hsure := hlively.assured v hv (by simp)
        simpa only [Sure, hcalling] using hsure
      · rename_i hnone
        refine ⟨fun w hw _ => hassured w hw ?_, hsupplied⟩
        intro hsame
        obtain rfl : f = w.folder := by simpa using hsame
        simp [visit?_of_mem (s := { s with agenda := rest }) h.unique hw] at hnone
  | @elapse now due left hperm hdue =>
    refine Watched.lively_arrive_all (s := { s with now := now }) (h.of_running now hperm) ⟨?_, ?_⟩
    · exact fun v hv hidle => (hlively.assured v hv hidle).mono id
        ((hperm.map Prod.fst).mem_iff.mpr)
    · exact hlively.supplied.of_visits rfl id

theorem Course.lively (hcourse : Course p past s) (hsame : Steady source past) : Lively s := by
  refine (Course.induction (I := fun _ s => Lively s ∧ Books none s) ?_ ?_ ?_ hcourse hsame).1.1
  · have hsteady : Steady source [] := by simp [Steady]
    refine ⟨⟨fun v hv _ => ?_, ?_⟩, Course.start.books hsteady⟩
    · obtain rfl : v = ⟨p.options.folder, none, .fresh, false⟩ := by
        simpa [Timeline.start] using hv
      simp [Sure, Timeline.start]
    · rintro ⟨v, hv, hqueued⟩
      obtain rfl : v = ⟨p.options.folder, none, .fresh, false⟩ := by
        simpa [Timeline.start] using hv
      simp [isQueued] at hqueued
  · rintro past source' s s' phase ⟨hlively, hbooks⟩ hwatched - hstep
    exact ⟨hwatched.lively_step hbooks hlively hstep, hwatched.books_step hbooks hstep⟩
  · rintro past s now ⟨⟨hassured, hsupplied⟩, hbooks⟩
    exact ⟨⟨hassured.quiet rfl rfl rfl, hsupplied.of_visits rfl id⟩, hbooks.quiet rfl rfl rfl⟩

end Depot.Listing.Timeline
