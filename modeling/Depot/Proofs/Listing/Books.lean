import Depot.Proofs.Listing.Stock

/-!
What a listing keeps beside its visits: the line for permits, the calls that are in flight and
those that were ever made. At the end of every step each of them holds a folder just as often
as the stage of its visit says. So no folder is called twice, and a call is in flight for as
long as its visit waits for it.
-/
namespace Depot.Listing

namespace Traversal

variable {p : Plan} {t : Traversal} {f : String}

theorem launch_of_full (hfull : t.isFull p = true) :
    t.launch p f = { t with waiting := t.waiting.erase f } := if_pos hfull

theorem launch_of_room (hroom : t.isFull p = false) : t.launch p f = { t with
    waiting := t.waiting.erase f
    inFlight := t.inFlight ++ [f]
    calls := t.calls ++ [f] } := if_neg (Bool.eq_false_iff.mp hroom)

end Traversal

namespace Timeline

namespace Stage

def places : Stage → Nat
  | .queued | .granted => 1
  | _ => 0

def out : Stage → Nat
  | .calling | .returned => 1
  | _ => 0

def called : Stage → Nat
  | .fresh | .queued | .granted => 0
  | _ => 1

theorem called_le (stage : Stage) : stage.called ≤ 1 := by
  cases stage <;> simp [called]

end Stage

/-- The stage of the visit of a folder. A folder without a visit is like one whose first turn
is yet to come. -/
def stageOf (s : Timeline) (f : String) : Stage := ((s.visit? f).map (·.stage)).getD .fresh

structure Booked (s : Timeline) (f : String) (stage : Stage) : Prop where
  line : s.line.count f = stage.places
  inFlight : s.traversal.inFlight.count f = stage.out
  calls : s.traversal.calls.count f ≤ stage.called

/-- All folders are in the books as suits the stages of their visits, but for the one whose
turn is going on. -/
def Books (active : Option String) (s : Timeline) : Prop :=
  ∀ f, active ≠ some f → Booked s f (s.stageOf f)

variable {p : Plan} {source source' : Source} {active : Option String} {phase : String → Phase}
  {s s' : Timeline} {f g : String} {v w : Visit} {stage : Stage} {past : List Moment}
  {t : Traversal}

theorem stageOf_congr (hvisits : s'.visits = s.visits) : s'.stageOf f = s.stageOf f := by
  simp only [stageOf, visit?, hvisits]

theorem stageOf_of_mem (hunique : s.folders.Nodup) (hv : v ∈ s.visits) :
    s.stageOf v.folder = v.stage := by
  simp [stageOf, visit?_of_mem hunique hv]

theorem stageOf_setStage (hvisits : s'.visits = (s.setStage f stage).visits) (hg : g ≠ f) :
    s'.stageOf g = s.stageOf g := by
  rw [stageOf_congr hvisits, stageOf, visit?_setStage, if_neg hg, stageOf]

theorem stageOf_setStage_self (hvisits : s'.visits = (s.setStage f stage).visits)
    (hmem : f ∈ s.folders) : s'.stageOf f = stage := by
  obtain ⟨w, hw, hfolder⟩ := List.mem_map.mp hmem
  obtain ⟨v, hv⟩ : ∃ v, s.visit? f = some v := by
    apply Option.isSome_iff_exists.mp
    rw [visit?, List.find?_isSome]
    exact ⟨w, hw, by simpa using hfolder⟩
  rw [stageOf_congr hvisits, stageOf, visit?_setStage, if_pos rfl, hv]
  rfl

theorem stageOf_of_shape (hshape : s'.shape = s.shape) : s'.stageOf f = s.stageOf f := by
  cases hv : s.visit? f with
  | some v =>
    obtain ⟨w, hw, hstage⟩ := visit?_of_shape hshape hv
    simp [stageOf, hv, hw, hstage]
  | none =>
    cases hw : s'.visit? f with
    | none => simp [stageOf, hv, hw]
    | some w =>
      obtain ⟨u, hu, -⟩ := visit?_of_shape hshape.symm hw
      simp [hv] at hu

/-- New visits stand where their folders stood before. -/
theorem stageOf_extended (folder : String) (found : List String) :
    (s.extended folder found).stageOf f = s.stageOf f := by
  simp only [stageOf, visit?, extended, List.find?_append]
  cases hold : s.visits.find? fun v => decide (v.folder = f) with
  | some v => simp
  | none =>
    cases hnew : (found.map fun g => (⟨g, some folder, .fresh, false⟩ : Visit)).find?
        fun v => decide (v.folder = f) with
    | none => simp
    | some w =>
      obtain ⟨g, -, rfl⟩ := List.mem_map.mp (List.mem_of_find?_eq_some hnew)
      simp

theorem stageOf_wakeNext (f : String) : s.wakeNext.stageOf f = s.stageOf f ∨
    s.stageOf f = .queued ∧ s.wakeNext.stageOf f = .granted := by
  rcases wakeNext_cases s with heq | ⟨v, hv, hvisit, hqueued, -, heq⟩
  · exact Or.inl (by rw [heq])
  · have hvisits : s.wakeNext.visits = (s.setStage v.folder .granted).visits := by
      rw [heq]
      rfl
    by_cases hf : f = v.folder
    · subst hf
      refine Or.inr ⟨by simp [stageOf, hvisit, hqueued], ?_⟩
      exact stageOf_setStage_self hvisits (List.mem_map_of_mem hv)
    · exact Or.inl (stageOf_setStage hvisits hf)

theorem line_wakeNext : s.wakeNext.line = s.line := by
  rcases wakeNext_cases s with heq | ⟨v, -, -, -, -, heq⟩
  · rw [heq]
  · rw [heq]
    rfl

theorem line_release : s.release.line = s.line := line_wakeNext

/-! The books of one folder. -/

theorem Booked.congr (h : Booked s f stage) (hline : s'.line = s.line)
    (htraversal : s'.traversal = s.traversal) : Booked s' f stage :=
  ⟨hline ▸ h.line, htraversal ▸ h.inFlight, htraversal ▸ h.calls⟩

/-- Those who are granted a permit stand in line still. -/
theorem Booked.granted (h : Booked s f .queued) : Booked s f .granted :=
  ⟨h.line, h.inFlight, h.calls⟩

theorem Booked.leaveLine (h : Booked s f stage) (hplaces : stage.places = 1) :
    Booked (s.leaveLine f) f .fresh := by
  obtain ⟨hout, hcalled⟩ : stage.out = 0 ∧ stage.called = 0 := by
    cases stage <;> simp_all [Stage.places, Stage.out, Stage.called]
  refine ⟨?_, h.inFlight.trans hout, h.calls.trans hcalled.le⟩
  rw [show (s.leaveLine f).line = s.line.erase f from rfl, List.count_erase_self, h.line, hplaces]
  rfl

/-- A call that was made is in flight. -/
theorem Booked.launched (h : Booked s f .fresh) (hroom : s.traversal.isFull p = false) :
    Booked (s.launched p f) f .calling := by
  refine ⟨h.line, ?_, ?_⟩
  · simp [Timeline.launched, Traversal.launch_of_room hroom, h.inFlight, Stage.out]
  · have hnone := h.calls
    simp only [Timeline.launched, Traversal.launch_of_room hroom, List.count_append,
      List.count_singleton_self]
    simp only [Stage.called] at hnone ⊢
    omega

/-- A call that was merged or given up is in flight no longer. -/
theorem Booked.landed (h : Booked s f stage) (hplaces : stage.places = 0)
    (hinFlight : t.inFlight = s.traversal.inFlight.erase f) (hcalls : t.calls = s.traversal.calls)
    (how : Ending) : Booked { s with traversal := t } f (.over how) := by
  refine ⟨h.line.trans hplaces, ?_, ?_⟩
  · rw [hinFlight, List.count_erase_self, h.inFlight]
    cases stage <;> rfl
  · rw [hcalls]
    exact h.calls.trans stage.called_le

/-! The books of the others while a visit has its turn. -/

/-- Neither the books nor the visits change, unless somebody in line is granted a permit. -/
theorem Books.congr (h : Books active s) (hline : s'.line = s.line)
    (htraversal : s'.traversal = s.traversal)
    (hstages : ∀ f, active ≠ some f → s'.stageOf f = s.stageOf f ∨
      s.stageOf f = .queued ∧ s'.stageOf f = .granted) : Books active s' := by
  intro f hf
  have hbefore := (h f hf).congr hline htraversal
  rcases hstages f hf with hsame | ⟨hqueued, hgranted⟩
  · rwa [hsame]
  · rw [hqueued] at hbefore
    rw [hgranted]
    exact hbefore.granted

theorem Books.quiet (h : Books active s) (hvisits : s'.visits = s.visits)
    (hline : s'.line = s.line) (htraversal : s'.traversal = s.traversal) : Books active s' :=
  h.congr hline htraversal fun _ _ => Or.inl (stageOf_congr hvisits)

theorem Books.wakeNext (h : Books active s) : Books active s.wakeNext :=
  h.congr line_wakeNext traversal_wakeNext fun f _ => stageOf_wakeNext f

theorem Books.release (h : Books active s) : Books active s.release :=
  Books.wakeNext (s := { s with permits := s.permits + 1 }) (h.quiet rfl rfl rfl)

theorem Books.cancelBelow (h : Books active s) (f : String) : Books active (s.cancelBelow f) :=
  h.congr line_cancelBelow (traversal_cancelBelow f s)
    fun _ _ => Or.inl (stageOf_of_shape (shape_cancelBelow f s))

theorem Books.extended (h : Books active s) (folder : String) (found : List String) :
    Books active (s.extended folder found) :=
  h.congr rfl rfl fun _ _ => Or.inl (stageOf_extended folder found)

theorem Books.leaveLine (h : Books (some f) s) : Books (some f) (s.leaveLine f) := by
  intro g hg
  have hne : g ≠ f := by simpa using Ne.symm hg
  exact ⟨(List.count_erase_of_ne hne).trans (h g hg).line, (h g hg).inFlight, (h g hg).calls⟩

theorem Books.launched (h : Books (some f) s) : Books (some f) (s.launched p f) := by
  intro g hg
  have hne : g ≠ f := by simpa using Ne.symm hg
  cases hfull : s.traversal.isFull p with
  | true =>
    refine ⟨(h g hg).line, ?_, ?_⟩
    all_goals simp only [Timeline.launched, Traversal.launch_of_full hfull]
    · exact (h g hg).inFlight
    · exact (h g hg).calls
  | false =>
    refine ⟨(h g hg).line, ?_, ?_⟩
    all_goals simp only [Timeline.launched, Traversal.launch_of_room hfull, List.count_append,
      List.count_singleton, beq_eq_false_iff_ne.mpr (Ne.symm hne)]
    · exact (h g hg).inFlight
    · exact (h g hg).calls

theorem Books.landed (h : Books (some f) s) (hinFlight : t.inFlight = s.traversal.inFlight.erase f)
    (hcalls : t.calls = s.traversal.calls) : Books (some f) { s with traversal := t } := by
  intro g hg
  have hne : g ≠ f := by simpa using Ne.symm hg
  refine ⟨(h g hg).line, ?_, ?_⟩
  · rw [hinFlight, List.count_erase_of_ne hne]
    exact (h g hg).inFlight
  · rw [hcalls]
    exact (h g hg).calls

/-- A turn is over when its visit is booked as suits its new stage. -/
theorem Books.settle (h : Books (some f) s) (stage : Stage) (hmem : f ∈ s.folders)
    (hvisits : s'.visits = (s.setStage f stage).visits)
    (hline : ∀ g, g ≠ f → s'.line.count g = s.line.count g)
    (htraversal : s'.traversal = s.traversal) (hown : Booked s' f stage) : Books none s' := by
  intro g _
  by_cases hg : g = f
  · subst hg
    rwa [stageOf_setStage_self hvisits hmem]
  · have hbefore := h g (by simpa using Ne.symm hg)
    rw [stageOf_setStage hvisits hg]
    exact ⟨(hline g hg).trans hbefore.line, htraversal ▸ hbefore.inFlight,
      htraversal ▸ hbefore.calls⟩

theorem Books.finish (h : Books (some v.folder) s) (hmem : v.folder ∈ s.folders) {how : Ending}
    (hown : Booked s v.folder (.over how)) : Books none (s.finish v how) :=
  h.settle _ hmem (visits_finish how) (fun _ _ => by rw [line_finish]) (traversal_finish how)
    (hown.congr (line_finish how) (traversal_finish how))

theorem Books.awaiting (h : Books (some f) s) (hmem : f ∈ s.folders) (found : List String)
    {how : Ending} (hown : Booked s f (.over how)) : Books none (s.awaiting f found) := by
  have hmem' : f ∈ (s.extended f found).folders := by
    rw [folders, Timeline.extended, List.map_append]
    exact List.mem_append_left _ hmem
  exact (h.extended f found).settle _ hmem' rfl (fun _ _ => rfl) rfl
    ⟨hown.line, hown.inFlight, hown.calls⟩

theorem Books.begin (h : Books none s) (f : String) : Books (some f) s := fun g _ => h g (by simp)

/-! Turns and the other steps. -/

theorem Books.comeBack (h : Books (some v.folder) s) (hmem : v.folder ∈ s.folders)
    (hown : Booked s v.folder .returned) : Books none (s.comeBack p source v) := by
  have hreleased := h.release
  have hmem' : v.folder ∈ s.release.folders := by
    rwa [folders_of_links links_release]
  have hown' : Booked s.release v.folder .returned := hown.congr line_release traversal_release
  -- The call is merged, and the visit ends or waits for others.
  have hmerged : ∀ t : Traversal, t.inFlight = s.traversal.inFlight.erase v.folder →
      t.calls = s.traversal.calls →
      (∀ how, Books none ({ s.release with traversal := t }.finish v how)) ∧
        ∀ found, Books none ({ s.release with traversal := t }.awaiting v.folder found) := by
    intro t hinFlight hcalls
    rw [← traversal_release (s := s)] at hinFlight hcalls
    have hothers := hreleased.landed hinFlight hcalls
    exact ⟨fun how => hothers.finish hmem' (hown'.landed rfl hinFlight hcalls how),
      fun found => hothers.awaiting hmem' found (hown'.landed rfl hinFlight hcalls .done)⟩
  rcases comeBack_cases p source s v with ⟨e, more, -, heq⟩ | ⟨-, heq⟩
  · rw [heq]
    exact (hmerged { s.traversal with
      inFlight := s.traversal.inFlight.erase v.folder
      result := s.traversal.result ++ more
      failures := s.traversal.failures ++ [e] } rfl rfl).1 _
  · obtain ⟨hended, hwaits⟩ := hmerged (s.traversal.taken p v.folder
      (source.level v.folder)) rfl rfl
    rw [heq]
    simp only
    split
    · exact hended .done
    · exact hwaits _

theorem Books.enter (h : Books (some v.folder) s) (hmem : v.folder ∈ s.folders)
    (hown : Booked s v.folder .fresh) : Books none (s.enter p source v) := by
  have hlaunched := h.launched (p := p)
  rw [enter_eq]
  cases hfull : s.traversal.isFull p with
  | true =>
    have hkept : Booked (s.launched p v.folder) v.folder (.over .done) := by
      refine ⟨hown.line, ?_, ?_⟩
      all_goals simp only [Timeline.launched, Traversal.launch_of_full hfull]
      · exact hown.inFlight
      · exact hown.calls.trans (Nat.zero_le _)
    rw [if_pos rfl]
    refine hlaunched.release.finish ?_ (hkept.congr line_release traversal_release)
    rwa [folders_of_links links_release]
  | false =>
    have hcalling := hown.launched hfull
    rw [if_neg Bool.false_ne_true]
    split
    · exact hlaunched.settle _ hmem rfl (fun _ _ => rfl) rfl
        ⟨hcalling.line, hcalling.inFlight, hcalling.calls⟩
    · exact hlaunched.comeBack hmem ⟨hcalling.line, hcalling.inFlight, hcalling.calls⟩

theorem Books.dropVisit (h : Books (some v.folder) s) (hmem : v.folder ∈ s.folders)
    (hown : Booked s v.folder v.stage) : Books none (s.dropVisit v) := by
  have hended : ∀ s' : Timeline, Books (some v.folder) s' → s'.folders = s.folders →
      Booked s' v.folder (.over .dropped) → Books none (s'.finish v .dropped) :=
    fun s' h' hfolders hown' => h'.finish (hfolders ▸ hmem) hown'
  have hreleased : ∀ s' : Timeline, Books (some v.folder) s' → s'.visits = s.visits →
      Booked s' v.folder (.over .dropped) → Books none (s'.release.finish v .dropped) := by
    intro s' h' hvisits hown'
    refine hended _ h'.release ?_ (hown'.congr line_release traversal_release)
    rw [folders_of_links links_release, folders, hvisits, folders]
  have hgiven : Books (some v.folder) { s with traversal := s.traversal.abandon v.folder } :=
    h.landed rfl rfl
  -- A visit in line leaves it; any other one is in no line.
  have hleft : v.stage.places = 1 → Booked { s.leaveLine v.folder with
      traversal := s.traversal.abandon v.folder } v.folder (.over .dropped) := fun hplaces =>
    (hown.leaveLine hplaces).landed (t := s.traversal.abandon v.folder) rfl rfl rfl .dropped
  have hstays : v.stage.places = 0 → Booked { s with
      traversal := s.traversal.abandon v.folder } v.folder (.over .dropped) := fun hplaces =>
    hown.landed (t := s.traversal.abandon v.folder) hplaces rfl rfl .dropped
  simp only [Timeline.dropVisit]
  cases hstage : v.stage with
  | fresh | gathering n | «over» how => exact hended _ hgiven rfl (hstays (by rw [hstage]; rfl))
  | queued => exact hended _ hgiven.leaveLine rfl (hleft (by rw [hstage]; rfl))
  | granted => exact hreleased _ hgiven.leaveLine rfl (hleft (by rw [hstage]; rfl))
  | calling | returned =>
    exact hreleased _ (hgiven.quiet rfl rfl rfl) rfl
      ((hstays (by rw [hstage]; rfl)).congr rfl rfl)
  | gathered how =>
    refine hended _ (hgiven.cancelBelow v.folder) ?_
      ((hstays (by rw [hstage]; rfl)).congr line_cancelBelow (traversal_cancelBelow _ _))
    exact folders_of_links (links_of_shape (shape_cancelBelow v.folder _))

theorem Books.turn (h : Books none s) (hunique : s.folders.Nodup) (hv : v ∈ s.visits) :
    Books none (s.turn p source v) := by
  have hmem : v.folder ∈ s.folders := List.mem_map_of_mem hv
  have hothers := h.begin v.folder
  have hown : Booked s v.folder v.stage := by
    rw [← stageOf_of_mem hunique hv]
    exact h v.folder (by simp)
  cases hcancelled : v.cancelled with
  | true =>
    simp only [Timeline.turn, hcancelled, if_true]
    exact hothers.dropVisit hmem hown
  | false =>
    simp only [Timeline.turn, hcancelled, Bool.false_eq_true, if_false]
    cases hstage : v.stage with
    | fresh =>
      rw [hstage] at hown
      simp only
      split
      · refine hothers.settle _ hmem rfl (fun g hg => ?_) rfl ⟨?_, hown.inFlight, hown.calls⟩
        · simp [List.count_append, List.count_singleton, beq_eq_false_iff_ne.mpr (Ne.symm hg)]
        · simp [hown.line, Stage.places]
      · exact Books.enter (s := { s with permits := s.permits - 1 })
          (hothers.quiet rfl rfl rfl) hmem
          (hown.congr rfl rfl)
    | granted =>
      rw [hstage] at hown
      have hleft := hown.leaveLine rfl
      simp only
      split
      · refine hothers.leaveLine.wakeNext.enter ?_ (hleft.congr line_wakeNext traversal_wakeNext)
        rwa [folders_of_links links_wakeNext]
      · exact hothers.leaveLine.enter hmem hleft
    | returned => exact hothers.comeBack hmem (hstage ▸ hown)
    | gathered how =>
      rw [hstage] at hown
      have hover : ∀ how, Booked s v.folder (.over how) := fun _ =>
        ⟨hown.line, hown.inFlight, hown.calls⟩
      have hspoiled : ∀ how, Books none ((s.cancelBelow v.folder).finish v how) := by
        intro how
        refine (hothers.cancelBelow v.folder).finish ?_
          ((hover how).congr line_cancelBelow (traversal_cancelBelow _ _))
        rwa [folders_of_links (links_of_shape (shape_cancelBelow v.folder s))]
      cases how with
      | done => exact hothers.finish hmem (hover .done)
      | failed e => exact hspoiled _
      | dropped => exact hspoiled _
    | queued | calling | gathering n | «over» how => exact h

theorem Books.report (h : Books none s) (hunique : s.folders.Nodup) (a : String) (how : Ending) :
    Books none (s.report a how) := by
  cases hw : s.visit? a with
  | none => simpa only [Timeline.report, hw] using h
  | some w =>
    obtain ⟨hmem, rfl⟩ := mem_of_visit? hw
    cases hstage : w.stage with
    | gathering n =>
      have hown := h w.folder (by simp)
      rw [stageOf_of_mem hunique hmem, hstage] at hown
      have hafter : Booked s w.folder (.after n how) := by
        cases how with
        | done =>
          simp only [Stage.after]
          split <;> exact ⟨hown.line, hown.inFlight, hown.calls⟩
        | failed e | dropped => exact ⟨hown.line, hown.inFlight, hown.calls⟩
      rw [report_of_gathering hw hstage]
      split <;> exact (h.begin w.folder).settle _ (List.mem_map_of_mem hmem) rfl
        (fun _ _ => rfl) rfl
        (hafter.congr rfl rfl)
    | _ => rwa [report_of_not_gathering hw (by simp [hstage, Stage.isGathering])]

/-- A call that comes back as time passes is in flight until it is merged. -/
theorem Watched.books_arrive_all {due left : List (String × Float)}
    (h : Watched p source none phase { s with running := due ++ left }) (hbooks : Books none s) :
    Books none (due.foldl Timeline.arrive { s with running := left }) := by
  induction due generalizing s with
  | nil => exact hbooks.quiet rfl rfl rfl
  | cons call rest ih =>
    obtain ⟨v, hv, hfolder, hcalling⟩ := h.underway.calling call.1 (by simp)
    have hown := hbooks v.folder (by simp)
    rw [stageOf_of_mem (s := s) h.unique hv, hcalling, hfolder] at hown
    have hback : Books none (s.arrive call) :=
      (hbooks.begin call.1).settle .returned (hfolder ▸ List.mem_map_of_mem hv) rfl
        (fun _ _ => rfl) rfl ⟨hown.line, hown.inFlight, hown.calls⟩
    exact ih (s := s.arrive call) (h.arrive (rest ++ left)) hback

theorem Watched.books_step (h : Watched p source none phase s) (hbooks : Books none s)
    (hstep : Step p source' s s') : Books none s' := by
  have hnext : ∀ rest, Books none { s with agenda := rest } := fun _ => hbooks.quiet rfl rfl rfl
  cases hstep with
  | @handle e rest hagenda =>
    cases e with
    | report f =>
      simp only [handle]
      split
      · exact Books.report (s := { s with agenda := rest }) (hnext rest) h.unique _ _
      · exact hnext rest
    | turn f =>
      simp only [handle]
      split
      · rename_i v hvisit
        exact Books.turn (s := { s with agenda := rest }) (hnext rest) h.unique
          (mem_of_visit? hvisit).1
      · exact hnext rest
  | elapse now hperm hdue =>
    exact Watched.books_arrive_all (s := { s with now := now }) (h.of_running now hperm)
      (hbooks.quiet rfl rfl rfl)

theorem Course.books (hcourse : Course p past s) (hsame : Steady source past) : Books none s := by
  refine (Course.induction (I := fun _ s => Books none s) ?_ ?_
    (fun _ _ _ h => h.quiet rfl rfl rfl) hcourse hsame).1
  · intro f _
    have hfresh : (Timeline.start p).stageOf f = .fresh := by
      by_cases hf : p.options.folder = f <;> simp [stageOf, visit?, Timeline.start, hf]
    rw [hfresh]
    exact ⟨rfl, rfl, le_refl _⟩
  · intro past source' s s' phase hI hwatched _ hstep
    exact hwatched.books_step hI hstep

/-! What the books tell. -/

variable (hbooks : Books none s)
include hbooks

theorem Books.calls_nodup : s.traversal.calls.Nodup := by
  rw [List.nodup_iff_count_le_one]
  intro f
  exact (hbooks f (by simp)).calls.trans (Stage.called_le _)

theorem Books.inFlight_nodup : s.traversal.inFlight.Nodup := by
  rw [List.nodup_iff_count_le_one]
  intro f
  rw [(hbooks f (by simp)).inFlight]
  cases s.stageOf f <;> simp [Stage.out]

omit hbooks in
/-- A folder that is not as at the start has a visit. -/
theorem exists_of_stageOf (hstage : s.stageOf f ≠ .fresh) :
    ∃ v ∈ s.visits, v.folder = f ∧ v.stage = s.stageOf f := by
  cases hv : s.visit? f with
  | none => simp [stageOf, hv] at hstage
  | some v =>
    obtain ⟨hmem, hfolder⟩ := mem_of_visit? hv
    exact ⟨v, hmem, hfolder, by simp [stageOf, hv]⟩

/-- Calls are made for visits only. -/
theorem Books.calls_mem (hf : f ∈ s.traversal.calls) : f ∈ s.folders := by
  have hpos := List.count_pos_iff.mpr hf
  have hcalled := (hbooks f (by simp)).calls
  obtain ⟨v, hv, rfl, -⟩ := exists_of_stageOf (s := s) (f := f) (by
    intro hfresh
    simp only [hfresh, Stage.called] at hcalled
    omega)
  exact List.mem_map_of_mem hv

/-- A call is in flight while its visit waits for it, and no longer. -/
theorem Books.inFlight_mem : f ∈ s.traversal.inFlight ↔
    ∃ v ∈ s.visits, v.folder = f ∧ v.stage = s.stageOf f ∧ v.stage.out = 1 := by
  rw [← List.count_pos_iff, (hbooks f (by simp)).inFlight]
  constructor
  · intro hpos
    obtain ⟨v, hv, hfolder, hstage⟩ := exists_of_stageOf (s := s) (f := f) (by
      intro hfresh
      simp [hfresh, Stage.out] at hpos)
    refine ⟨v, hv, hfolder, hstage, ?_⟩
    rw [hstage]
    cases hs : s.stageOf f <;> simp_all [Stage.out]
  · rintro ⟨v, -, -, hstage, hout⟩
    rw [← hstage, hout]
    exact Nat.one_pos

end Timeline

end Depot.Listing
