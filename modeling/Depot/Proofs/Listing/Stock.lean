import Depot.Proofs.Listing.Course

/-!
The permits of a listing. A visit holds one from when it is granted until its call is merged
or it is dropped; with those that are free they are as many at the end of every step as they
were at the start.
-/
namespace Depot.Listing.Timeline

def Stage.permits : Stage → Nat
  | .granted | .calling | .returned => 1
  | _ => 0

def stock (s : Timeline) : Nat := s.permits + (s.visits.map (·.stage.permits)).sum

variable {p : Plan} {source source' : Source} {active : Option String} {phase : String → Phase}
  {s s' : Timeline} {f : String} {v w : Visit} {stage : Stage} {past : List Moment}

/-- A visit goes on to another stage. -/
theorem stock_setStage (hunique : s.folders.Nodup) (hv : v ∈ s.visits) (stage : Stage) :
    (s.setStage v.folder stage).stock + v.stage.permits = s.stock + stage.permits := by
  have hsum := sum_update (g := fun v => { v with stage := stage }) hunique hv (·.stage.permits)
  have hfree : (s.setStage v.folder stage).permits = s.permits := rfl
  simp only [stock, hfree]
  simp only [setStage] at hsum ⊢
  omega

theorem stock_of_shape (hshape : s'.shape = s.shape) (hpermits : s'.permits = s.permits) :
    s'.stock = s.stock := by
  have hheld := congrArg (List.map fun x => x.2.2.permits) hshape
  simp only [shape, List.map_map, Function.comp_def] at hheld
  simp only [stock, hpermits, hheld]

theorem stock_cancelBelow : (s.cancelBelow f).stock = s.stock :=
  stock_of_shape (shape_cancelBelow f s) permits_cancelBelow

/-- Whoever is woken holds what was free before. -/
theorem stock_wakeNext (hunique : s.folders.Nodup) (hfree : 0 < s.permits) :
    s.wakeNext.stock = s.stock := by
  rcases wakeNext_cases s with heq | ⟨v, hv, -, hqueued, -, heq⟩
  · rw [heq]
  · have hgranted := stock_setStage (s := { s with permits := s.permits - 1 }) hunique hv .granted
    have htaken : { s with permits := s.permits - 1 }.stock + 1 = s.stock := by
      simp only [stock]
      omega
    rw [hqueued] at hgranted
    simp only [Stage.permits] at hgranted
    rw [heq]
    exact hgranted.trans htaken

theorem stock_release (hunique : s.folders.Nodup) : s.release.stock = s.stock + 1 := by
  have hwoken := stock_wakeNext (s := { s with permits := s.permits + 1 }) hunique (Nat.succ_pos _)
  have hgiven : { s with permits := s.permits + 1 }.stock = s.stock + 1 := by
    simp only [stock]
    omega
  exact hwoken.trans hgiven

/-- The permit of a visit that comes to its end is not counted any more. -/
theorem stock_finish (hunique : s.folders.Nodup) (hw : w ∈ s.visits) (hfolder : w.folder = v.folder)
    (how : Ending) : (s.finish v how).stock + w.stage.permits = s.stock := by
  have hover := stock_setStage hunique hw (.over how)
  have hsame : (s.finish v how).stock = (s.setStage w.folder (.over how)).stock := by
    simp only [stock, visits_finish, permits_finish, hfolder]
    rfl
  rw [hsame, hover]
  rfl

theorem stock_awaiting {found : List String} (hunique : s.folders.Nodup) (hv : v ∈ s.visits)
    (hnodup : found.Nodup) (hnew : ∀ g ∈ found, g ∉ s.folders) :
    (s.awaiting v.folder found).stock + v.stage.permits = s.stock := by
  have hnone : (s.extended v.folder found).stock = s.stock := by
    have hfresh : ((fun u : Visit => u.stage.permits) ∘ fun g =>
        (⟨g, some v.folder, .fresh, false⟩ : Visit)) = fun _ => 0 := rfl
    simp [stock, extended, hfresh]
  have hwaits := stock_setStage (nodup_extended hunique hnodup hnew v.folder)
    (show v ∈ (s.extended v.folder found).visits from List.mem_append_left _ hv)
    (.gathering found.length)
  rw [hnone] at hwaits
  exact hwaits

/-- A call that comes back gives its permit back. -/
theorem Watched.stock_comeBack (source' : Source) (h : Watched p source active phase s)
    (hv : v ∈ s.visits) (hgoing : v.stage.isIdle = false) :
    (s.comeBack p source' v).stock + v.stage.permits = s.stock + 1 := by
  have hreleased := h.release
  obtain ⟨hv', -⟩ := h.mem_release hv hgoing
  have hended : ∀ t how, ({ s.release with traversal := t }.finish v how).stock + v.stage.permits =
      s.stock + 1 := fun t how =>
    (stock_finish (s := { s.release with traversal := t }) hreleased.unique hv' rfl how).trans
      (stock_release h.unique)
  rcases comeBack_cases p source' s v with ⟨e, more, -, heq⟩ | ⟨-, heq⟩
  · rw [heq]
    exact hended _ _
  · have hspec := s.traversal.found_spec p v.folder (source'.level v.folder)
    have hnew : ∀ g ∈ s.traversal.found p v.folder (source'.level v.folder),
        g ∉ s.release.folders := by
      intro g hg
      rw [← hreleased.visited, traversal_release]
      exact (hspec.2 g hg).1
    rw [heq]
    simp only
    split
    · exact hended _ _
    · exact (stock_awaiting hreleased.unique hv' hspec.1 hnew).trans (stock_release h.unique)

/-- One permit is in hand. It is given back, or else the visit holds it. -/
theorem Watched.stock_enter (source' : Source) (h : Watched p source active phase s)
    (hv : v ∈ s.visits) (hgoing : v.stage.isIdle = false) :
    (s.enter p source' v).stock + v.stage.permits = s.stock + 1 := by
  have hlaunched := h.launched v.folder
  have hv' : v ∈ (s.launched p v.folder).visits := hv
  rw [enter_eq]
  split
  · obtain ⟨hreleased, -⟩ := hlaunched.mem_release hv' hgoing
    exact (stock_finish hlaunched.release.unique hreleased rfl .done).trans
      (stock_release hlaunched.unique)
  · split
    · exact stock_setStage hlaunched.unique hv' .calling
    · exact hlaunched.stock_comeBack source' hv' hgoing

theorem stock_dropVisit (hunique : s.folders.Nodup) (hv : v ∈ s.visits) :
    (s.dropVisit v).stock = s.stock := by
  -- Whatever is given back is what the visit held.
  have hended : ∀ (s' : Timeline) (w : Visit), s'.folders.Nodup → w ∈ s'.visits →
      w.folder = v.folder → w.stage = v.stage → s'.stock = s.stock + v.stage.permits →
      (s'.finish v .dropped).stock = s.stock := by
    intro s' w hnodup hw hfolder hsame hstock
    have hover := stock_finish hnodup hw hfolder .dropped
    rw [hsame] at hover
    omega
  have hgiven : ∀ s' : Timeline, s'.visits = s.visits → s'.permits = s.permits →
      v.stage ≠ .queued → v.stage.permits = 1 →
      (s'.release.finish v .dropped).stock = s.stock := by
    intro s' hvisits hpermits hstage hone
    have hnodup : s'.folders.Nodup := by rwa [folders, hvisits]
    have hstock : s'.stock = s.stock := by simp only [stock, hvisits, hpermits]
    refine hended s'.release v ?_ (mem_release (hvisits ▸ hv) hstage hnodup) rfl rfl ?_
    · rwa [folders_of_links links_release]
    · rw [stock_release hnodup, hstock, hone]
  simp only [Timeline.dropVisit]
  cases hstage : v.stage with
  | fresh | gathering n | «over» how | queued =>
    exact hended _ v hunique hv rfl rfl (by simp [hstage, Stage.permits, stock, leaveLine])
  | granted | calling | returned =>
    exact hgiven _ rfl rfl (by simp [hstage]) (by simp [hstage, Stage.permits])
  | gathered how =>
    obtain ⟨w, hw, hfolder, -, hsame⟩ := exists_of_shape
      (shape_cancelBelow v.folder { s with traversal := s.traversal.abandon v.folder }) hv
    refine hended _ w ?_ hw hfolder hsame ?_
    · rwa [folders_of_links (links_of_shape (shape_cancelBelow v.folder _))]
    · rw [stock_cancelBelow, hstage]
      rfl

theorem Watched.stock_turn (h : Watched p source active phase s) (hv : v ∈ s.visits) :
    (s.turn p source' v).stock = s.stock := by
  cases hcancelled : v.cancelled with
  | true =>
    simp only [Timeline.turn, hcancelled, if_true]
    exact stock_dropVisit h.unique hv
  | false =>
    simp only [Timeline.turn, hcancelled, Bool.false_eq_true, if_false]
    cases hstage : v.stage with
    | fresh =>
      simp only
      split
      · have hqueued := stock_setStage h.unique hv .queued
        rw [hstage] at hqueued
        exact hqueued
      · rename_i hnext
        have hfree : 0 < s.permits := by
          rw [Nat.pos_iff_ne_zero]
          intro hnone
          simp [mustQueue, hnone] at hnext
        have hentered := (h.of_permits (s.permits - 1)).stock_enter source' hv
          (by simp [hstage, Stage.isIdle])
        have htaken : { s with permits := s.permits - 1 }.stock + 1 = s.stock := by
          simp only [stock]
          omega
        rw [hstage] at hentered
        simp only [Stage.permits] at hentered
        omega
    | granted =>
      have hleft := h.leaveLine v.folder
      have hentered : ∀ s' : Timeline, Watched p source active phase s' → v ∈ s'.visits →
          s'.stock = s.stock → (s'.enter p source' v).stock = s.stock := by
        intro s' h' hv' hstock
        have hentered := h'.stock_enter source' hv' (by simp [hstage, Stage.isIdle])
        rw [hstage] at hentered
        simp only [Stage.permits] at hentered
        omega
      refine hentered _ ?_ ?_ ?_
      · split
        · exact hleft.wakeNext
        · exact hleft
      · split
        · exact mem_wakeNext (s := s.leaveLine v.folder) hv (by simp [hstage]) h.unique
        · exact hv
      · split
        · rename_i hfree
          exact stock_wakeNext (s := s.leaveLine v.folder) h.unique hfree
        · rfl
    | returned =>
      have hback := h.stock_comeBack source' hv (by simp [hstage, Stage.isIdle])
      rw [hstage] at hback
      simp only [Stage.permits] at hback
      simp only
      omega
    | gathered how =>
      have hspoiled : ∀ how, ((s.cancelBelow v.folder).finish v how).stock = s.stock := by
        intro how
        have hshape := shape_cancelBelow v.folder s
        obtain ⟨w, hw, hfolder, -, hsame⟩ := exists_of_shape hshape hv
        have hover := stock_finish (folders_of_links
            (links_of_shape hshape) ▸ h.unique) hw hfolder how
        rw [hsame, hstage, stock_cancelBelow] at hover
        exact hover
      cases how with
      | done =>
        have hover := stock_finish h.unique hv rfl .done
        rw [hstage] at hover
        exact hover
      | failed e => exact hspoiled _
      | dropped => exact hspoiled _
    | queued | calling | gathering n | «over» how => rfl

theorem stock_report (hunique : s.folders.Nodup) (a : String) (how : Ending) :
    (s.report a how).stock = s.stock := by
  cases hw : s.visit? a with
  | none => simp [Timeline.report, hw]
  | some w =>
    obtain ⟨hmem, rfl⟩ := mem_of_visit? hw
    cases hstage : w.stage with
    | gathering n =>
      have hafter := stock_setStage hunique hmem (.after n how)
      have hnone : (Stage.after n how).permits = 0 := by
        cases how with
        | done => by_cases hn : n ≤ 1 <;> simp [Stage.after, hn, Stage.permits]
        | failed e | dropped => rfl
      rw [hstage, hnone] at hafter
      rw [report_of_gathering hw hstage]
      split <;> exact hafter
    | _ => rw [report_of_not_gathering hw (by simp [hstage, Stage.isGathering])]

/-- A call that is merged later still holds its permit. -/
theorem Watched.stock_arrive_all {due left : List (String × Float)}
    (h : Watched p source none phase { s with running := due ++ left }) :
    (due.foldl Timeline.arrive { s with running := left }).stock = s.stock := by
  induction due generalizing s with
  | nil => rfl
  | cons call rest ih =>
    obtain ⟨v, hv, hfolder, hcalling⟩ := h.underway.calling call.1 (by simp)
    have hback := stock_setStage h.unique hv .returned
    rw [hcalling, hfolder] at hback
    exact (ih (s := s.arrive call) (h.arrive (rest ++ left))).trans (Nat.add_right_cancel hback)

/-- No step makes a permit or loses one. -/
theorem Watched.stock_step (h : Watched p source none phase s) (hstep : Step p source' s s') :
    s'.stock = s.stock := by
  cases hstep with
  | @handle e rest hagenda =>
    cases e with
    | report f =>
      simp only [handle]
      split
      · exact stock_report (s := { s with agenda := rest }) h.unique _ _
      · rfl
    | turn f =>
      simp only [handle]
      split
      · rename_i v hvisit
        exact (h.begin hagenda).stock_turn (mem_of_visit? hvisit).1
      · rfl
  | elapse now hperm hdue =>
    exact Watched.stock_arrive_all (s := { s with now := now }) (h.of_running now hperm)

theorem Course.stock_eq (hcourse : Course p past s) (hsame : Steady source past) :
    s.stock = p.options.threads := by
  refine (Course.induction (I := fun _ s => s.stock = p.options.threads) ?_ ?_ (fun _ _ _ h => h)
    hcourse hsame).1
  · simp [Timeline.start, stock, Stage.permits]
  · intro past source' s s' phase hI hwatched _ hstep
    exact (hwatched.stock_step hstep).trans hI

end Depot.Listing.Timeline
