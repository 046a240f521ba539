import Depot.Proofs.Listing.Upsets

/-!
How much a listing has left to do, failures and cancelled visits included. Every event on the
agenda and every visit has a price, which depends on how far the visit has come; a move uses
up some of it, but for the new visits, which bring their own. The price `d` of a call that is
yet to be made has to make up for the moves that the call may take: those of a call that
takes time are more.
-/
namespace Depot.Listing.Timeline

def Event.cost : Event → Nat
  | .turn _ => 2
  | .report _ => 1

/-- A visit at rest has to be given a turn when it is cancelled, which makes up for what it
need not do any more. -/
def Visit.cost (d : Nat) (v : Visit) : Nat :=
  match v.stage with
  | .fresh => d + 1
  | .queued => if v.cancelled then d else d + 2
  | .granted => d
  | .calling => if v.cancelled then 4 else 6
  | .returned => 1
  | .gathering _ => 2
  | .gathered _ | .over _ => 0

def cost (d : Nat) (s : Timeline) : Nat :=
  (s.agenda.map Event.cost).sum + (s.visits.map (Visit.cost d)).sum

def Adds (d n : Nat) (s s' : Timeline) : Prop :=
  s'.cost d + (d + 3) * s.visits.length ≤ s.cost d + n + (d + 3) * s'.visits.length

variable {p : Plan} {source source' : Source} {active : Option String} {phase : String → Phase}
  {s s' : Timeline} {f : String} {v w : Visit} {g : Visit → Visit} {d n : Nat}

theorem length_of_links (h : s'.links = s.links) : s'.visits.length = s.visits.length := by
  have hlength := congrArg List.length h
  simpa [links] using hlength

theorem Adds.of_cost (hcost : s'.cost d ≤ s.cost d + n) (hlinks : s'.links = s.links) :
    Adds d n s s' := by
  unfold Adds
  rw [length_of_links hlinks]
  omega

theorem cost_push (e : Event) : (s.push e).cost d = s.cost d + e.cost := by
  simp only [cost, push, List.map_append, List.sum_append, List.map_cons, List.map_nil,
    List.sum_cons, List.sum_nil]
  omega

/-- One visit changes its price. -/
theorem cost_update (hunique : s.folders.Nodup) (hv : v ∈ s.visits) :
    (s.update v.folder g).cost d + v.cost d = s.cost d + (g v).cost d := by
  have hswap := sum_update (g := g) hunique hv (Visit.cost d)
  simp only [cost]
  rw [show (s.update v.folder g).agenda = s.agenda from rfl]
  omega

theorem cost_wakeNext (hunique : s.folders.Nodup) : s.wakeNext.cost d = s.cost d := by
  rcases wakeNext_cases s with heq | ⟨v, hv, -, hqueued, hfree, heq⟩
  · rw [heq]
  · have hcost := cost_update (g := fun v => { v with stage := .granted }) (d := d) hunique hv
    rw [heq, cost_push]
    simp only [Visit.cost, hqueued, hfree] at hcost
    have hsame : ({ s with permits := s.permits - 1 }.setStage v.folder .granted).cost d =
        (s.update v.folder fun v => { v with stage := .granted }).cost d := rfl
    rw [hsame, show Event.cost (.turn v.folder) = 2 from rfl]
    simp at hcost
    omega

theorem cost_release (hunique : s.folders.Nodup) : s.release.cost d = s.cost d :=
  cost_wakeNext (s := { s with permits := s.permits + 1 }) hunique

/-- The end of a visit costs a report at most. -/
theorem cost_finish (hunique : s.folders.Nodup) (hw : w ∈ s.visits) (hfolder : w.folder = v.folder)
    (how : Ending) : (s.finish v how).cost d + w.cost d ≤ s.cost d + 1 := by
  have hcost := cost_update (g := fun v => { v with stage := .over how }) (d := d) hunique hw
  have hstage : (s.setStage v.folder (.over how)).cost d =
      (s.update w.folder fun v => { v with stage := .over how }).cost d := by
    rw [hfolder]
    rfl
  have hover : ({ w with stage := .over how } : Visit).cost d = 0 := rfl
  unfold finish
  simp only
  split
  · rw [cost_push, hstage, show Event.cost (.report v.folder) = 1 from rfl]
    omega
  · rw [hstage]
    omega

/-- Whoever is given a turn to end in need not do any more than that. -/
theorem cost_cancelBelow (hunique : s.folders.Nodup) : (s.cancelBelow f).cost d ≤ s.cost d := by
  have hbears : Bears (fun s' => s'.cost d ≤ s.cost d ∧ s'.folders.Nodup) fun _ => True := by
    refine ⟨fun _ _ _ _ _ _ => trivial, ?_, ?_⟩
    · rintro s' v ⟨hle, hnodup⟩ - hvisit hdue
      have hcost := cost_update (g := fun v => { v with cancelled := true }) (d := d) hnodup
        (mem_of_visit? hvisit).1
      have hsame : ({ v with cancelled := true } : Visit).cost d = v.cost d := by
        cases hstage : v.stage <;> simp_all [Visit.cost, Stage.isDue]
      refine ⟨?_, ?_⟩
      · rw [mark]
        omega
      · rw [folders_eq, links_of_shape (shape_mark v.folder), ← folders_eq]
        exact hnodup
    · rintro s' v ⟨hle, hnodup⟩ - hvisit hidle hfree
      have hcost := cost_update (g := fun v => { v with cancelled := true }) (d := d) hnodup
        (mem_of_visit? hvisit).1
      have hsaved : ({ v with cancelled := true } : Visit).cost d + 2 = v.cost d := by
        cases hstage : v.stage <;> simp_all [Visit.cost, Stage.isIdle]
      refine ⟨?_, ?_⟩
      · rw [cost_push, mark, show Event.cost (.turn v.folder) = 2 from rfl]
        omega
      · rw [folders_eq, links_of_shape (s := s') (by simp), ← folders_eq]
        exact hnodup
  exact (hbears.cancelBelow ⟨le_refl _, hunique⟩ fun _ _ => trivial).1

/-- New visits bring their own price with them. -/
theorem cost_awaiting {found : List String} (hunique : s.folders.Nodup) (hv : v ∈ s.visits)
    (hnodup : found.Nodup) (hnew : ∀ g ∈ found, g ∉ s.folders) :
    (s.awaiting v.folder found).cost d + v.cost d = s.cost d + (d + 3) * found.length + 2 := by
  have hgrown : (s.extended v.folder found).cost d = s.cost d + (d + 3) * found.length := by
    have hvisits : (found.map fun g => (⟨g, some v.folder, .fresh, false⟩ : Visit).cost d) =
        List.replicate found.length (d + 1) := List.map_const' ..
    have hturns : (found.map fun g => Event.cost (.turn g)) =
        List.replicate found.length 2 := List.map_const' ..
    have hprice : (d + 3) * found.length = found.length * (d + 1) + found.length * 2 := by
      rw [← Nat.mul_add, Nat.mul_comm]
    simp only [cost, extended, List.map_append, List.sum_append, List.map_map, Function.comp_def,
      hvisits, hturns, List.sum_replicate, smul_eq_mul]
    omega
  have hcost := cost_update (g := fun v => { v with stage := .gathering found.length }) (d := d)
    (nodup_extended hunique hnodup hnew v.folder)
    (show v ∈ (s.extended v.folder found).visits from List.mem_append_left _ hv)
  rw [hgrown, show ({ v with stage := .gathering found.length } : Visit).cost d =
    2 from rfl] at hcost
  exact hcost

/-- One price takes the place of another. -/
theorem Adds.of_change {old new : Nat} (hcost : s'.cost d + old ≤ s.cost d + new)
    (hnew : new ≤ old + n) (hlinks : s'.links = s.links) : Adds d n s s' :=
  .of_cost (by omega) hlinks

theorem Adds.after {before : Timeline} (h : Adds d n s s') (hcost : s.cost d ≤ before.cost d)
    (hlinks : s.links = before.links) : Adds d n before s' := by
  unfold Adds at h ⊢
  rw [length_of_links hlinks] at h
  omega

theorem Adds.of_awaiting {found : List String}
    (hcost : s'.cost d + v.cost d = s.cost d + (d + 3) * found.length + 2)
    (hlinks : s'.links = s.links ++ found.map fun g => (g, some f)) (hprice : 1 ≤ v.cost d) :
    Adds d 1 s s' := by
  have hlength : s'.visits.length = s.visits.length + found.length := by
    have hgrown := congrArg List.length hlinks
    simpa [links] using hgrown
  unfold Adds
  rw [hlength, Nat.mul_add]
  omega

/-- The end of a visit, after others were woken or cancelled. -/
theorem adds_finish (hunique : s.folders.Nodup) (hv : v ∈ s.visits) (hle : s'.cost d ≤ s.cost d)
    (hlinks : s'.links = s.links) (how : Ending) : Adds d 1 s (s'.finish v how) := by
  have hfolders := folders_of_links hlinks
  obtain ⟨w, hw, hfolder⟩ : ∃ w ∈ s'.visits, w.folder = v.folder := by
    have hmem : v.folder ∈ s'.folders := hfolders ▸ List.mem_map_of_mem hv
    exact List.mem_map.mp hmem
  have hcost := cost_finish (d := d) (hfolders ▸ hunique) hw hfolder how
  exact .of_cost (by omega) ((links_finish how).trans hlinks)

/-- A call that comes back is paid for by the price of its visit. -/
theorem Watched.adds_comeBack (h : Watched p source active phase s) (hv : v ∈ s.visits)
    (hgoing : v.stage.isIdle = false) (hprice : 1 ≤ v.cost d) :
    Adds d 1 s (s.comeBack p source' v) := by
  have hreleased := h.release
  obtain ⟨hv', -⟩ := h.mem_release hv hgoing
  have hended : ∀ t how, Adds d 1 s ({ s.release with traversal := t }.finish v how) := by
    intro t how
    have hle : cost d { s.release with traversal := t } ≤ s.cost d := (cost_release h.unique).le
    have hlinks : links { s.release with traversal := t } = s.links := links_release
    exact adds_finish h.unique hv hle hlinks how
  rcases comeBack_cases p source' s v with ⟨e, more, -, heq⟩ | ⟨-, heq⟩
  · rw [heq]
    exact hended _ _
  · have hspec := s.traversal.found_spec p v.folder (source'.level v.folder)
    have hnew : ∀ g ∈ s.traversal.found p v.folder (source'.level v.folder),
        g ∉ s.release.folders := by
      intro g hg
      rw [← hreleased.visited, traversal_release]
      exact (hspec.2 g hg).1
    have hcost := cost_awaiting (d := d) hreleased.unique hv' hspec.1 hnew
    rw [cost_release h.unique] at hcost
    have hlinks := links_awaiting (s := s.release) v.folder
      (s.traversal.found p v.folder (source'.level v.folder))
    rw [links_release] at hlinks
    rw [heq]
    simp only
    split
    · exact hended _ _
    · exact .of_awaiting hcost hlinks hprice

/-- So is a call that is made, if the price was high enough for one that takes time. -/
theorem Watched.adds_enter (h : Watched p source active phase s) (hv : v ∈ s.visits)
    (hgoing : v.stage.isIdle = false) (hprice : 1 ≤ v.cost d)
    (htime : 0 < source'.duration v.folder → 5 ≤ v.cost d) :
    Adds d 1 s (s.enter p source' v) := by
  have hlaunched := h.launched v.folder
  have hv' : v ∈ (s.launched p v.folder).visits := hv
  rw [enter_eq]
  split
  · exact adds_finish h.unique hv (cost_release hlaunched.unique).le links_release .done
  · split
    · rename_i hlong
      have hcost := cost_update (g := fun v => { v with stage := .calling }) (d := d) h.unique hv
      have hcalling : ({ v with stage := .calling } : Visit).cost d ≤ 6 := by
        simp only [Visit.cost]
        split <;> omega
      have henough := htime hlong
      exact .of_change hcost.le (by omega) (links_setStage .calling)
    · exact hlaunched.adds_comeBack hv' hgoing hprice

theorem adds_dropVisit (hunique : s.folders.Nodup) (hv : v ∈ s.visits) :
    Adds d 1 s (s.dropVisit v) := by
  refine adds_finish hunique hv ?_ ?_ .dropped
  · cases v.stage with
    | fresh | gathering n | «over» how | queued => exact le_refl (s.cost d)
    | granted =>
      exact (cost_release (s := leaveLine { s with
        traversal := s.traversal.abandon v.folder } v.folder) hunique).le
    | calling | returned =>
      exact (cost_release (s := { s with
        traversal := s.traversal.abandon v.folder
        running := s.running.filter (·.1 ≠ v.folder) }) hunique).le
    | gathered how =>
      exact cost_cancelBelow (s := { s with traversal := s.traversal.abandon v.folder }) hunique
  · cases v.stage with
    | fresh | gathering n | «over» how | queued => rfl
    | granted | calling | returned => exact links_release
    | gathered how => exact links_of_shape (shape_cancelBelow v.folder _)

/-- A turn uses up its event. -/
theorem Watched.adds_turn (h : Watched p source active phase s) (hv : v ∈ s.visits)
    (hd : 5 ≤ d ∨ 1 ≤ d ∧ Instant source') : Adds d 1 s (s.turn p source' v) := by
  have hpause : Adds d 1 s s := .of_cost (by omega) rfl
  have htime : ∀ u : Visit, d ≤ u.cost d → 0 < source'.duration u.folder → 5 ≤ u.cost d := by
    intro u hle hlong
    rcases hd with hd | ⟨-, hinstant⟩
    · omega
    · exact absurd hlong (hinstant u.folder)
  have hpos : 1 ≤ d := by omega
  cases hcancelled : v.cancelled with
  | true =>
    simp only [Timeline.turn, hcancelled, if_true]
    exact adds_dropVisit h.unique hv
  | false =>
    simp only [Timeline.turn, hcancelled, Bool.false_eq_true, if_false]
    cases hstage : v.stage with
    | fresh =>
      have hprice : v.cost d = d + 1 := by simp [Visit.cost, hstage]
      simp only
      split
      · have hcost := cost_update (g := fun v => { v with stage := .queued }) (d := d) h.unique hv
        have hqueued : ({ v with stage := .queued } : Visit).cost d = d + 2 := by
          simp [Visit.cost, hcancelled]
        exact .of_change hcost.le (by omega) (links_setStage .queued)
      · exact (h.of_permits (s.permits - 1)).adds_enter hv (by simp [hstage, Stage.isIdle])
          (by omega) (htime v (by omega))
    | granted =>
      have hprice : v.cost d = d := by simp [Visit.cost, hstage]
      have hleft := h.leaveLine v.folder
      simp only
      split
      · refine Adds.after (hleft.wakeNext.adds_enter
          (mem_wakeNext (s := s.leaveLine v.folder) hv (by simp [hstage]) h.unique)
          (by simp [hstage, Stage.isIdle]) (by omega) (htime v (by omega))) ?_ links_wakeNext
        exact (cost_wakeNext (s := s.leaveLine v.folder) h.unique).le
      · exact hleft.adds_enter hv (by simp [hstage, Stage.isIdle]) (by omega) (htime v (by omega))
    | returned =>
      simp only
      exact h.adds_comeBack hv (by simp [hstage, Stage.isIdle]) (by simp [Visit.cost, hstage])
    | gathered how =>
      cases how with
      | done => exact adds_finish h.unique hv (le_refl _) rfl .done
      | failed e =>
        exact adds_finish h.unique hv (cost_cancelBelow h.unique)
          (links_of_shape (shape_cancelBelow v.folder s)) (.failed e)
      | dropped =>
        exact adds_finish h.unique hv (cost_cancelBelow h.unique)
          (links_of_shape (shape_cancelBelow v.folder s)) .dropped
    | queued | calling | gathering n | «over» how => exact hpause

/-- A report leads to a turn at most, and then the visit waits no longer. -/
theorem cost_report (hunique : s.folders.Nodup) (a : String) (how : Ending) :
    (s.report a how).cost d ≤ s.cost d ∧ (s.report a how).links = s.links := by
  cases hw : s.visit? a with
  | none => simp [Timeline.report, hw]
  | some w =>
    obtain ⟨hmem, rfl⟩ := mem_of_visit? hw
    cases hstage : w.stage with
    | gathering n =>
      have hcost := cost_update (g := fun v => { v with stage := .after n how })
          (d := d) hunique hmem
      have hwaited : w.cost d = 2 := by simp [Visit.cost, hstage]
      rw [report_of_gathering hw hstage]
      have hsame : (s.setStage w.folder (.after n how)).cost d =
          (s.update w.folder fun v => { v with stage := .after n how }).cost d := rfl
      split
      · rename_i hgathered
        have hnone : ({ w with stage := .after n how } : Visit).cost d = 0 := by
          cases hafter : Stage.after n how <;> simp_all [Stage.isGathered, Visit.cost]
        refine ⟨?_, links_setStage _⟩
        rw [cost_push, hsame, show Event.cost (.turn w.folder) = 2 from rfl]
        omega
      · rename_i hwaits
        have htwo : ({ w with stage := .after n how } : Visit).cost d = 2 := by
          cases how with
          | done =>
            by_cases hn : n ≤ 1
            · simp [Stage.after, hn, Stage.isGathered] at hwaits
            · simp [Visit.cost, Stage.after, hn]
          | failed e | dropped => simp [Stage.after, Stage.isGathered] at hwaits
        refine ⟨?_, links_setStage _⟩
        rw [hsame]
        omega
    | _ =>
      rw [report_of_not_gathering hw (by simp [hstage, Stage.isGathering])]
      exact ⟨le_refl _, rfl⟩

/-- A call that comes back as time passes takes less than it did. -/
theorem Watched.cost_arrive {call : String × Float} (left : List (String × Float))
    (h : Watched p source active phase { s with running := call :: left }) :
    ({ s with running := left }.arrive call).cost d + 1 ≤ s.cost d := by
  obtain ⟨v, hv, hfolder, hcalling⟩ := h.underway.calling call.1 (by simp)
  have hcost := cost_update (g := fun v => { v with stage := .returned }) (d := d) h.unique hv
  have hprice : 4 ≤ v.cost d := by
    simp only [Visit.cost, hcalling]
    split <;> omega
  have hreturned : ({ v with stage := .returned } : Visit).cost d = 1 := rfl
  rw [Timeline.arrive, cost_push, ← hfolder, show Event.cost (.turn v.folder) = 2 from rfl]
  have hsame : ({ s with running := left }.setStage v.folder .returned).cost d =
      ({ s with running := call :: left }.update v.folder
        fun v => { v with stage := .returned }).cost d := rfl
  have hold : ({ s with running := call :: left } : Timeline).cost d = s.cost d := rfl
  omega

theorem Watched.cost_arrive_all {due left : List (String × Float)}
    (h : Watched p source none phase { s with running := due ++ left }) :
    (due.foldl Timeline.arrive { s with running := left }).cost d + due.length ≤ s.cost d := by
  induction due generalizing s with
  | nil => exact le_refl _
  | cons call rest ih =>
    have hone := h.cost_arrive (d := d) (rest ++ left)
    have hsame : (s.arrive call).cost d =
        ({ s with running := rest ++ left }.arrive call).cost d := rfl
    have hrest : ((call :: rest).foldl Timeline.arrive { s with running := left }).cost d +
        rest.length ≤ (s.arrive call).cost d :=
      ih (s := s.arrive call) (h.arrive (rest ++ left))
    rw [List.length_cons]
    omega

theorem links_arrive_all (due : List (String × Float)) (s : Timeline) :
    (due.foldl arrive s).links = s.links :=
  List.foldlRecOn (motive := fun s' : Timeline => s'.links = s.links) _ _ rfl
    fun _ hs' _ _ => (links_setStage .returned).trans hs'

/-- Every step uses up some of what is left to do. -/
theorem Watched.spends (h : Watched p source none phase s) (hstep : Step p source' s s')
    (hd : 5 ≤ d ∨ 1 ≤ d ∧ Instant source') :
    s'.cost d + 1 + (d + 3) * s.visits.length ≤ s.cost d + (d + 3) * s'.visits.length := by
  cases hstep with
  | @handle e rest hagenda =>
    have hpopped : s.cost d = ({ s with agenda := rest } : Timeline).cost d + e.cost := by
      simp only [cost, hagenda, List.map_cons, List.sum_cons]
      omega
    cases e with
    | report f =>
      rw [show Event.cost (.report f) = 1 from rfl] at hpopped
      have hreported :
          (({ s with agenda := rest } : Timeline).handle p source' (.report f)).cost d ≤
            ({ s with agenda := rest } : Timeline).cost d ∧
          (({ s with agenda := rest } : Timeline).handle p source' (.report f)).links =
            s.links := by
        simp only [handle]
        split
        · exact cost_report (s := { s with agenda := rest }) h.unique _ _
        · exact ⟨le_refl _, rfl⟩
      rw [length_of_links hreported.2]
      omega
    | turn f =>
      rw [show Event.cost (.turn f) = 2 from rfl] at hpopped
      have hturned : Adds d 1 { s with agenda := rest }
          (({ s with agenda := rest } : Timeline).handle p source' (.turn f)) := by
        simp only [handle]
        split
        · rename_i v hvisit
          exact (h.begin hagenda).adds_turn (mem_of_visit? hvisit).1 hd
        · exact .of_cost (by omega) rfl
      unfold Adds at hturned
      rw [show ({ s with agenda := rest } : Timeline).visits.length =
        s.visits.length from rfl] at hturned
      omega
  | @elapse now due left hperm hdue =>
    have hcost := Watched.cost_arrive_all (s := { s with now := now }) (d := d)
      (h.of_running now hperm)
    have hlinks : (s.elapse now due left).links = s.links := links_arrive_all due _
    have hpos := List.length_pos_iff.mpr hdue
    have hcost' : (s.elapse now due left).cost d + due.length ≤ s.cost d := hcost
    rw [length_of_links hlinks]
    omega

end Depot.Listing.Timeline
