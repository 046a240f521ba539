import Depot.Listing.Timeline
import Mathlib.Algebra.GroupWithZero.Nat
import Mathlib.Data.List.Count
import Mathlib.Data.List.Nodup
import Mathlib.Logic.Function.Basic
import Mathlib.Tactic.Tauto

/-!
The books of a listing that meets no failure. Every visit plays a role, which is
finer than its stage: in the middle of a turn a permit may be in hand, and the end
of a visit may or may not have been reported. The roles account for every event on
the agenda, every place in the line, every running call and every permit.
-/
namespace Depot.Listing.Timeline

inductive Role
  | absent
  | fresh
  | queued
  | granted
  /-- A permit is in hand and the turn goes on. -/
  | entering
  | calling
  | returned
  /-- The permit was given back and the turn goes on. -/
  | leaving
  | gathering (unreported : Nat)
  | gathered
  /-- The visits below are over and the turn goes on. -/
  | closing
  | ended (reported : Bool)
  deriving DecidableEq

namespace Role

def turns : Role → Nat
  | fresh | granted | returned | gathered => 1
  | _ => 0

def reports : Role → Nat
  | ended false => 1
  | _ => 0

def places : Role → Nat
  | queued | granted => 1
  | _ => 0

def calls : Role → Nat
  | calling => 1
  | _ => 0

def permits : Role → Nat
  | granted | entering | calling | returned => 1
  | _ => 0

def progress : Role → Nat
  | absent | fresh => 0
  | queued | granted | entering => 1
  | calling => 2
  | returned | leaving => 3
  | gathering _ | gathered | closing => 4
  | ended false => 5
  | ended true => 6

/-- The stage that goes with a role; in the middle of a turn any stage but one in line. -/
def Fits (r : Role) (stage : Stage) : Prop :=
  match r with
  | absent => False
  | fresh => stage = .fresh
  | queued => stage = .queued
  | granted => stage = .granted
  | calling => stage = .calling
  | returned => stage = .returned
  | gathering n => stage = .gathering n
  | gathered => stage = .gathered .done
  | ended _ => stage = .over .done
  | entering | leaving | closing => stage ≠ .queued

theorem progress_le (r : Role) : r.progress ≤ 6 := by
  cases r with
  | ended reported => cases reported <;> simp [progress]
  | _ => simp [progress]

end Role

def links (s : Timeline) : List (String × Option String) :=
  s.visits.map fun v => (v.folder, v.above)

def folders (s : Timeline) : List String := s.visits.map (·.folder)

theorem folders_eq (s : Timeline) : s.folders = s.links.map Prod.fst := by
  simp [folders, links]

/-- Two weightings of a list that agree but at one key. -/
theorem sum_map_swap {α : Type} {k : α → String} {l : List α} (hnodup : (l.map k).Nodup)
    {x : α} (hx : x ∈ l) {u w : α → Nat} (hagree : ∀ y ∈ l, k y ≠ k x → u y = w y) :
    (l.map u).sum + w x = (l.map w).sum + u x := by
  induction l with
  | nil => simp at hx
  | cons y rest ih =>
    simp only [List.map_cons, List.nodup_cons] at hnodup
    simp only [List.map_cons, List.sum_cons]
    rcases List.mem_cons.mp hx with rfl | hx
    · have hrest : rest.map u = rest.map w := by
        apply List.map_congr_left
        intro z hz
        apply hagree z (List.mem_cons_of_mem _ hz)
        intro hkey
        exact hnodup.1 (hkey ▸ List.mem_map_of_mem hz)
      rw [hrest]
      omega
    · have hne : k y ≠ k x := by
        intro hkey
        exact hnodup.1 (hkey ▸ List.mem_map_of_mem hx)
      have htail := ih hnodup.2 hx fun z hz => hagree z (List.mem_cons_of_mem _ hz)
      have hhead := hagree y List.mem_cons_self hne
      omega

structure Ledger (p : Plan) (roles : String → Role) (s : Timeline) : Prop where
  unique : s.folders.Nodup
  absent : ∀ f, roles f = .absent ↔ f ∉ s.folders
  fits : ∀ v ∈ s.visits, v.cancelled = false ∧ (roles v.folder).Fits v.stage
  turns : ∀ f, s.agenda.count (.turn f) = (roles f).turns
  reports : ∀ f, s.agenda.count (.report f) = (roles f).reports
  line : ∀ f, s.line.count f = (roles f).places
  running : ∀ f, (s.running.map Prod.fst).count f = (roles f).calls
  permits : s.permits + (s.folders.map fun f => (roles f).permits).sum = p.options.threads

/-- Nobody waits while a permit is free, unless one who was granted it is about to act. -/
def Served (roles : String → Role) (s : Timeline) : Prop :=
  (∃ f, roles f = .queued) → s.permits = 0 ∨ ∃ f, roles f = .granted

variable {p : Plan} {roles : String → Role} {s s' : Timeline} {f : String} {r : Role}

/-- What a visit that goes from one role to another adds to the books and takes from them. -/
structure Balanced (old new : Role) (f : String) (s s' : Timeline) : Prop where
  turns : ∀ g, s'.agenda.count (.turn g) + (if g = f then old.turns else 0) =
    s.agenda.count (.turn g) + if g = f then new.turns else 0
  reports : ∀ g, s'.agenda.count (.report g) + (if g = f then old.reports else 0) =
    s.agenda.count (.report g) + if g = f then new.reports else 0
  line : ∀ g, s'.line.count g + (if g = f then old.places else 0) =
    s.line.count g + if g = f then new.places else 0
  running : ∀ g, (s'.running.map Prod.fst).count g + (if g = f then old.calls else 0) =
    (s.running.map Prod.fst).count g + if g = f then new.calls else 0
  permits : s'.permits + new.permits = s.permits + old.permits

/-- A count that follows a weight of the roles still does after one change of both. -/
private theorem follows_update {w : Role → Nat} {c c' : String → Nat}
    (hold : ∀ g, c g = w (roles g))
    (hc : ∀ g, c' g + (if g = f then w (roles f) else 0) = c g + if g = f then w r else 0)
    (g : String) : c' g = w (Function.update roles f r g) := by
  have hg := hc g
  have hwas := hold g
  by_cases hgf : g = f
  · subst hgf
    simp only [if_true] at hg
    simp only [Function.update_self]
    omega
  · simp only [hgf, if_false] at hg
    simp only [Function.update_of_ne hgf]
    omega

theorem folders_setStage (stage : Stage) : (s.setStage f stage).folders = s.folders := by
  simp only [folders, setStage, update, List.map_map]
  apply List.map_congr_left
  intro v _
  simp only [Function.comp_apply]
  split <;> rfl

theorem links_setStage (stage : Stage) : (s.setStage f stage).links = s.links := by
  simp only [links, setStage, update, List.map_map]
  apply List.map_congr_left
  intro v _
  simp only [Function.comp_apply]
  split <;> rfl

theorem mem_setStage {stage : Stage} {v : Visit} (hv : v ∈ (s.setStage f stage).visits) :
    (v.folder ≠ f ∧ v ∈ s.visits) ∨
      (v.folder = f ∧ v.stage = stage ∧ ∃ w ∈ s.visits, w.folder = f ∧
        w.cancelled = v.cancelled) := by
  obtain ⟨w, hw, rfl⟩ := List.mem_map.mp hv
  by_cases hwf : w.folder = f
  · rw [if_pos hwf]
    exact Or.inr ⟨hwf, rfl, w, hw, hwf, rfl⟩
  · rw [if_neg hwf]
    exact Or.inl ⟨hwf, hw⟩

namespace Ledger

theorem mem_folders (h : Ledger p roles s) (hf : roles f ≠ .absent) : f ∈ s.folders := by
  by_contra hnot
  exact hf ((h.absent f).mpr hnot)

/-- One visit changes its role; all else that the books count stays in balance. -/
theorem change (h : Ledger p roles s) (hf : roles f ≠ .absent) (hr : r ≠ .absent)
    (hfolders : s'.folders = s.folders)
    (hold : ∀ v ∈ s'.visits, v.folder ≠ f → v ∈ s.visits)
    (hnew : ∀ v ∈ s'.visits, v.folder = f → v.cancelled = false ∧ r.Fits v.stage)
    (hbalance : Balanced (roles f) r f s s') : Ledger p (Function.update roles f r) s' where
  unique := hfolders ▸ h.unique
  absent g := by
    by_cases hg : g = f
    · subst hg
      simp [hr, hfolders, h.mem_folders hf]
    · simp [hg, hfolders, h.absent g]
  fits v hv := by
    by_cases hvf : v.folder = f
    · simpa [hvf] using hnew v hv hvf
    · simpa [hvf] using h.fits v (hold v hv hvf)
  turns := follows_update h.turns hbalance.turns
  reports := follows_update h.reports hbalance.reports
  line := follows_update h.line hbalance.line
  running := follows_update h.running hbalance.running
  permits := by
    have hsum := sum_map_swap (k := id) (l := s.folders) (by simpa using h.unique)
      (h.mem_folders hf) (u := fun g => (Function.update roles f r g).permits)
      (w := fun g => (roles g).permits) (by
        intro g _ hg
        simp [show g ≠ f from hg])
    have hwas := h.permits
    have hnow := hbalance.permits
    rw [hfolders]
    simp only [Function.update_self] at hsum
    omega

/-- A role that changes together with the stage. -/
theorem restage (h : Ledger p roles s) (stage : Stage) (hf : roles f ≠ .absent)
    (hvisits : s'.visits = (s.setStage f stage).visits) (hr : r ≠ .absent) (hfit : r.Fits stage)
    (hbalance : Balanced (roles f) r f s s') : Ledger p (Function.update roles f r) s' := by
  have hfolders : s'.folders = s.folders := by
    rw [← folders_setStage (s := s) (f := f) stage, folders, hvisits, folders]
  refine h.change hf hr hfolders ?_ ?_ hbalance
  · intro v hv hvf
    rcases mem_setStage (hvisits ▸ hv) with ⟨-, hmem⟩ | ⟨heq, -⟩
    · exact hmem
    · exact absurd heq hvf
  · intro v hv hvf
    rcases mem_setStage (hvisits ▸ hv) with ⟨hne, -⟩ | ⟨-, hstage, w, hw, -, hcancelled⟩
    · exact absurd hvf hne
    · exact ⟨hcancelled ▸ (h.fits w hw).1, hstage ▸ hfit⟩

/-- A role that changes while the stage stays. -/
theorem retag (h : Ledger p roles s) (hf : roles f ≠ .absent) (hvisits : s'.visits = s.visits)
    (hr : r ≠ .absent) (hfit : ∀ stage, (roles f).Fits stage → r.Fits stage)
    (hbalance : Balanced (roles f) r f s s') : Ledger p (Function.update roles f r) s' := by
  refine h.change hf hr (by rw [folders, hvisits, folders]) (fun v hv _ => hvisits ▸ hv) ?_ hbalance
  intro v hv hvf
  have hold := h.fits v (hvisits ▸ hv)
  exact ⟨hold.1, hfit v.stage (hvf ▸ hold.2)⟩

variable {rest : List Event}

/-- A turn that leads into the line. -/
theorem enqueue (h : Ledger p roles s) (hf : roles f = .fresh)
    (hagenda : s.agenda = .turn f :: rest) :
    Ledger p (Function.update roles f .queued)
      { { s with agenda := rest }.setStage f .queued with line := s.line ++ [f] } := by
  refine h.restage .queued (by simp [hf]) rfl (by simp) rfl ⟨?_, ?_, ?_, ?_, ?_⟩
  · intro g
    by_cases hg : g = f
    all_goals simp [setStage, update, hf, hagenda, Role.turns, hg, Ne.symm]
  · simp [setStage, update, hf, hagenda, Role.reports]
  · intro g
    by_cases hg : g = f
    all_goals simp [hf, Role.places, List.count_append, hg, Ne.symm]
  · simp [setStage, update, hf, Role.calls]
  · simp [setStage, update, hf, Role.permits]

/-- A turn that takes a permit nobody waits for. -/
theorem take (h : Ledger p roles s) (hf : roles f = .fresh)
    (hagenda : s.agenda = .turn f :: rest) (hpermits : 0 < s.permits) :
    Ledger p (Function.update roles f .entering)
      { s with agenda := rest, permits := s.permits - 1 } := by
  refine h.retag (by simp [hf]) rfl (by simp) ?_ ⟨?_, ?_, ?_, ?_, ?_⟩
  · intro stage hstage
    simp only [hf, Role.Fits] at hstage ⊢
    simp [hstage]
  · intro g
    by_cases hg : g = f
    all_goals simp [hf, hagenda, Role.turns, hg, Ne.symm]
  · simp [hf, hagenda, Role.reports]
  · simp [hf, Role.places]
  · simp [hf, Role.calls]
  · simp only [hf, Role.permits]
    omega

/-- A turn that comes with a permit. -/
theorem step (h : Ledger p roles s) (hf : roles f = .granted)
    (hagenda : s.agenda = .turn f :: rest) :
    Ledger p (Function.update roles f .entering) ({ s with agenda := rest }.leaveLine f) := by
  refine h.retag (by simp [hf]) rfl (by simp) ?_ ⟨?_, ?_, ?_, ?_, ?_⟩
  · intro stage hstage
    simp only [hf, Role.Fits] at hstage ⊢
    simp [hstage]
  · intro g
    by_cases hg : g = f
    all_goals simp [leaveLine, hf, hagenda, Role.turns, hg, Ne.symm]
  · simp [leaveLine, hf, hagenda, Role.reports]
  · intro g
    have hplace := h.line f
    by_cases hg : g = f
    · subst hg
      simp only [hf, Role.places] at hplace
      simp [leaveLine, hf, Role.places, hplace]
    · simp [leaveLine, hg, List.count_erase_of_ne hg]
  · simp [leaveLine, hf, Role.calls]
  · simp [leaveLine, hf, Role.permits]

/-- The turn after a call. -/
theorem resumed (h : Ledger p roles s) (hf : roles f = .returned)
    (hagenda : s.agenda = .turn f :: rest) :
    Ledger p (Function.update roles f .entering) { s with agenda := rest } := by
  refine h.retag (by simp [hf]) rfl (by simp) ?_ ⟨?_, ?_, ?_, ?_, ?_⟩
  · intro stage hstage
    simp only [hf, Role.Fits] at hstage ⊢
    simp [hstage]
  · intro g
    by_cases hg : g = f
    all_goals simp [hf, hagenda, Role.turns, hg, Ne.symm]
  · simp [hf, hagenda, Role.reports]
  · simp [hf, Role.places]
  · simp [hf, Role.calls]
  · simp [hf, Role.permits]

/-- The turn after the last report. -/
theorem close (h : Ledger p roles s) (hf : roles f = .gathered)
    (hagenda : s.agenda = .turn f :: rest) :
    Ledger p (Function.update roles f .closing) { s with agenda := rest } := by
  refine h.retag (by simp [hf]) rfl (by simp) ?_ ⟨?_, ?_, ?_, ?_, ?_⟩
  · intro stage hstage
    simp only [hf, Role.Fits] at hstage ⊢
    simp [hstage]
  · intro g
    by_cases hg : g = f
    all_goals simp [hf, hagenda, Role.turns, hg, Ne.symm]
  · simp [hf, hagenda, Role.reports]
  · simp [hf, Role.places]
  · simp [hf, Role.calls]
  · simp [hf, Role.permits]

theorem grant (h : Ledger p roles s) (hf : roles f = .queued) (hpermits : 0 < s.permits) :
    Ledger p (Function.update roles f .granted)
      (({ s with permits := s.permits - 1 }.setStage f .granted).push (.turn f)) := by
  refine h.restage .granted (by simp [hf]) rfl (by simp) rfl ⟨?_, ?_, ?_, ?_, ?_⟩
  · intro g
    by_cases hg : g = f
    all_goals simp [push, setStage, update, hf, Role.turns, List.count_append, hg, Ne.symm]
  · simp [push, setStage, update, hf, Role.reports, List.count_append]
  · simp [push, setStage, update, hf, Role.places]
  · simp [push, setStage, update, hf, Role.calls]
  · simp only [push, setStage, update, hf, Role.permits]
    omega

/-- A permit is given back within a turn. -/
theorem giveBack (h : Ledger p roles s) (hf : roles f = .entering) :
    Ledger p (Function.update roles f .leaving) { s with permits := s.permits + 1 } := by
  refine h.retag (by simp [hf]) rfl (by simp) ?_ ⟨?_, ?_, ?_, ?_, ?_⟩
  · intro stage hstage
    simp only [hf, Role.Fits] at hstage ⊢
    simp [hstage]
  all_goals simp [hf, Role.turns, Role.reports, Role.places, Role.calls, Role.permits]

theorem suspend (h : Ledger p roles s) (hf : roles f = .entering) (ending : Float) :
    Ledger p (Function.update roles f .calling)
      { s.setStage f .calling with running := s.running ++ [(f, ending)] } := by
  refine h.restage .calling (by simp [hf]) rfl (by simp) rfl ⟨?_, ?_, ?_, ?_, ?_⟩
  · simp [setStage, update, hf, Role.turns]
  · simp [setStage, update, hf, Role.reports]
  · simp [setStage, update, hf, Role.places]
  · intro g
    by_cases hg : g = f
    all_goals simp [hf, Role.calls, List.count_append, hg, Ne.symm]
  · simp [setStage, update, hf, Role.permits]

/-- A call that comes back as time passes. -/
theorem comeBack {call : String × Float} {left : List (String × Float)}
    (h : Ledger p roles { s with running := call :: left }) (hf : roles call.1 = .calling) :
    Ledger p (Function.update roles call.1 .returned)
      { (s.setStage call.1 .returned).push (.turn call.1) with running := left } := by
  refine h.restage .returned (by simp [hf]) rfl (by simp) rfl ⟨?_, ?_, ?_, ?_, ?_⟩
  · intro g
    by_cases hg : g = call.1
    all_goals simp [push, setStage, update, hf, Role.turns, List.count_append, hg, Ne.symm]
  · simp [push, setStage, update, hf, Role.reports, List.count_append]
  · simp [push, setStage, update, hf, Role.places]
  · intro g
    by_cases hg : g = call.1
    all_goals simp [hf, Role.calls, hg, Ne.symm]
  · simp [push, setStage, update, hf, Role.permits]

theorem gather (h : Ledger p roles s) (hf : roles f = .leaving) (n : Nat) :
    Ledger p (Function.update roles f (.gathering n)) (s.setStage f (.gathering n)) := by
  refine h.restage (.gathering n) (by simp [hf]) rfl (by simp) rfl ⟨?_, ?_, ?_, ?_, ?_⟩
  all_goals
    simp [setStage, update, hf, Role.turns, Role.reports, Role.places, Role.calls, Role.permits]

theorem countDown (h : Ledger p roles s) {n m : Nat} (hf : roles f = .gathering n) :
    Ledger p (Function.update roles f (.gathering m)) (s.setStage f (.gathering m)) := by
  refine h.restage (.gathering m) (by simp [hf]) rfl (by simp) rfl ⟨?_, ?_, ?_, ?_, ?_⟩
  all_goals
    simp [setStage, update, hf, Role.turns, Role.reports, Role.places, Role.calls, Role.permits]

theorem gathered (h : Ledger p roles s) {n : Nat} (hf : roles f = .gathering n) :
    Ledger p (Function.update roles f .gathered)
      ((s.setStage f (.gathered .done)).push (.turn f)) := by
  refine h.restage (.gathered .done) (by simp [hf]) rfl (by simp) rfl
    ⟨?_, ?_, ?_, ?_, ?_⟩
  · intro g
    by_cases hg : g = f
    all_goals simp [push, setStage, update, hf, Role.turns, List.count_append, hg, Ne.symm]
  all_goals
    simp [push, setStage, update, hf, Role.reports, Role.places, Role.calls, Role.permits,
      List.count_append]

theorem reported (h : Ledger p roles s) (hf : roles f = .ended false)
    (hagenda : s.agenda = .report f :: rest) :
    Ledger p (Function.update roles f (.ended true)) { s with agenda := rest } := by
  refine h.retag (by simp [hf]) rfl (by simp) ?_ ⟨?_, ?_, ?_, ?_, ?_⟩
  · intro stage hstage
    simpa only [hf, Role.Fits] using hstage
  · simp [hf, hagenda, Role.turns]
  · intro g
    by_cases hg : g = f
    all_goals simp [hf, hagenda, Role.reports, hg, Ne.symm]
  all_goals simp [hf, Role.places, Role.calls, Role.permits]

/-- The end of a visit, which is reported unless it is the first. -/
theorem finish (h : Ledger p roles s) {v : Visit}
    (hv : roles v.folder = .leaving ∨ roles v.folder = .closing) :
    Ledger p (Function.update roles v.folder (.ended v.above.isNone)) (s.finish v .done) := by
  have hold : roles v.folder ≠ .absent := by
    rcases hv with hv | hv <;> simp [hv]
  cases habove : v.above with
  | none =>
    simp only [Timeline.finish, habove, Option.isSome_none, Option.isNone_none]
    refine h.restage (.over .done) hold rfl (by simp) rfl ⟨?_, ?_, ?_, ?_, ?_⟩
    all_goals
      rcases hv with hv | hv
      all_goals simp [setStage, update, hv, Role.turns, Role.reports, Role.places, Role.calls,
        Role.permits]
  | some above =>
    simp only [Timeline.finish, habove, Option.isSome_some, Option.isNone_some, if_true]
    refine h.restage (.over .done) hold rfl (by simp) rfl ⟨?_, ?_, ?_, ?_, ?_⟩
    · rcases hv with hv | hv
      all_goals simp [push, setStage, update, hv, Role.turns, List.count_append]
    · intro g
      by_cases hg : g = v.folder
      all_goals
        rcases hv with hv | hv
        all_goals simp [push, setStage, update, hv, Role.reports, List.count_append, hg, Ne.symm]
    all_goals
      rcases hv with hv | hv
      all_goals simp [push, setStage, update, hv, Role.places, Role.calls, Role.permits]

/-- New visits with their first turns on the agenda. -/
theorem extend (h : Ledger p roles s) {found : List String} (hnodup : found.Nodup)
    (hnew : ∀ g ∈ found, g ∉ s.folders) (above : Option String) :
    Ledger p (fun g => if g ∈ found then .fresh else roles g)
      { s with
        visits := s.visits ++ found.map fun g => ⟨g, above, .fresh, false⟩
        agenda := s.agenda ++ found.map .turn } := by
  have habsent : ∀ g ∈ found, roles g = .absent := fun g hg => (h.absent g).mpr (hnew g hg)
  have hfolders : (s.visits ++ found.map fun g => (⟨g, above, .fresh, false⟩ : Visit)).map
      (·.folder) = s.folders ++ found := by
    simp [folders, List.map_map, Function.comp_def]
  refine ⟨?_, ?_, ?_, ?_, ?_, ?_, ?_, ?_⟩
  · rw [folders, hfolders, List.nodup_append]
    exact ⟨h.unique, hnodup, fun a ha b hb hab => hnew b hb (hab ▸ ha)⟩
  · intro g
    rw [folders, hfolders, List.mem_append]
    by_cases hg : g ∈ found
    · simp [hg]
    · simp [hg, h.absent g]
  · intro v hv
    rcases List.mem_append.mp hv with hv | hv
    · have hold : v.folder ∉ found := fun hmem => hnew _ hmem (List.mem_map_of_mem hv)
      simpa [hold] using h.fits v hv
    · obtain ⟨g, hg, rfl⟩ := List.mem_map.mp hv
      simp [hg, Role.Fits]
  · intro g
    have hturn : Function.Injective Event.turn := fun a b hab => Event.turn.inj hab
    rw [List.count_append, h.turns, List.count_map_of_injective _ _ hturn]
    by_cases hg : g ∈ found
    · simp [hg, habsent g hg, List.count_eq_one_of_mem hnodup hg, Role.turns]
    · simp [hg, List.count_eq_zero_of_not_mem hg]
  · intro g
    have hreport : Event.report g ∉ found.map Event.turn := by simp
    rw [List.count_append, h.reports, List.count_eq_zero_of_not_mem hreport]
    by_cases hg : g ∈ found
    · simp [hg, habsent g hg, Role.reports]
    · simp [hg]
  · intro g
    by_cases hg : g ∈ found
    · simp [hg, h.line, habsent g hg, Role.places]
    · simp [hg, h.line]
  · intro g
    by_cases hg : g ∈ found
    · simp [hg, h.running, habsent g hg, Role.calls]
    · simp [hg, h.running]
  · have hleft : (s.folders.map fun g => (if g ∈ found then Role.fresh else roles g).permits) =
        s.folders.map fun g => (roles g).permits := by
      apply List.map_congr_left
      intro g hg
      rw [if_neg fun hmem => hnew g hmem hg]
    have hright : (found.map fun g => (if g ∈ found then Role.fresh else roles g).permits).sum =
        0 := by
      apply List.sum_eq_zero_iff_forall_eq_nat.mpr
      intro n hn
      obtain ⟨g, hg, rfl⟩ := List.mem_map.mp hn
      rw [if_pos hg]
      rfl
    rw [folders, hfolders, List.map_append, List.sum_append, hleft, hright]
    simpa using h.permits

end Ledger

theorem visit?_of_mem (hunique : s.folders.Nodup) {v : Visit} (hv : v ∈ s.visits) :
    s.visit? v.folder = some v := by
  obtain ⟨w, hw⟩ : ∃ w, s.visit? v.folder = some w := by
    apply Option.isSome_iff_exists.mp
    rw [visit?, List.find?_isSome]
    exact ⟨v, hv, by simp⟩
  have hmem : w ∈ s.visits := List.mem_of_find?_eq_some hw
  have hfolder : w.folder = v.folder := by simpa using List.find?_some hw
  have hsame : w = v := List.inj_on_of_nodup_map hunique hmem hv hfolder
  rw [hw, hsame]

theorem mem_of_visit? {v : Visit} (hv : s.visit? f = some v) : v ∈ s.visits ∧ v.folder = f :=
  ⟨List.mem_of_find?_eq_some hv, by simpa using List.find?_some hv⟩

theorem visit?_setStage (stage : Stage) {g : String} :
    (s.setStage f stage).visit? g =
      if g = f then (s.visit? f).map fun v => { v with stage := stage } else s.visit? g := by
  simp only [visit?, setStage, update, List.find?_map]
  have hsame : ((fun v : Visit => decide (v.folder = g)) ∘ fun v : Visit =>
      if v.folder = f then { v with stage := stage } else v) =
      fun v : Visit => decide (v.folder = g) := by
    funext v
    simp only [Function.comp_apply]
    split <;> rfl
  rw [hsame]
  cases hfind : s.visits.find? fun v => decide (v.folder = g) with
  | none =>
    by_cases hg : g = f
    · subst hg
      simp [hfind]
    · simp [hg]
  | some v =>
    have hv : v.folder = g := by simpa using List.find?_some hfind
    by_cases hg : g = f
    · subst hg
      simp [hfind, hv]
    · simp [hg, hv]

namespace Ledger

/-- The visit behind a role. -/
theorem visit (h : Ledger p roles s) (hf : roles f ≠ .absent) :
    ∃ v ∈ s.visits, v.folder = f ∧ s.visit? f = some v := by
  obtain ⟨v, hv, rfl⟩ := List.mem_map.mp (h.mem_folders hf)
  exact ⟨v, hv, rfl, visit?_of_mem h.unique hv⟩

theorem isQueued_iff (h : Ledger p roles s) {g : String} :
    ((s.visit? g).any isQueued) = true ↔ roles g = .queued := by
  constructor
  · intro hany
    obtain ⟨v, hv, hqueued⟩ := (Option.any_eq_true _ _).mp hany
    obtain ⟨hmem, rfl⟩ := mem_of_visit? hv
    have hfits := (h.fits v hmem).2
    cases hrole : roles v.folder with
    | queued => rfl
    | _ => simp_all [Role.Fits, isQueued]
  · intro hrole
    obtain ⟨v, hmem, rfl, hv⟩ := h.visit (f := g) (by simp [hrole])
    have hfits := h.fits v hmem
    simp only [hrole, Role.Fits] at hfits
    simp [hv, isQueued, hfits]

theorem mustQueue_eq_false (h : Ledger p roles s) (hmust : s.mustQueue = false) :
    0 < s.permits ∧ ∀ g, roles g ≠ .queued ∧ roles g ≠ .granted := by
  simp only [mustQueue, Bool.or_eq_false_iff, decide_eq_false_iff_not, List.any_eq_false] at hmust
  refine ⟨by omega, fun g => ?_⟩
  by_contra hnot
  have hplace : (roles g).places = 1 := by
    rcases (by tauto : roles g = .queued ∨ roles g = .granted) with hg | hg <;> rw [hg] <;> rfl
  have hline : g ∈ s.line := by
    apply List.count_pos_iff.mp
    rw [h.line, hplace]
    exact Nat.one_pos
  obtain ⟨v, hmem, rfl, hv⟩ := h.visit (f := g) (by intro habs; simp [habs, Role.places] at hplace)
  have hfits := h.fits v hmem
  have hnone := hmust.2 v.folder hline
  rw [hv] at hnone
  rcases (by tauto : roles v.folder = .queued ∨ roles v.folder = .granted) with hg | hg
  all_goals
    simp only [hg, Role.Fits] at hfits
    simp [hfits] at hnone

theorem mustQueue_eq_true (h : Ledger p roles s) (hmust : s.mustQueue = true) :
    s.permits = 0 ∨ ∃ g, roles g = .queued ∨ roles g = .granted := by
  simp only [mustQueue, Bool.or_eq_true, decide_eq_true_eq, List.any_eq_true] at hmust
  rcases hmust with hnone | ⟨g, hline, -⟩
  · exact Or.inl hnone
  · refine Or.inr ⟨g, ?_⟩
    have hplace : 0 < (roles g).places := by
      rw [← h.line]
      exact List.count_pos_iff.mpr hline
    cases hg : roles g <;> simp_all [Role.places]

/-- The first in line who has no permit gets one; whoever else was queued has others before. -/
theorem wakeNext (h : Ledger p roles s) (hpermits : 0 < s.permits) :
    ∃ roles', Ledger p roles' s.wakeNext ∧ Served roles' s.wakeNext ∧
      ∀ g, roles' g = roles g ∨ roles g = .queued ∧ roles' g = .granted := by
  unfold Timeline.wakeNext
  cases hfind : s.line.find? fun folder => (s.visit? folder).any isQueued with
  | none =>
    refine ⟨roles, h, ?_, fun g => Or.inl rfl⟩
    rintro ⟨g, hg⟩
    exfalso
    have hplace : 0 < s.line.count g := by
      rw [h.line, hg]
      exact Nat.one_pos
    exact List.find?_eq_none.mp hfind g (List.count_pos_iff.mp hplace) (h.isQueued_iff.mpr hg)
  | some g =>
    have hany : (s.visit? g).any isQueued = true := by
      simpa using List.find?_some hfind
    have hg : roles g = .queued := h.isQueued_iff.mp hany
    refine ⟨Function.update roles g .granted, h.grant hg hpermits, ?_, ?_⟩
    · intro _
      exact Or.inr ⟨g, Function.update_self ..⟩
    · intro f
      by_cases hf : f = g
      · subst hf
        exact Or.inr ⟨hg, Function.update_self ..⟩
      · exact Or.inl (Function.update_of_ne hf ..)

end Ledger

@[simp] theorem traversal_wakeNext : s.wakeNext.traversal = s.traversal := by
  unfold wakeNext
  split <;> rfl

@[simp] theorem links_wakeNext : s.wakeNext.links = s.links := by
  unfold wakeNext
  split
  · exact links_setStage .granted
  · rfl

@[simp] theorem traversal_release : s.release.traversal = s.traversal := traversal_wakeNext

@[simp] theorem links_release : s.release.links = s.links := links_wakeNext

end Depot.Listing.Timeline
