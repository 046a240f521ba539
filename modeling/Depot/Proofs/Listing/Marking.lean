import Depot.Proofs.Listing.Turn

/-!
How visits are given up. A cancelled visit is marked, and if it is at rest it gets a turn
in which to end; one that waits for others below it hands the cancellation on to them. Only
marks and turns come of it: no visit comes to be, and none changes its stage.
-/
namespace Depot.Listing.Timeline

inductive Beneath (links : List Link) (P : String → Prop) : String → Prop
  | child {f a : String} (hf : (f, some a) ∈ links) (ha : P a) : Beneath links P f
  | further {f a : String} (hf : (f, some a) ∈ links) (ha : Beneath links P a) : Beneath links P f

theorem Beneath.mono {links links' : List Link} {P P' : String → Prop} {f : String}
    (h : Beneath links P f) (hlinks : ∀ l ∈ links, l ∈ links') (hP : ∀ g, P g → P' g) :
    Beneath links' P' f := by
  induction h with
  | child hf ha => exact .child (hlinks _ hf) (hP _ ha)
  | further hf _ ih => exact .further (hlinks _ hf) ih

def mark (s : Timeline) (folder : String) : Timeline :=
  s.update folder fun v => { v with cancelled := true }

def shape (s : Timeline) : List (String × Option String × Stage) :=
  s.visits.map fun v => (v.folder, v.above, v.stage)

def Stage.isIdle : Stage → Bool
  | .queued | .calling => true
  | _ => false

def Stage.isDue : Stage → Bool
  | .fresh | .granted | .returned | .gathering _ | .gathered _ => true
  | _ => false

variable {s s' : Timeline} {f g : String} {v : Visit}

theorem links_of_shape (h : s'.shape = s.shape) : s'.links = s.links := by
  have hfirst := congrArg (List.map fun x => (x.1, x.2.1)) h
  simpa [shape, links, List.map_map, Function.comp_def] using hfirst

@[simp] theorem shape_mark (folder : String) : (s.mark folder).shape = s.shape := by
  simp only [shape, mark, update, List.map_map]
  apply List.map_congr_left
  intro v _
  simp only [Function.comp_apply]
  split <;> rfl

@[simp] theorem shape_push (e : Event) : (s.push e).shape = s.shape := rfl

theorem mem_below : g ∈ s.below f ↔ (g, some f) ∈ s.links := by
  simp only [below, links, List.mem_map, List.mem_filter, decide_eq_true_eq]
  constructor
  · rintro ⟨v, ⟨hv, habove⟩, rfl⟩
    exact ⟨v, hv, by rw [habove]⟩
  · rintro ⟨v, hv, heq⟩
    obtain ⟨rfl, habove⟩ := Prod.mk.inj heq
    exact ⟨v, ⟨hv, habove⟩, rfl⟩

/-- The visit that stands where one stood before. -/
theorem exists_of_shape (h : s'.shape = s.shape) (hv : v ∈ s.visits) :
    ∃ w ∈ s'.visits, w.folder = v.folder ∧ w.above = v.above ∧ w.stage = v.stage := by
  have hmem : (v.folder, v.above, v.stage) ∈ s'.shape := h ▸ List.mem_map_of_mem hv
  obtain ⟨w, hw, heq⟩ := List.mem_map.mp hmem
  simp only [Prod.mk.injEq] at heq
  exact ⟨w, hw, heq⟩

theorem visit?_of_shape (h : s'.shape = s.shape) (hv : s.visit? f = some v) :
    ∃ w, s'.visit? f = some w ∧ w.stage = v.stage := by
  have hfind : ∀ s : Timeline, (s.visit? f).map (fun v => (v.folder, v.above, v.stage)) =
      s.shape.find? fun x => decide (x.1 = f) := by
    intro s
    rw [shape, List.find?_map]
    rfl
  have hsame := (hfind s').trans ((congrArg (List.find? _) h).trans (hfind s).symm)
  rw [hv, Option.map_some, Option.map_eq_some_iff] at hsame
  obtain ⟨w, hw, heq⟩ := hsame
  simp only [Prod.mk.injEq] at heq
  exact ⟨w, hw, heq.2.2⟩

def cancelAll (fuel : Nat) (folders : List String) (s : Timeline) : Timeline :=
  folders.foldl (fun s child => (cancel fuel child s).2) s

theorem snd_foldl_cancel (fuel : Nat) (folders : List String) (hit : Bool) (s : Timeline) :
    (folders.foldl (fun (any, s) child =>
      let (hit, s) := cancel fuel child s
      (any || hit, s)) (hit, s)).2 = cancelAll fuel folders s := by
  induction folders generalizing hit s with
  | nil => rfl
  | cons child rest ih =>
    rw [List.foldl_cons]
    exact ih _ _

/-- All that the cancellation of one visit can do. -/
theorem cancel_cases (fuel : Nat) (folder : String) (s : Timeline) :
    (cancel (fuel + 1) folder s).2 = s ∨
    (∃ v, s.visit? folder = some v ∧ v.stage.isDue = true ∧
      (cancel (fuel + 1) folder s).2 = s.mark folder) ∨
    (∃ v, s.visit? folder = some v ∧ v.stage.isIdle = true ∧ v.cancelled = false ∧
      (cancel (fuel + 1) folder s).2 = (s.mark folder).push (.turn folder)) ∨
    (∃ v n, s.visit? folder = some v ∧ v.stage = .gathering n ∧
      ((cancel (fuel + 1) folder s).2 = cancelAll fuel (s.below folder) s ∨
        (cancel (fuel + 1) folder s).2 = (cancelAll fuel (s.below folder) s).mark folder)) := by
  rw [cancel]
  cases hvisit : s.visit? folder with
  | none => exact Or.inl rfl
  | some v =>
    cases hstage : v.stage with
    | «over» how => exact Or.inl (by simp only [hstage])
    | queued | calling =>
      cases hcancelled : v.cancelled with
      | true => exact Or.inl (by simp [hstage, hcancelled])
      | false =>
        refine Or.inr (Or.inr (Or.inl ⟨v, rfl, by simp [hstage, Stage.isIdle], hcancelled, ?_⟩))
        simp only [hstage, hcancelled, Bool.false_eq_true, if_false]
        rfl
    | gathering n =>
      refine Or.inr (Or.inr (Or.inr ⟨v, n, rfl, hstage, ?_⟩))
      rw [← snd_foldl_cancel fuel (s.below folder) false s]
      simp only [hstage]
      split
      · exact Or.inl rfl
      · exact Or.inr rfl
    | fresh | granted | returned | gathered how =>
      refine Or.inr (Or.inl ⟨v, rfl, by simp [hstage, Stage.isDue], ?_⟩)
      simp only [hstage]
      rfl

theorem shape_cancel (fuel : Nat) (folder : String) (s : Timeline) :
    (cancel fuel folder s).2.shape = s.shape := by
  induction fuel generalizing folder s with
  | zero => rfl
  | succ fuel ih =>
    have hall : (cancelAll fuel (s.below folder) s).shape = s.shape :=
      List.foldlRecOn (motive := fun s' => s'.shape = s.shape) _ _ rfl
        fun s' hs' child _ => (ih child s').trans hs'
    rcases cancel_cases fuel folder s with heq | ⟨v, -, -, heq⟩ | ⟨v, -, -, -, heq⟩ |
      ⟨v, n, -, -, heq | heq⟩
    all_goals simp [heq, hall]

theorem shape_cancelAll (fuel : Nat) (folders : List String) (s : Timeline) :
    (cancelAll fuel folders s).shape = s.shape :=
  List.foldlRecOn (motive := fun s' => s'.shape = s.shape) _ _ rfl
    fun s' hs' child _ => (shape_cancel fuel child s').trans hs'

/-- What both kinds of marks preserve, as long as the marked visits are of a kind that is
closed downwards. -/
structure Bears (P : Timeline → Prop) (D : String → Prop) : Prop where
  below : ∀ s f g, P s → D f → (g, some f) ∈ s.links → D g
  due : ∀ s v, P s → D v.folder → s.visit? v.folder = some v → v.stage.isDue = true →
    P (s.mark v.folder)
  idle : ∀ s v, P s → D v.folder → s.visit? v.folder = some v → v.stage.isIdle = true →
    v.cancelled = false → P ((s.mark v.folder).push (.turn v.folder))

variable {P : Timeline → Prop} {D : String → Prop}

theorem Bears.cancel (h : Bears P D) (fuel : Nat) {s : Timeline} {folder : String} (hs : P s)
    (hfolder : D folder) : P (Timeline.cancel fuel folder s).2 := by
  induction fuel generalizing folder s with
  | zero => exact hs
  | succ fuel ih =>
    have hall : P (cancelAll fuel (s.below folder) s) := by
      refine List.foldlRecOn (motive := P) _ _ hs fun s' hs' child hchild => ?_
      exact ih hs' (h.below s folder child hs hfolder (mem_below.mp hchild))
    rcases cancel_cases fuel folder s with heq | ⟨v, hv, hdue, heq⟩ | ⟨v, hv, hidle, hfree, heq⟩ |
      ⟨v, n, hv, hstage, heq | heq⟩
    · rwa [heq]
    · obtain ⟨-, rfl⟩ := mem_of_visit? hv
      rw [heq]
      exact h.due s v hs hfolder hv hdue
    · obtain ⟨-, rfl⟩ := mem_of_visit? hv
      rw [heq]
      exact h.idle s v hs hfolder hv hidle hfree
    · rwa [heq]
    · obtain ⟨w, hw, hsame⟩ := visit?_of_shape (shape_cancelAll fuel (s.below folder) s) hv
      obtain ⟨-, rfl⟩ := mem_of_visit? hw
      rw [heq]
      exact h.due _ w hall hfolder hw (by simp [hsame, hstage, Stage.isDue])

/-- What holds after everybody below a visit was cancelled. -/
theorem Bears.cancelBelow (h : Bears P D) {s : Timeline} {folder : String} (hs : P s)
    (hbelow : ∀ g, (g, some folder) ∈ s.links → D g) : P (s.cancelBelow folder) := by
  refine List.foldlRecOn (motive := P) _ _ hs fun s' hs' child hchild => ?_
  exact h.cancel _ hs' (hbelow child (mem_below.mp hchild))

theorem shape_cancelBelow (folder : String) (s : Timeline) :
    (s.cancelBelow folder).shape = s.shape :=
  List.foldlRecOn (motive := fun s' => s'.shape = s.shape) _ _ rfl
    fun s' hs' child _ => (shape_cancel _ child s').trans hs'

/-- Whatever marks and new events leave alone is left alone. -/
theorem view_cancelBelow {α : Type} (view : Timeline → α) (hmark : ∀ s f, view (mark s f) = view s)
    (hpush : ∀ s e, view (push s e) = view s) (folder : String) (s : Timeline) :
    view (s.cancelBelow folder) = view s := by
  have hbears : Bears (fun s' => view s' = view s) fun _ => True :=
    ⟨fun _ _ _ _ _ _ => trivial, fun s' v hs _ _ _ => (hmark s' v.folder).trans hs,
      fun s' v hs _ _ _ _ => (hpush _ _).trans ((hmark s' v.folder).trans hs)⟩
  exact hbears.cancelBelow rfl fun _ _ => trivial

@[simp] theorem traversal_cancelBelow (folder : String) (s : Timeline) :
    (s.cancelBelow folder).traversal = s.traversal :=
  view_cancelBelow (·.traversal) (fun _ _ => rfl) (fun _ _ => rfl) folder s

theorem running_cancelBelow : (s.cancelBelow f).running = s.running :=
  view_cancelBelow (·.running) (fun _ _ => rfl) (fun _ _ => rfl) f s

theorem permits_cancelBelow : (s.cancelBelow f).permits = s.permits :=
  view_cancelBelow (·.permits) (fun _ _ => rfl) (fun _ _ => rfl) f s

theorem line_cancelBelow : (s.cancelBelow f).line = s.line :=
  view_cancelBelow (·.line) (fun _ _ => rfl) (fun _ _ => rfl) f s

end Depot.Listing.Timeline
