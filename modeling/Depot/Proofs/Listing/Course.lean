import Depot.Proofs.Listing.Failures

/-!
The whole course of a listing. It goes on after the first visit has ended: visits that were
cancelled when a folder failed still have their turns to come, and their calls may come back
meanwhile. What is known of the visits holds throughout, and the steps are bounded throughout.
-/
namespace Depot.Listing.Timeline

/-- The steps in `past`, one after another, lead from the start to a state. The clock may show
anything. -/
inductive Course (p : Plan) : List Moment → Timeline → Prop
  | start : Course p [] (.start p)
  | step {past : List Moment} {source : Source} {s s' : Timeline} (hcourse : Course p past s)
      (hstep : Step p source s s') : Course p (past ++ [⟨source, s, s'⟩]) s'
  | wait {past : List Moment} {s : Timeline} (hcourse : Course p past s) (now : Float) :
      Course p past { s with now := now }

variable {p : Plan} {source source' : Source} {phase : String → Phase} {s s' : Timeline}
  {past : List Moment}

/-- A run is the course of a listing up to its end. -/
theorem Runs.course (hrun : Runs p past s) : Course p past s := by
  induction hrun with
  | start => exact .start
  | move _ hmove ih => exact .step ih hmove.step

theorem Steady.init {m : Moment} (h : Steady source (past ++ [m])) :
    Steady source past ∧ m.source.reply = source.reply :=
  ⟨fun m' hm => h m' (List.mem_append_left _ hm), h m (by simp)⟩

theorem Steady.concat (h : Steady source past) (s s' : Timeline) :
    Steady source (past ++ [⟨source, s, s'⟩]) := by
  intro m hm
  rcases List.mem_append.mp hm with hm | hm
  · exact h m hm
  · obtain rfl : m = ⟨source, s, s'⟩ := by simpa using hm
    rfl

theorem Watched.of_now (h : Watched p source none phase s) (now : Float) :
    Watched p source none phase { s with now := now } :=
  h.of_running now (List.Perm.refl s.running)

/-- What is kept by every step of visits that stand as they should holds throughout. -/
theorem Course.induction {I : List Moment → Timeline → Prop} (hstart : I [] (.start p))
    (hstep : ∀ past source' s s' phase, I past s → Watched p source none phase s →
      source'.reply = source.reply → Step p source' s s' → I (past ++ [⟨source', s, s'⟩]) s')
    (hwait : ∀ past s now, I past s → I past { s with now := now })
    (hcourse : Course p past s) (hsame : Steady source past) :
    I past s ∧ ∃ phase, Watched p source none phase s := by
  induction hcourse with
  | start => exact ⟨hstart, _, Watched.start p source⟩
  | @step past source' s s' hcourse hnext ih =>
    obtain ⟨hearlier, hreply⟩ := hsame.init
    obtain ⟨hI, phase, hwatched⟩ := ih hearlier
    exact ⟨hstep past source' s s' phase hI hwatched hreply hnext, hwatched.step hreply hnext⟩
  | wait _ now ih =>
    obtain ⟨hI, phase, hwatched⟩ := ih hsame
    exact ⟨hwait _ _ now hI, phase, hwatched.of_now now⟩

theorem Course.watched (hcourse : Course p past s) (hsame : Steady source past) :
    ∃ phase, Watched p source none phase s :=
  (Course.induction (I := fun _ _ => True) trivial (fun _ _ _ _ _ _ _ _ _ => trivial)
    (fun _ _ _ _ => trivial) hcourse hsame).2

/-- There are at most eight steps for each visit. -/
theorem Course.length_le (hcourse : Course p past s) (hsame : Steady source past) :
    past.length ≤ 8 * s.visits.length := by
  have hspent : past.length + s.cost 5 ≤ 8 * s.visits.length := by
    refine (Course.induction (I := fun past s => past.length + s.cost 5 ≤ 8 * s.visits.length)
      ?_ ?_ (fun _ _ _ h => h) hcourse hsame).1
    · simp [Timeline.start, cost, Event.cost, Visit.cost]
    · intro past source' s s' phase hI hwatched _ hnext
      have hless := hwatched.spends hnext (Or.inl le_rfl : 5 ≤ 5 ∨ 1 ≤ 5 ∧ Instant source')
      rw [List.length_append, List.length_singleton]
      omega
  omega

/-- The schedule on the clock is the course of a listing. -/
theorem Course.steps (hcourse : Course p past s) (hfixed : Fixed source past) (fuel : Nat) :
    ∃ past', Course p past' (Timeline.steps p source fuel s) ∧ Fixed source past' ∧
      past <+: past' := by
  induction fuel generalizing past s with
  | zero => exact ⟨past, hcourse, hfixed, List.prefix_rfl⟩
  | succ fuel ih =>
    cases hnext : s.step? p source with
    | none =>
      simp only [Timeline.steps, hnext]
      exact ⟨past, hcourse, hfixed, List.prefix_rfl⟩
    | some s' =>
      simp only [Timeline.steps, hnext]
      rcases step?_cases hnext with hmove | ⟨-, now, rfl⟩
      · obtain ⟨past', hcourse', hfixed', hprefix⟩ :=
          ih (hcourse.step hmove.step) (hfixed.concat s s')
        exact ⟨past', hcourse', hfixed', (List.prefix_append past _).trans hprefix⟩
      · exact ih (hcourse.wait now) hfixed

theorem run_course (p : Plan) (source : Source) :
    ∃ past, Course p past (run p source) ∧ Fixed source past ∧ past ≠ [] := by
  -- The first turn is on the agenda from the start.
  let first := { Timeline.start p with agenda := [] }.handle p source (.turn p.options.folder)
  have hfirst : Step p source (.start p) first := .handle rfl
  have hrun : run p source = Timeline.steps p source (7 * source.folders + 6) first := rfl
  obtain ⟨past, hcourse, hfixed, hprefix⟩ :=
    (Course.start.step hfirst).steps (Fixed.concat (by simp [Fixed]) _ _) (7 * source.folders + 6)
  refine ⟨past, hrun ▸ hcourse, hfixed, ?_⟩
  rintro rfl
  simp at hprefix

end Depot.Listing.Timeline
