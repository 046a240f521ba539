import Depot.Proofs.Listing.Books
import Depot.Proofs.Path
import Depot.Counters

/-!
Which calls a listing makes. Whatever the levels of the store show and whatever calls come
back first, each call is that of a folder inside the listed one that was not called before; it
is made while there is room for it, both in the result and among the calls in flight.
-/
namespace Depot.Listing

theorem Reached.inside {source : Source} {start f : String} (h : Reached source start f) :
    f = start ∨ Path.isUnder f start = true := by
  induction h with
  | start => exact Or.inl rfl
  | down _ _ hshows ih =>
    rcases ih with rfl | hunder
    · exact Or.inr hshows.2
    · exact Or.inr (Path.isUnder_trans hshows.2 hunder)

/-- Nothing is found by a walk that does not go down. -/
theorem Traversal.visited_absorb {p : Plan} {t : Traversal} {f : String} {reply : Reply}
    (hdescends : p.descends = false) : (t.absorb p f reply).visited = t.visited := by
  simp only [absorb, hdescends]
  repeat' split
  all_goals first | rfl | simp_all

namespace Timeline

variable {p : Plan} {source source' : Source} {active : Option String} {phase : String → Phase}
  {s s' : Timeline} {f : String} {v : Visit} {past : List Moment}

def Moment.started (m : Moment) : List String :=
  m.after.traversal.calls.drop m.before.traversal.calls.length

/-! When a call is made. -/

theorem peak_wakeNext : s.wakeNext.peak = s.peak := by
  rcases wakeNext_cases s with heq | ⟨v, -, -, -, -, heq⟩
  · rw [heq]
  · rw [heq]
    rfl

theorem peak_release : s.release.peak = s.peak := peak_wakeNext

theorem peak_finish (how : Ending) : (s.finish v how).peak = s.peak := by
  unfold finish
  split <;> rfl

theorem peak_cancelBelow : (s.cancelBelow f).peak = s.peak :=
  view_cancelBelow (·.peak) (fun _ _ => rfl) (fun _ _ => rfl) f s

theorem peak_comeBack : (s.comeBack p source v).peak = s.peak := by
  rcases comeBack_cases p source s v with ⟨e, more, -, heq⟩ | ⟨-, heq⟩
  · rw [heq, peak_finish]
    exact peak_release
  · rw [heq]
    simp only
    split
    · rw [peak_finish]
      exact peak_release
    · exact peak_release

theorem peak_dropVisit : (s.dropVisit v).peak = s.peak := by
  simp only [dropVisit, peak_finish]
  cases v.stage with
  | granted | calling | returned => exact peak_release
  | gathered how => exact peak_cancelBelow
  | _ => rfl

/-- A visit that enters makes its call, unless the result is full. -/
theorem calls_enter : (s.enter p source v).traversal.calls =
    if s.traversal.isFull p then s.traversal.calls else s.traversal.calls ++ [v.folder] := by
  rw [enter_eq]
  cases hfull : s.traversal.isFull p with
  | true =>
    rw [if_pos rfl, if_pos rfl, traversal_finish, traversal_release]
    simp only [Timeline.launched, Traversal.launch_of_full hfull]
  | false =>
    have hcalls : (s.launched p v.folder).traversal.calls = s.traversal.calls ++ [v.folder] := by
      simp only [Timeline.launched, Traversal.launch_of_room hfull]
    simp only [Bool.false_eq_true, if_false]
    split
    · exact hcalls
    · rw [calls_comeBack, hcalls]

theorem peak_enter (p : Plan) (source : Source) (s : Timeline) (v : Visit) :
    (s.enter p source v).peak ≤ max s.peak (s.traversal.inFlight.length + 1) := by
  have hlaunched : (s.launched p v.folder).peak ≤ max s.peak (s.traversal.inFlight.length + 1) := by
    simp only [Timeline.launched, Traversal.launch]
    split <;> simp
    omega
  rw [enter_eq]
  split
  · rwa [peak_finish, peak_release]
  · split
    · exact hlaunched
    · rwa [peak_comeBack]

theorem visited_enter (hdescends : p.descends = false) :
    (s.enter p source v).traversal.visited = s.traversal.visited := by
  rw [enter_eq]
  split
  · rw [traversal_finish, traversal_release]
    exact Traversal.visited_launch
  · split
    · exact Traversal.visited_launch
    · rw [traversal_comeBack, Traversal.visited_absorb hdescends]
      exact Traversal.visited_launch

/-- In a turn with a permit a call may be made; in any other turn none is. -/
theorem turn_enters (p : Plan) (source : Source) (s : Timeline) (v : Visit) :
    (∃ s₀ : Timeline, s.turn p source v = s₀.enter p source v ∧ s₀.traversal = s.traversal ∧
      s₀.peak = s.peak ∧ (v.stage = .granted ∨ v.stage = .fresh ∧ 0 < s.permits)) ∨
    ((s.turn p source v).traversal.calls = s.traversal.calls ∧
      (s.turn p source v).peak = s.peak ∧ (p.descends = false →
        (s.turn p source v).traversal.visited = s.traversal.visited)) := by
  cases hcancelled : v.cancelled with
  | true =>
    simp only [Timeline.turn, hcancelled, if_true]
    rw [traversal_dropVisit]
    exact Or.inr ⟨rfl, peak_dropVisit, fun _ => rfl⟩
  | false =>
    simp only [Timeline.turn, hcancelled, Bool.false_eq_true, if_false]
    cases hstage : v.stage with
    | fresh =>
      simp only
      split
      · exact Or.inr ⟨rfl, rfl, fun _ => rfl⟩
      · rename_i hnext
        refine Or.inl ⟨{ s with permits := s.permits - 1 }, rfl, rfl, rfl, Or.inr ⟨trivial, ?_⟩⟩
        rw [Nat.pos_iff_ne_zero]
        intro hnone
        simp [mustQueue, hnone] at hnext
    | granted =>
      refine Or.inl ⟨_, rfl, ?_, ?_, Or.inl rfl⟩
      · split
        · exact traversal_wakeNext
        · rfl
      · split
        · exact peak_wakeNext
        · rfl
    | returned =>
      refine Or.inr ⟨calls_comeBack, peak_comeBack, fun hdescends => ?_⟩
      rw [traversal_comeBack, Traversal.visited_absorb hdescends]
    | gathered how =>
      cases how with
      | done => simp [traversal_finish, peak_finish]
      | failed e | dropped => simp [traversal_finish, peak_finish, peak_cancelBelow]
    | queued | calling | gathering n | «over» how => exact Or.inr ⟨rfl, rfl, fun _ => rfl⟩

/-! How many calls are in flight. -/

/-- Different visits that hold permits hold different ones. -/
theorem length_le_held {folders : List String} (hnodup : folders.Nodup)
    (hheld : ∀ f ∈ folders, ∃ v ∈ s.visits, v.folder = f ∧ v.stage.permits = 1) :
    folders.length ≤ (s.visits.map (·.stage.permits)).sum := by
  have hsub : folders ⊆ (s.visits.filter (·.stage.permits = 1)).map (·.folder) := by
    intro f hf
    obtain ⟨v, hv, rfl, hone⟩ := hheld f hf
    exact List.mem_map_of_mem (List.mem_filter.mpr ⟨hv, by simpa using hone⟩)
  have hlength := (List.subperm_of_subset hnodup hsub).length_le
  have hsum : ∀ visits : List Visit, (visits.filter (·.stage.permits = 1)).length ≤
      (visits.map (·.stage.permits)).sum := by
    intro visits
    induction visits with
    | nil => simp
    | cons v rest ih =>
      by_cases hone : v.stage.permits = 1
      · simp [hone]
        omega
      · simp [hone]
        omega
  rw [List.length_map] at hlength
  exact hlength.trans (hsum s.visits)

theorem Stage.permits_of_out {stage : Stage} (hout : stage.out = 1) : stage.permits = 1 := by
  cases stage <;> simp_all [out, permits]

variable (hbooks : Books none s) (hstock : s.stock = p.options.threads)
include hbooks hstock

/-- Every call in flight goes with a permit. -/
theorem Books.crowd : s.traversal.inFlight.length ≤ p.options.threads := by
  have hheld : s.traversal.inFlight.length ≤ (s.visits.map (·.stage.permits)).sum :=
    length_le_held hbooks.inFlight_nodup fun f hf => by
      obtain ⟨v, hv, hfolder, -, hout⟩ := hbooks.inFlight_mem.mp hf
      exact ⟨v, hv, hfolder, Stage.permits_of_out hout⟩
  simp only [stock] at hstock
  omega

/-- With one more permit in hand there is room for one more call. -/
theorem Books.crowd_lt (hunique : s.folders.Nodup) (hv : v ∈ s.visits)
    (henters : v.stage = .granted ∨ v.stage = .fresh ∧ 0 < s.permits) :
    s.traversal.inFlight.length < p.options.threads := by
  have hheld : ∀ f ∈ s.traversal.inFlight, ∃ v ∈ s.visits, v.folder = f ∧ v.stage.permits = 1 := by
    intro f hf
    obtain ⟨w, hw, hfolder, -, hout⟩ := hbooks.inFlight_mem.mp hf
    exact ⟨w, hw, hfolder, Stage.permits_of_out hout⟩
  simp only [stock] at hstock
  rcases henters with hstage | ⟨-, hfree⟩
  · have hnew : v.folder ∉ s.traversal.inFlight := by
      rw [← List.count_eq_zero, (hbooks v.folder (by simp)).inFlight,
        stageOf_of_mem hunique hv, hstage]
      rfl
    have hmore := length_le_held (s := s) (List.nodup_cons.mpr ⟨hnew, hbooks.inFlight_nodup⟩) (by
      intro f hf
      rcases List.mem_cons.mp hf with rfl | hf
      · exact ⟨v, hv, rfl, by rw [hstage]; rfl⟩
      · exact hheld f hf)
    rw [List.length_cons] at hmore
    omega
  · have hless := length_le_held hbooks.inFlight_nodup hheld
    omega

/-- A step makes one call at most, and makes it while there is room. -/
theorem Watched.calls_step (h : Watched p source none phase s) (hstep : Step p source' s s') :
    (s'.traversal.calls = s.traversal.calls ∨ ∃ f, s'.traversal.calls = s.traversal.calls ++ [f] ∧
      s.traversal.isFull p = false ∧ s.traversal.inFlight.length < p.options.threads) ∧
    s'.peak ≤ max s.peak p.options.threads ∧
    (p.descends = false → s'.traversal.visited = s.traversal.visited) := by
  have hquiet : ∀ s' : Timeline, s'.traversal = s.traversal → s'.peak = s.peak →
      (s'.traversal.calls = s.traversal.calls ∨ ∃ f, s'.traversal.calls = s.traversal.calls ++ [f] ∧
        s.traversal.isFull p = false ∧ s.traversal.inFlight.length < p.options.threads) ∧
      s'.peak ≤ max s.peak p.options.threads ∧
      (p.descends = false → s'.traversal.visited = s.traversal.visited) := by
    intro s' htraversal hpeak
    rw [htraversal, hpeak]
    exact ⟨Or.inl rfl, le_max_left .., fun _ => rfl⟩
  cases hstep with
  | @handle e rest hagenda =>
    cases e with
    | report f =>
      simp only [handle]
      split
      · unfold Timeline.report
        repeat' split
        all_goals exact hquiet _ rfl rfl
      · exact hquiet _ rfl rfl
    | turn f =>
      simp only [handle]
      split
      · rename_i v hvisit
        rcases turn_enters p source' { s with agenda := rest } v with
          ⟨s₀, heq, htraversal, hpeak, henters⟩ | ⟨hcalls, hpeak, hvisited⟩
        · have hroom := hbooks.crowd_lt hstock h.unique (mem_of_visit? hvisit).1 henters
          have hmost := peak_enter p source' s₀ v
          rw [heq, calls_enter, htraversal]
          refine ⟨?_, ?_, fun hdescends => ?_⟩
          · cases hfull : s.traversal.isFull p with
            | true => exact Or.inl (if_pos rfl)
            | false => exact Or.inr ⟨v.folder, if_neg (by simp), rfl, hroom⟩
          · rw [htraversal, hpeak] at hmost
            simp only at hmost
            omega
          · rw [visited_enter hdescends, htraversal]
        · exact ⟨Or.inl hcalls, hpeak.le.trans (le_max_left ..), hvisited⟩
      · exact hquiet _ rfl rfl
  | @elapse now due left hperm hdue =>
    have hsame : (s.elapse now due left).traversal = s.traversal ∧
        (s.elapse now due left).peak = s.peak :=
      List.foldlRecOn (motive := fun s' : Timeline => s'.traversal = s.traversal ∧ s'.peak = s.peak)
        _ _ ⟨rfl, rfl⟩ fun _ hs' _ _ => hs'
    exact hquiet _ hsame.1 hsame.2

omit hbooks hstock

/-- The first turn makes the call of the first folder, unless no entries are asked for. -/
theorem calls_first (hlimit : p.options.limit ≠ some 0) {now : Float}
    (hstep : Step p source { Timeline.start p with now := now } s) :
    s.traversal.calls = [p.options.folder] := by
  cases hstep with
  | handle hagenda =>
    obtain ⟨rfl, rfl⟩ := List.cons.inj hagenda
    have hfree : p.options.threads ≠ 0 := p.options.threads_pos.ne'
    have hroom : (Timeline.start p).traversal.isFull p = false := by
      cases hk : p.options.limit with
      | none => simp [Traversal.isFull, hk]
      | some k =>
        have hpos : k ≠ 0 := fun hzero => hlimit (by rw [hk, hzero])
        simp [Traversal.isFull, hk, Timeline.start, Traversal.start]
        omega
    simp only [handle, visit?, Timeline.start, List.find?_cons_of_pos, decide_true, turn, mustQueue,
      hfree, List.any_nil, Bool.false_eq_true, if_false, decide_false, Bool.or_false]
    rw [calls_enter]
    exact if_neg (Bool.eq_false_iff.mp hroom)
  | elapse now hperm hdue =>
    have hnone := hperm.length_eq
    simp only [Timeline.start, List.length_append, List.length_nil] at hnone
    exact absurd (List.length_eq_zero_iff.mp (by omega)) hdue

/-! All calls of a listing. -/

structure Made (p : Plan) (past : List Moment) (s : Timeline) : Prop where
  calls : s.traversal.calls = past.flatMap Moment.started
  single : ∀ m ∈ past, m.started = [] ∨ (∃ f, m.started = [f]) ∧
    m.before.traversal.isFull p = false ∧
    m.before.traversal.inFlight.length < p.options.threads
  peak : s.peak ≤ p.options.threads
  first : p.options.limit ≠ some 0 →
    (past = [] ∧ ∃ now, s = { Timeline.start p with now := now }) ∨
      p.options.folder ∈ s.traversal.calls
  level : p.descends = false → s.traversal.visited = [p.options.folder]

theorem Course.made (hcourse : Course p past s) (hsame : Steady source past) : Made p past s := by
  refine (Course.induction (I := fun past s => Made p past s ∧ Books none s ∧
    s.stock = p.options.threads) ?_ ?_ ?_ hcourse hsame).1.1
  · have hsteady : Steady source [] := by simp [Steady]
    exact ⟨⟨rfl, by simp, Nat.zero_le _, fun _ => Or.inl ⟨rfl, 0, rfl⟩, fun _ => rfl⟩,
      Course.start.books hsteady, Course.start.stock_eq hsteady⟩
  · rintro past source' s s' phase ⟨hmade, hbooks, hstock⟩ hwatched - hstep
    obtain ⟨hcalls, hpeak, hvisited⟩ := hwatched.calls_step hbooks hstock hstep
    refine ⟨⟨?_, ?_, ?_, fun hlimit => Or.inr ?_,
      fun hdescends => (hvisited hdescends).trans (hmade.level hdescends)⟩, hwatched.books_step
        hbooks hstep, (hwatched.stock_step hstep).trans hstock⟩
    · rw [List.flatMap_append, ← hmade.calls]
      rcases hcalls with heq | ⟨f, heq, -⟩ <;> simp [Moment.started, heq]
    · intro m hm
      rcases List.mem_append.mp hm with hm | hm
      · exact hmade.single m hm
      · obtain rfl : m = ⟨source', s, s'⟩ := by simpa using hm
        rcases hcalls with heq | ⟨f, heq, hroom⟩
        · exact Or.inl (by simp [Moment.started, heq])
        · exact Or.inr ⟨⟨f, by simp [Moment.started, heq]⟩, hroom⟩
    · have hbefore := hmade.peak
      omega
    · rcases hmade.first hlimit with ⟨-, now, rfl⟩ | hmem
      · rw [calls_first hlimit hstep]
        exact List.mem_singleton_self _
      · rcases hcalls with heq | ⟨f, heq, -⟩ <;> simp [heq, hmem]
  · rintro past s now ⟨hmade, hbooks, hstock⟩
    refine ⟨⟨hmade.calls, hmade.single, hmade.peak, fun hlimit => ?_, hmade.level⟩,
      hbooks.quiet rfl rfl rfl, hstock⟩
    rcases hmade.first hlimit with ⟨hnone, before, rfl⟩ | hmem
    · exact Or.inl ⟨hnone, now, rfl⟩
    · exact Or.inr hmem

theorem Made.calls_eq_nil (h : Made p past s) (hlimit : p.options.limit = some 0) :
    s.traversal.calls = [] := by
  rw [h.calls, List.flatMap_eq_nil_iff]
  intro m hm
  rcases h.single m hm with hnone | ⟨-, hroom, -⟩
  · exact hnone
  · simp [Traversal.isFull, hlimit] at hroom

/-- A walk that does not go down makes one call. -/
theorem Made.calls_of_level (h : Made p past s) (hwatched : Watched p source active phase s)
    (hbooks : Books none s) (hdescends : p.descends = false) (hlimit : p.options.limit ≠ some 0)
    (hsome : past ≠ []) : s.traversal.calls = [p.options.folder] := by
  have hmem := (h.first hlimit).resolve_left fun hnone => hsome hnone.1
  have hsub : s.traversal.calls ⊆ [p.options.folder] := by
    intro f hf
    have hknown := hbooks.calls_mem hf
    rwa [← hwatched.visited, h.level hdescends] at hknown
  have hlength := (List.subperm_of_subset hbooks.calls_nodup hsub).length_le
  obtain ⟨f, hf⟩ : ∃ f, s.traversal.calls = [f] := by
    rw [← List.length_eq_one_iff]
    have hpos := List.length_pos_of_mem hmem
    simp only [List.length_singleton] at hlength
    omega
  rw [hf, List.mem_singleton] at hmem
  rw [hf, hmem]

/-- What the calls of a listing keep to. -/
structure Disciplined (p : Plan) (past : List Moment) (s : Timeline) : Prop where
  /-- Calls that are going on, those in flight, and the most that ever were. -/
  bounded : s.running.length ≤ s.traversal.inFlight.length ∧
    s.traversal.inFlight.length ≤ p.options.threads ∧ s.peak ≤ p.options.threads
  once : s.traversal.calls.Nodup
  inside : ∀ f ∈ s.traversal.calls,
    f = p.options.folder ∨ Path.isUnder f p.options.folder = true
  calls : s.traversal.calls = past.flatMap Moment.started
  single : ∀ m ∈ past, m.started.length ≤ 1
  /-- A call starts while fewer are in flight than may be, and while entries are wanted. -/
  wanted : ∀ m ∈ past, m.started ≠ [] →
    m.before.traversal.inFlight.length < p.options.threads ∧
    ∀ k, p.options.limit = some k → m.before.traversal.result.length < k
  none : p.options.limit = some 0 → s.traversal.calls = []
  one : p.descends = false → p.options.limit ≠ some 0 → past ≠ [] →
    s.traversal.calls = [p.options.folder]

theorem Course.disciplined (hcourse : Course p past s) (hsame : Steady source past) :
    Disciplined p past s := by
  have hmade := hcourse.made hsame
  have hbooks := hcourse.books hsame
  obtain ⟨phase, hwatched⟩ := hcourse.watched hsame
  refine ⟨⟨?_, hbooks.crowd (hcourse.stock_eq hsame), hmade.peak⟩, hbooks.calls_nodup, ?_,
    hmade.calls, ?_, ?_, hmade.calls_eq_nil, hmade.calls_of_level hwatched hbooks⟩
  · have hsub : s.running.map Prod.fst ⊆ s.traversal.inFlight := by
      intro f hf
      obtain ⟨v, hv, rfl, hcalling⟩ := hwatched.underway.calling f hf
      exact hbooks.inFlight_mem.mpr
        ⟨v, hv, rfl, (stageOf_of_mem hwatched.unique hv).symm, by rw [hcalling]; rfl⟩
    simpa using (List.subperm_of_subset hwatched.underway.unique hsub).length_le
  · intro f hf
    exact (hwatched.reached f (hbooks.calls_mem hf)).inside
  · intro m hm
    rcases hmade.single m hm with hnone | ⟨⟨f, hf⟩, -⟩
    · simp [hnone]
    · simp [hf]
  · intro m hm hsome
    obtain ⟨-, hroom, hless⟩ := (hmade.single m hm).resolve_left hsome
    refine ⟨hless, fun k hk => ?_⟩
    simpa [Traversal.isFull, hk] using hroom

/-- The steps behind a report; a limit of zero is answered without any. -/
theorem report_course (hierarchical : Bool) (o : Options) (store : Options → Source) :
    ∃ past s, Course (Plan.ofOptions hierarchical o) past s ∧
      Fixed (store (Plan.ofOptions hierarchical o).callOptions) past ∧
      (o.limit ≠ some 0 → past ≠ [] ∧ s = run (Plan.ofOptions hierarchical o)
        (store (Plan.ofOptions hierarchical o).callOptions)) ∧
      (list hierarchical o store).calls = s.traversal.calls ∧
      (list hierarchical o store).peak = s.peak := by
  by_cases hlimit : o.limit = some 0
  · refine ⟨[], _, .start, by simp [Fixed], fun hsome => absurd hlimit hsome, ?_, ?_⟩
    all_goals simp only [list, if_pos hlimit]
    all_goals rfl
  · obtain ⟨past, hcourse, hfixed, hsome⟩ := run_course (Plan.ofOptions hierarchical o)
      (store (Plan.ofOptions hierarchical o).callOptions)
    refine ⟨past, _, hcourse, hfixed, fun _ => ⟨hsome, rfl⟩, ?_, ?_⟩
    all_goals simp only [list, if_neg hlimit]

end Timeline

theorem native_list (hierarchical : Bool) (o : Options) (store : Options → Source) :
    (list hierarchical o store).native = (hierarchical && o.mode = .remote) := by
  simp only [list]
  split <;> rfl

/-- Whatever the levels of a store show (entries may be repeated and may lead anywhere),
whatever calls come back first and whatever fails: no more calls are in flight than there are
threads; each folder is called once at most, and it is the listed one or inside it; a call
starts only while the result holds less than the limit; a limit of zero makes no call; and a
store that lists the whole subtree is called once otherwise. So it is for a listing on the
clock, and the counters grow by the calls that it started. -/
theorem call_discipline (hierarchical : Bool) (o : Options) :
    (∀ source past s, Timeline.Course (Plan.ofOptions hierarchical o) past s →
      Timeline.Steady source past →
      Timeline.Disciplined (Plan.ofOptions hierarchical o) past s) ∧
    ∀ store : Options → Source,
      (list hierarchical o store).peak ≤ o.threads ∧
      (list hierarchical o store).calls.Nodup ∧
      (∀ f ∈ (list hierarchical o store).calls,
        f = o.folder ∨ Path.isUnder f o.folder = true) ∧
      (o.limit = some 0 → (list hierarchical o store).calls = []) ∧
      (hierarchical = true → o.mode = .remote → o.limit ≠ some 0 →
        (list hierarchical o store).calls = [o.folder]) ∧
      ∃ past s, Timeline.Course (Plan.ofOptions hierarchical o) past s ∧
        (o.limit ≠ some 0 → s = Timeline.run (Plan.ofOptions hierarchical o)
          (store (Plan.ofOptions hierarchical o).callOptions)) ∧
        ∀ c : Counters,
          (hierarchical = true ∧ o.mode = .remote →
            (c.addListing (list hierarchical o store)).localCalls = c.localCalls ∧
            (c.addListing (list hierarchical o store)).hierarchyCalls =
              c.hierarchyCalls + (past.flatMap Timeline.Moment.started).length) ∧
          (¬ (hierarchical = true ∧ o.mode = .remote) →
            (c.addListing (list hierarchical o store)).localCalls =
              c.localCalls + (past.flatMap Timeline.Moment.started).length ∧
            (c.addListing (list hierarchical o store)).hierarchyCalls = c.hierarchyCalls) := by
  refine ⟨fun source past s hcourse hsame => hcourse.disciplined hsame, fun store => ?_⟩
  obtain ⟨past, s, hcourse, hfixed, hrun, hcalls, hpeak⟩ :=
    Timeline.report_course hierarchical o store
  have h := hcourse.disciplined hfixed.steady
  refine ⟨hpeak ▸ h.bounded.2.2, hcalls ▸ h.once, hcalls ▸ h.inside, fun hlimit => ?_,
    fun hhierarchical hmode hlimit => ?_, past, s, hcourse, fun hlimit => (hrun hlimit).2,
    fun c => ?_⟩
  · rw [hcalls]
    exact h.none hlimit
  · rw [hcalls]
    exact h.one (by simp [Plan.ofOptions, hhierarchical, hmode]) hlimit (hrun hlimit).1
  · simp only [Counters.addListing, native_list, hcalls, h.calls]
    refine ⟨?_, fun hlocal => ?_⟩
    · rintro ⟨rfl, hmode⟩
      simp [hmode]
    · have hnot : (hierarchical && decide (o.mode = .remote)) = false := by simpa using hlocal
      simp [hnot]

def circular : Source where
  reply folder :=
    if folder = "" then .ok [.plain .folder "a" none, .plain .folder "b" none,
      .plain .folder "a" none]
    else if folder = "a" then .ok [.plain .folder "a" none, .plain .folder "" none,
      .plain .folder "b" none, .plain .folder "a/c" none]
    else if folder = "a/c" then .ok [.plain .folder "a" none, .plain .folder "a/c" none]
    else .error .missingFile
  duration _ := 0
  folders := 3

theorem call_discipline_circular :
    (∃ past, past ≠ [] ∧ Timeline.Disciplined (Plan.ofOptions false everything) past
      (Timeline.run (Plan.ofOptions false everything) circular)) ∧
    (list true everything fun _ => circular).calls = [""] := by
  obtain ⟨past, hcourse, hfixed, hsome⟩ :=
    Timeline.run_course (Plan.ofOptions false everything) circular
  exact ⟨⟨past, hsome, (call_discipline false everything).1 circular past _ hcourse hfixed.steady⟩,
    ((call_discipline true everything).2 fun _ => circular).2.2.2.2.1 rfl rfl (by
      simp [everything, Options.default])⟩

end Depot.Listing
