import Depot.Proofs.Listing.Discipline
import Depot.Proofs.Listing.Supply
import Mathlib.Data.Set.Finite.Lemmas

/-!
Every listing comes to its end. Folders are visited once, and each visit lies inside the one
that found it, so however the levels of a store refer to each other there are no more visits
than folders they show. A visit that waits for others gave its permit back before: whoever
waits for nobody below has its turn to come, or its call is running.
-/
namespace Depot.Listing

def Source.foldersInside (source : Source) (start : String) : Set String :=
  {g | ∃ f, ∃ d ∈ source.level f, d.isFolder = true ∧ d.path = g ∧ Path.isUnder g start = true}

theorem Reached.shown {source : Source} {start f : String} (h : Reached source start f) :
    f = start ∨ f ∈ source.foldersInside start := by
  refine h.inside.imp_right fun hunder => ?_
  cases h with
  | start => simp [Path.isUnder] at hunder
  | @down g d _ hd hshows => exact ⟨g, d, hd, hshows.1, rfl, hunder⟩

/-- The folders that can be reached, of which there are only so many. -/
theorem exists_reached_of_shown {source : Source} {start : String}
    (hfinite : (source.foldersInside start).Finite) :
    ∃ reached : List String, reached.length ≤ 1 + (source.foldersInside start).ncard ∧
      ∀ f, Reached source start f → f ∈ reached := by
  have hsub : {f | Reached source start f} ⊆ insert start (source.foldersInside start) :=
    fun f hf => hf.shown
  have hinserted := hfinite.insert start
  obtain ⟨reached, hlength, hreached⟩ := exists_reached (hinserted.subset hsub)
  refine ⟨reached, ?_, hreached⟩
  have hcard := Set.ncard_le_ncard hsub hinserted
  have hone := Set.ncard_insert_le start (source.foldersInside start)
  omega

namespace Timeline

variable {p : Plan} {source : Source} {active : Option String} {phase : String → Phase}
  {s s' : Timeline} {f : String} {v w : Visit} {past : List Moment}

/-- Where nothing is to come, every visit is over or waits for others below it. -/
theorem Watched.over_or_gathering (h : Watched p source none phase s) (hlively : Lively s)
    (hstock : s.stock = p.options.threads) (hagenda : s.agenda = []) (hrunning : s.running = [])
    (hv : v ∈ s.visits) : v.stage.isOver = true ∨ ∃ n, v.stage = .gathering n := by
  have hquiet : ∀ w ∈ s.visits, w.stage.permits = 0 := by
    intro w hw
    have hsure := hlively.assured w hw (by simp)
    cases hstage : w.stage with
    | granted | calling | returned => simp [Sure, hstage, hagenda, hrunning] at hsure
    | _ => rfl
  have hsure := hlively.assured v hv (by simp)
  cases hstage : v.stage with
  | fresh | granted | calling | returned => simp [Sure, hstage, hagenda, hrunning] at hsure
  | queued =>
    -- All permits are free then, but nobody is left in line while one is.
    have hfree : v.cancelled = false := by
      simpa [Sure, hstage, hagenda] using hsure
    exfalso
    rcases hlively.supplied ⟨v, hv, isQueued_iff.mpr ⟨hstage, hfree⟩⟩ with
        hnone | ⟨w, hw, hgranted, -⟩
    · have hheld : (s.visits.map (·.stage.permits)).sum = 0 := by
        rw [List.sum_eq_zero_iff_forall_eq_nat]
        intro n hn
        obtain ⟨w, hw, rfl⟩ := List.mem_map.mp hn
        exact hquiet w hw
      have hpos := p.options.threads_pos
      simp only [stock] at hstock
      omega
    · have hheld := hquiet w hw
      simp [hgranted, Stage.permits] at hheld
  | gathered how =>
    have hturn := (h.stands v hv).turn (by simp [hstage, Stage.isGathered]) (by simp)
    simp [hagenda] at hturn
  | gathering n => exact Or.inr ⟨n, rfl⟩
  | «over» how => exact Or.inl rfl

/-- A visit that waits for others waits for one that is not over, or for a report. -/
theorem Watched.below_gathering (h : Watched p source none phase s) (hagenda : s.agenda = [])
    (hv : v ∈ s.visits) {n : Nat} (hstage : v.stage = .gathering n) :
    ∃ w ∈ s.visits, w.above = some v.folder ∧ w.stage.isOver = false := by
  have hphase : phase v.folder = .gathering n := by
    simpa [hstage, Stage.Suits] using (h.stands v hv).suits
  obtain ⟨hpos, hcount⟩ := h.family.count v.folder n hphase
  have hsome : ¬ ∀ g, (g, some v.folder) ∈ s.links → phase g = .ended true := by
    rw [← pending_eq_zero_iff]
    omega
  push Not at hsome
  obtain ⟨g, hlink, hopen⟩ := hsome
  obtain ⟨w, hw, heq⟩ := List.mem_map.mp hlink
  obtain ⟨rfl, habove⟩ := Prod.mk.inj heq
  refine ⟨w, hw, habove, ?_⟩
  have hstands := h.stands w hw
  cases hwstage : w.stage with
  | «over» how =>
    exfalso
    cases hbad : w.stage.isSpoiled with
    | true =>
      have htold := hstands.told (by simp [hwstage, Stage.isOver]) hbad v.folder habove
        ⟨v, hv, rfl, by simp [hstage, Stage.isGathering]⟩
      simp [hagenda] at htold
    | false =>
      have hreports := hstands.reports hbad
      obtain rfl : how = .done := by
        cases how <;> simp_all [Stage.isSpoiled, Stage.how?]
      obtain ⟨reported, hended⟩ : ∃ reported, phase w.folder = .ended reported := by
        simpa [hwstage, Stage.Suits] using hstands.suits
      cases reported with
      | true => exact hopen hended
      | false => simp [hagenda, hended, Phase.reports] at hreports
  | _ => rfl

/-- As long as a visit is not over, an event is to come or a call is running. -/
theorem Watched.going (h : Watched p source none phase s) (hlively : Lively s)
    (hstock : s.stock = p.options.threads) (hv : v ∈ s.visits) (hopen : v.stage.isOver = false) :
    s.running ≠ [] ∨ s.agenda ≠ [] := by
  by_contra hstuck
  push Not at hstuck
  obtain ⟨hrunning, hagenda⟩ := hstuck
  -- The deepest visit that is not over waits for none below it.
  obtain ⟨w, ⟨hw, hwopen⟩, hdeepest⟩ := Set.exists_max_image
    {v | v ∈ s.visits ∧ v.stage.isOver = false} (fun v => (Path.segments v.folder).length)
    ((List.finite_toSet s.visits).subset fun v hv => hv.1) ⟨v, hv, hopen⟩
  rcases h.over_or_gathering hlively hstock hagenda hrunning hw with hover | ⟨n, hgathering⟩
  · simp [hover] at hwopen
  · obtain ⟨u, hu, habove, huopen⟩ := h.below_gathering hagenda hw hgathering
    have hle := hdeepest u ⟨hu, huopen⟩
    have hlt := length_lt_of_isUnder (h.family.below u.folder w.folder (habove ▸ links_mem hu))
    omega

/-- Whoever has an event to come or a call that is running can go on. -/
theorem exists_step (source : Source) (hgoing : s.running ≠ [] ∨ s.agenda ≠ []) :
    ∃ s', Step p source s s' := by
  cases hagenda : s.agenda with
  | cons e rest => exact ⟨_, .handle hagenda⟩
  | nil =>
    have hrunning : s.running ≠ [] := hgoing.resolve_right (by simp [hagenda])
    have hperm : (s.running ++ []).Perm s.running := by simp
    exact ⟨_, .elapse s.now hperm hrunning⟩

/-- What is left of a listing when all visits are over. -/
theorem Watched.ended (h : Watched p source active phase s)
    (hall : ∀ v ∈ s.visits, v.stage.isOver = true) : s.ending?.isSome := by
  obtain ⟨first, rest, hvisits, -⟩ := exists_head h.family
  have hover := hall first (by simp [hvisits])
  cases hstage : first.stage with
  | «over» how => simp [(ending?_eq_some_iff hvisits).mpr hstage]
  | _ => simp [hstage, Stage.isOver] at hover

theorem Course.going (hcourse : Course p past s) (hsame : Steady source past) (hv : v ∈ s.visits)
    (hopen : v.stage.isOver = false) : s.running ≠ [] ∨ s.agenda ≠ [] := by
  obtain ⟨phase, hwatched⟩ := hcourse.watched hsame
  exact hwatched.going (hcourse.lively hsame) (hcourse.stock_eq hsame) hv hopen

theorem Course.goes_on (hcourse : Course p past s) (hsame : Steady source past)
    (hopen : ¬ ∀ v ∈ s.visits, v.stage.isOver = true) :
    ∃ s', Course p (past ++ [⟨source, s, s'⟩]) s' ∧ Steady source (past ++ [⟨source, s, s'⟩]) := by
  push Not at hopen
  obtain ⟨v, hv, hnot⟩ := hopen
  obtain ⟨s', hstep⟩ := exists_step (p := p) source (hcourse.going hsame hv (by simpa using hnot))
  exact ⟨s', hcourse.step hstep, hsame.concat s s'⟩

/-- The number of steps is bounded, so going on leads to the end. -/
theorem Course.ends {bound : Nat}
    (hbound : ∀ past s, Course p past s → Steady source past → past.length ≤ bound)
    (hcourse : Course p past s) (hsame : Steady source past) :
    ∃ more s', Course p (past ++ more) s' ∧ Steady source (past ++ more) ∧
      ∀ v ∈ s'.visits, v.stage.isOver = true := by
  induction hleft : bound - past.length generalizing past s with
  | zero =>
    refine ⟨[], s, by simpa using hcourse, by simpa using hsame, ?_⟩
    by_contra hopen
    obtain ⟨s', hcourse', hsame'⟩ := hcourse.goes_on hsame hopen
    have hmore := hbound _ _ hcourse' hsame'
    rw [List.length_append, List.length_singleton] at hmore
    omega
  | succ n ih =>
    by_cases hall : ∀ v ∈ s.visits, v.stage.isOver = true
    · exact ⟨[], s, by simpa using hcourse, by simpa using hsame, hall⟩
    · obtain ⟨s', hcourse', hsame'⟩ := hcourse.goes_on hsame hall
      have hless : bound - (past ++ [Moment.mk source s s']).length = n := by
        rw [List.length_append, List.length_singleton]
        omega
      obtain ⟨more, s'', hcourse'', hsame'', hover⟩ := ih hcourse' hsame' hless
      rw [List.append_assoc] at hcourse'' hsame''
      exact ⟨_, s'', hcourse'', hsame'', hover⟩

end Timeline

/-- However the levels of a store refer to each other, as long as they show only so many
folders inside the listed one; with any options, whatever calls come back first and whatever
fails. A listing has a bounded number of steps and makes no more calls than one for the listed
folder and one for each of those. While any of its visits is not over, a call is running or a
visit can go on, and so it comes to its end. On a clock by which calls take no time it ends,
too. -/
theorem listing_ends (hierarchical : Bool) (o : Options) (source : Source)
    (hfinite : (source.foldersInside o.folder).Finite) :
    (∀ past s, Timeline.Course (Plan.ofOptions hierarchical o) past s →
        Timeline.Steady source past →
      past.length ≤ 8 * (1 + (source.foldersInside o.folder).ncard) ∧
      s.traversal.calls.length ≤ 1 + (source.foldersInside o.folder).ncard ∧
      ((∃ v ∈ s.visits, v.stage.isOver = false) →
        (s.running ≠ [] ∨ s.agenda ≠ []) ∧
        ∃ s', Timeline.Step (Plan.ofOptions hierarchical o) source s s') ∧
      (s.running = [] → s.agenda = [] →
        (∀ v ∈ s.visits, v.stage.isOver = true) ∧ s.ending?.isSome) ∧
      ∃ more s', Timeline.Course (Plan.ofOptions hierarchical o) (past ++ more) s' ∧
        Timeline.Steady source (past ++ more) ∧
        (∀ v ∈ s'.visits, v.stage.isOver = true) ∧ s'.ending?.isSome) ∧
    (∀ clocked : Source, clocked.reply = source.reply → Timeline.Instant clocked →
      (source.foldersInside o.folder).ncard ≤ clocked.folders →
      (Timeline.run (Plan.ofOptions hierarchical o) clocked).ending?.isSome) := by
  obtain ⟨reached, hlength, hreached⟩ := exists_reached_of_shown hfinite
  have hsteps : ∀ past s, Timeline.Course (Plan.ofOptions hierarchical o) past s →
      Timeline.Steady source past →
      past.length ≤ 8 * (1 + (source.foldersInside o.folder).ncard) := by
    intro past s hcourse hsame
    obtain ⟨phase, hwatched⟩ := hcourse.watched hsame
    have hle := hcourse.length_le hsame
    have hvisits := hwatched.visits_le hreached
    omega
  refine ⟨fun past s hcourse hsame => ?_, fun clocked hreply hinstant hbound => ?_⟩
  · obtain ⟨phase, hwatched⟩ := hcourse.watched hsame
    refine ⟨hsteps past s hcourse hsame, ?_, ?_, fun hrunning hagenda => ?_, ?_⟩
    · have hbooks := hcourse.books hsame
      have hsub : s.traversal.calls ⊆ reached := fun f hf =>
        hreached f (hwatched.reached f (hbooks.calls_mem hf))
      exact (List.subperm_of_subset hbooks.calls_nodup hsub).length_le.trans hlength
    · rintro ⟨v, hv, hopen⟩
      have hgoing := hcourse.going hsame hv hopen
      exact ⟨hgoing, Timeline.exists_step source hgoing⟩
    · have hall : ∀ v ∈ s.visits, v.stage.isOver = true := by
        intro v hv
        by_contra hopen
        rcases hcourse.going hsame hv (by simpa using hopen) with hsome | hsome
        · exact hsome hrunning
        · exact hsome hagenda
      exact ⟨hall, hwatched.ended hall⟩
    · obtain ⟨more, s', hcourse', hsame', hall⟩ := hcourse.ends hsteps hsame
      obtain ⟨phase', hwatched'⟩ := hcourse'.watched hsame'
      exact ⟨more, s', hcourse', hsame', hall, hwatched'.ended hall⟩
  · obtain ⟨-, -, -, hended⟩ := Timeline.run_sound (Plan.ofOptions hierarchical o) hreply hreached
      (Or.inr ⟨hinstant, by omega⟩)
    exact hended

theorem circular_foldersInside : circular.foldersInside "" ⊆ {"a", "b", "a/c"} := by
  rintro g ⟨f, d, hd, -, rfl, hunder⟩
  have hshown : d.path ∈ ["", "a", "b", "a/c"] := by
    by_cases hroot : f = ""
    · subst hroot
      exact (by decide : ∀ d ∈ circular.level "", d.path ∈ ["", "a", "b", "a/c"]) d hd
    · by_cases ha : f = "a"
      · subst ha
        exact (by decide : ∀ d ∈ circular.level "a", d.path ∈ ["", "a", "b", "a/c"]) d hd
      · by_cases hc : f = "a/c"
        · subst hc
          exact (by decide : ∀ d ∈ circular.level "a/c", d.path ∈ ["", "a", "b", "a/c"]) d hd
        · have hmissing : circular.reply f = .error .missingFile := by
            simp [circular, hroot, ha, hc]
          have hnone : circular.level f = [] := by
            rw [Source.level, hmissing]
            rfl
          simp [hnone] at hd
  rcases List.mem_cons.mp hshown with hroot | hrest
  · rw [hroot] at hunder
    exact absurd hunder (by decide)
  · simpa using hrest

def oneByOne : Options := { everything with threads := 1, threads_pos := Nat.one_pos }

/-- One permit is enough, though visits wait for others three levels deep. -/
theorem listing_ends_circular :
    (Timeline.run (Plan.ofOptions false oneByOne) circular).ending?.isSome ∧
    (Timeline.run (Plan.ofOptions false oneByOne) circular).traversal.calls.length ≤ 4 := by
  have hfinite : (circular.foldersInside "").Finite :=
    Set.Finite.subset (by simp) circular_foldersInside
  have hcard : (circular.foldersInside "").ncard ≤ 3 := by
    refine (Set.ncard_le_ncard circular_foldersInside).trans ?_
    rw [Set.ncard_eq_three.mpr ⟨"a", "b", "a/c", by decide, by decide, by decide, rfl⟩]
  obtain ⟨hcourses, hclock⟩ := listing_ends false oneByOne circular hfinite
  obtain ⟨past, hcourse, hfixed, -⟩ := Timeline.run_course (Plan.ofOptions false oneByOne) circular
  obtain ⟨-, hcalls, -⟩ := hcourses past _ hcourse hfixed.steady
  have hsame : oneByOne.folder = "" := rfl
  rw [hsame] at hcalls hclock
  exact ⟨hclock circular rfl (fun _ => show ¬ (0 : Float) < 0 by decide) hcard, by omega⟩

end Depot.Listing
