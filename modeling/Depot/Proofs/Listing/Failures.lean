import Depot.Proofs.Listing.Cost

/-!
Which errors a listing reports. A walk that goes down by itself fails just when a folder that
the levels of the store lead to raises an error, and with such an error; one that does not
fail lists all of these folders. Whatever calls come back first, and whoever is cancelled
meanwhile, it is never stuck and makes a bounded number of moves.
-/
namespace Depot.Listing

namespace Timeline

variable {p : Plan} {source source' : Source} {active : Option String} {phase : String → Phase}
  {s s' : Timeline} {f : String} {v : Visit} {d n : Nat} {past : List Moment}

theorem ending?_eq_some_iff {rest : List Visit} {how : Ending} (hvisits : s.visits = v :: rest) :
    s.ending? = some how ↔ v.stage = .over how := by
  rw [ending?, hvisits, List.head?_cons]
  cases hstage : v.stage <;> simp [hstage]

/-- As long as the first visit is not over, a spoiled one has its turn or its report to come,
or spoils one that lies less deep. -/
theorem Watched.busy (h : Watched p source none phase s) (hspoiled : s.Spoiled f)
    (hopen : s.ending? = none) : ∃ e rest, s.agenda = e :: rest := by
  have hcons : ∀ e, e ∈ s.agenda → ∃ e rest, s.agenda = e :: rest := by
    intro e he
    cases hagenda : s.agenda with
    | nil => simp [hagenda] at he
    | cons e rest => exact ⟨e, rest, rfl⟩
  obtain ⟨first, rest, hvisits, hstart, -⟩ := exists_head h.family
  -- By its depth: if the visit above is spoiled too, that one lies less deep.
  induction hdepth : (Path.segments f).length using Nat.strong_induction_on generalizing f with
  | h depth ih =>
    obtain ⟨v, hv, rfl, hbad⟩ := hspoiled
    have hstands := h.stands v hv
    cases hstage : v.stage with
    | gathered how =>
      exact hcons _ (hstands.turn (by simp [hstage, Stage.isGathered]) (by simp))
    | «over» how =>
      cases habove : v.above with
      | none =>
        have hfolder : v.folder = first.folder := by
          rw [hstart]
          exact h.family.eq_start (habove ▸ links_mem hv)
        obtain rfl : v = first :=
          List.inj_on_of_nodup_map h.unique hv (by simp [hvisits]) hfolder
        simp [(ending?_eq_some_iff hvisits).mpr hstage] at hopen
      | some a =>
        have hlink := links_mem hv
        rw [habove] at hlink
        obtain ⟨w, hw, rfl⟩ : ∃ w ∈ s.visits, w.folder = a := by
          have hmem := h.family.mem_above hlink
          rw [← folders_eq] at hmem
          exact List.mem_map.mp hmem
        rcases h.family.parent v.folder w.folder hlink with ⟨n, hn⟩ | ⟨-, hended⟩
        · rcases Stage.Suits.gathering (hn ▸ (h.stands w hw).suits) with hgathers | hbad'
          · exact hcons _ (hstands.told (by simp [hstage, Stage.isOver]) hbad w.folder habove
              ⟨w, hw, rfl, by simp [hgathers, Stage.isGathering]⟩)
          · have hless : (Path.segments w.folder).length < depth := by
              rw [← hdepth]
              exact length_lt_of_isUnder (h.family.below _ _ hlink)
            exact ih _ hless ⟨w, hw, rfl, hbad'⟩ rfl
        · exact absurd hended (hstands.suits.of_isSpoiled hbad true)
    | _ => simp [hstage, Stage.isSpoiled, Stage.how?] at hbad

/-- The first visit is below no other, so it is never dropped. -/
theorem Watched.not_dropped (h : Watched p source active phase s) :
    s.ending? ≠ some .dropped := by
  obtain ⟨v, rest, hvisits, hstart, -⟩ := exists_head h.family
  intro hdropped
  have hstage := (ending?_eq_some_iff hvisits).mp hdropped
  have hbeneath := (h.stands v (by simp [hvisits])).doomed (Or.inr (by simp [hstage, Stage.how?]))
  rw [hstart] at hbeneath
  cases hbeneath with
  | child hf _ => exact h.family.ne_start hf rfl
  | further hf _ => exact h.family.ne_start hf rfl

theorem Watched.blamed (h : Watched p source active phase s) {e : Fault}
    (hfailed : s.ending? = some (.failed e)) : Blamed source p.options e := by
  obtain ⟨v, rest, hvisits, -⟩ := exists_head h.family
  have hstage := (ending?_eq_some_iff hvisits).mp hfailed
  exact (h.stands v (by simp [hvisits])).blamed e (by simp [hstage, Stage.how?])

/-- Once the first visit has ended well, so have all, and there was no failure. -/
theorem Watched.all_done (h : Watched p source active phase s) (hdone : s.ending? = some .done) :
    (∀ v ∈ s.visits, v.stage = .over .done) ∧ s.traversal.failures = [] := by
  obtain ⟨first, rest, hvisits, hstart, -⟩ := exists_head h.family
  have hstage := (ending?_eq_some_iff hvisits).mp hdone
  have hsuits := (h.stands first (by simp [hvisits])).suits
  rw [hstage, hstart] at hsuits
  have hall : ∀ v ∈ s.visits, v.stage = .over .done := by
    intro v hv
    have hended := h.family.all_over hsuits v.folder (List.mem_map_of_mem (links_mem hv))
    exact Stage.Suits.ended (hended ▸ (h.stands v hv).suits)
  refine ⟨hall, ?_⟩
  by_contra hfailed
  obtain ⟨f, v, hv, -, hbad⟩ := h.burnt hfailed
  simp [hall v hv, Stage.isSpoiled, Stage.how?] at hbad

/-- A walk that has ended well has listed every folder, and none of them raises an error. -/
theorem Watched.none_blamed (h : Watched p source active phase s) (hdescends : p.descends = true)
    (hroom : s.traversal.isFull p = false) (hdone : s.ending? = some .done) (e : Fault) :
    ¬ Blamed source p.options e := by
  obtain ⟨hall, -⟩ := h.all_done hdone
  have hheard : ∀ f ∈ s.folders, (∀ e, ¬ Raises source p.options f e) ∧
      ∀ d ∈ source.level f, Shows f d → d.path ∈ s.folders := by
    intro f hf
    obtain ⟨v, hv, rfl⟩ := List.mem_map.mp hf
    rcases (h.stands v hv).heard (Or.inr (by simp [hall v hv, Stage.how?])) with
        hfull | ⟨hnone, hshown⟩
    · simp [hroom] at hfull
    · rw [← h.visited]
      exact ⟨hnone, hshown hdescends⟩
  have hlisted : ∀ f, Reached source p.options.folder f → f ∈ s.folders := by
    intro f hf
    induction hf with
    | start =>
      rw [folders_eq]
      exact List.mem_map_of_mem h.family.start_mem
    | down _ hd hshows ih => exact (hheard _ ih).2 _ hd hshows
  rintro ⟨f, hf, hraises⟩
  exact (hheard f (hlisted f hf)).1 e hraises

theorem running_comeBack : (s.comeBack p source v).running = s.running := by
  rcases comeBack_cases p source s v with ⟨e, more, -, heq⟩ | ⟨-, heq⟩
  · rw [heq, running_finish, running_release]
  · rw [heq]
    simp only
    split
    · rw [running_finish, running_release]
    · exact running_release

/-- Where calls take no time, none is left running. -/
theorem running_turn (hinstant : Instant source) (hnone : s.running = []) :
    (s.turn p source v).running = [] := by
  have henter : ∀ s : Timeline, s.running = [] → (s.enter p source v).running = [] := by
    intro s hnone
    rw [enter_eq, if_neg (hinstant v.folder)]
    split
    · rw [running_finish, running_release]
      exact hnone
    · rw [running_comeBack]
      exact hnone
  unfold Timeline.turn
  split
  · simp only [Timeline.dropVisit, running_finish]
    cases v.stage with
    | fresh | gathering n | «over» how | queued => exact hnone
    | granted => exact running_release.trans hnone
    | calling | returned => exact running_release.trans (by simp [hnone])
    | gathered how => exact running_cancelBelow.trans hnone
  · cases v.stage with
    | fresh =>
      simp only
      split
      · exact hnone
      · exact henter _ hnone
    | granted =>
      refine henter _ ?_
      split
      · exact running_wakeNext.trans hnone
      · exact hnone
    | returned => exact running_comeBack.trans hnone
    | gathered how =>
      cases how with
      | done => exact (running_finish .done).trans hnone
      | failed e => exact (running_finish _).trans (running_cancelBelow.trans hnone)
      | dropped => exact (running_finish _).trans (running_cancelBelow.trans hnone)
    | queued | calling | gathering n | «over» how => exact hnone

theorem Move.running_eq_nil (hmove : Move p source s s') (hinstant : Instant source)
    (hnone : s.running = []) : s'.running = [] := by
  cases hmove with
  | @handle e rest hopen hagenda =>
    cases e with
    | turn f =>
      simp only [Timeline.handle]
      split
      · exact running_turn (s := { s with agenda := rest }) hinstant hnone
      · exact hnone
    | report f =>
      simp only [Timeline.handle]
      split
      · unfold Timeline.report
        repeat' split
        all_goals exact hnone
      · exact hnone
  | elapse now hopen hperm hdue =>
    rw [hnone, List.perm_nil, List.append_eq_nil_iff] at hperm
    exact absurd hperm.1 hdue

structure Sound (p : Plan) (source : Source) (d n : Nat) (s : Timeline) : Prop where
  watched : ∃ phase, Watched p source none phase s
  healthy : s.traversal.failures = [] → ∃ roles log past, Fair p.forgiving roles log past s ∧
    Steady source.forgiving past
  moves : n + s.cost d ≤ (d + 3) * s.visits.length

theorem Sound.start (p : Plan) (source : Source) (d : Nat) : Sound p source d 0 (.start p) where
  watched := ⟨_, Watched.start p source⟩
  healthy _ := ⟨_, _, [], Fair.start p.forgiving, by simp [Steady]⟩
  moves := by
    simp [Timeline.start, cost, Event.cost, Visit.cost]
    omega

theorem Sound.move (h : Sound p source d n s) (hreply : source'.reply = source.reply)
    (hd : 5 ≤ d ∨ 1 ≤ d ∧ Instant source') (hmove : Move p source' s s') :
    Sound p source d (n + 1) s' := by
  obtain ⟨phase, hwatched⟩ := h.watched
  refine ⟨hwatched.step hreply hmove.step, ?_, ?_⟩
  · intro hnone
    obtain ⟨hbefore, hforgiven⟩ := hmove.forgiving hnone
    obtain ⟨roles, log, past, hfair, hsteady⟩ := h.healthy hbefore
    obtain ⟨roles', log', hfair'⟩ := hfair.move p.options.forgiving_total
      (fun f _ => source'.forgiving_calm f) hforgiven
    refine ⟨roles', log', _, hfair', fun m hm => ?_⟩
    rcases List.mem_append.mp hm with hm | hm
    · exact hsteady m hm
    · obtain rfl : m = ⟨source'.forgiving, s, s'⟩ := by simpa using hm
      simp [Source.forgiving, Source.level_congr hreply]
  · have hspent := hwatched.spends hmove.step hd
    have hmoves := h.moves
    omega

theorem Sound.of_now (h : Sound p source d n s) (now : Float) :
    Sound p source d n { s with now := now } := by
  obtain ⟨phase, hwatched⟩ := h.watched
  refine ⟨⟨phase, hwatched.of_running now (List.Perm.refl s.running)⟩, fun hnone => ?_, h.moves⟩
  obtain ⟨roles, log, past, hfair, hsteady⟩ := h.healthy hnone
  exact ⟨roles, log, past, hfair.of_now now, hsteady⟩

theorem Sound.busy (h : Sound p source d n s) (hopen : s.ending? = none) :
    (∃ e rest, s.agenda = e :: rest) ∨ s.running ≠ [] := by
  by_cases hnone : s.traversal.failures = []
  · obtain ⟨roles, log, past, hfair, -⟩ := h.healthy hnone
    exact hfair.busy hopen
  · obtain ⟨phase, hwatched⟩ := h.watched
    obtain ⟨f, hspoiled⟩ := hwatched.burnt hnone
    exact Or.inl (hwatched.busy hspoiled hopen)

theorem Sound.moves_le (h : Sound p source d n s) {reached : List String}
    (hreached : ∀ f, Reached source p.options.folder f → f ∈ reached) :
    n ≤ (d + 3) * reached.length := by
  obtain ⟨phase, hwatched⟩ := h.watched
  have hmoves := h.moves
  have hle := Nat.mul_le_mul_left (d + 3) (hwatched.visits_le hreached)
  omega

theorem Runs.sound (hrun : Runs p past s) (hsame : Steady source past) :
    Sound p source 5 past.length s := by
  induction hrun with
  | start => exact Sound.start p source 5
  | @move past source' s s' hrun hmove ih =>
    have hbefore := ih fun m hm => hsame m (List.mem_append_left _ hm)
    rw [List.length_append, List.length_singleton]
    exact hbefore.move (hsame ⟨source', s, s'⟩ (by simp)) (Or.inl le_rfl) hmove

theorem sound_invariant (hreply : source'.reply = source.reply)
    (hd : 5 ≤ d ∨ 1 ≤ d ∧ Instant source') : Invariant p source' fun n s =>
      Sound p source d n s ∧ (Instant source' → s.running = []) where
  move := by
    rintro n s s' ⟨h, hquiet⟩ hmove
    exact ⟨h.move hreply hd hmove, fun hinstant =>
      hmove.running_eq_nil hinstant (hquiet hinstant)⟩
  clock := by
    rintro n s now ⟨h, hquiet⟩ -
    exact ⟨h.of_now now, hquiet⟩
  busy n s h hopen := h.1.busy hopen
  quiet hinstant n s h := h.2 hinstant

/-- The walk on the clock, and when it is sure to end. -/
theorem run_sound (p : Plan) (hreply : source'.reply = source.reply) {reached : List String}
    (hreached : ∀ f, Reached source p.options.folder f → f ∈ reached)
    (hends : (run p source').ending?.isSome ∨
      Instant source' ∧ reached.length ≤ source'.folders + 1) :
    ∃ d n, Sound p source d n (run p source') ∧ (run p source').ending?.isSome := by
  rcases hends with hended | ⟨hinstant, hbound⟩
  · obtain ⟨n, ⟨h, -⟩, -⟩ := (sound_invariant hreply (Or.inl le_rfl)).steps
      ⟨Sound.start p source 5, fun _ => rfl⟩ (7 * (source'.folders + 1))
    exact ⟨5, n, h, hended⟩
  · obtain ⟨n, ⟨h, -⟩, hcount⟩ := (sound_invariant hreply (Or.inr ⟨le_rfl, hinstant⟩)).steps
      ⟨Sound.start p source 1, fun _ => rfl⟩ (7 * (source'.folders + 1))
    refine ⟨1, n, h, (hcount hinstant).elim id fun heq => ?_⟩
    have hle := h.moves_le hreached
    omega

end Timeline

/-- What a listing answers with when folders may fail: an error if some folder raises one, and
then one of those raised; else the levels of all folders, one after another. -/
structure Verdict (source : Source) (o : Options) (answer : Except Fault (List Entry)) : Prop where
  fails : (∃ e, answer = .error e) ↔ ∃ e, Blamed source o e
  blamed : ∀ e, answer = .error e → Blamed source o e
  lists : ∀ es, answer = .ok es → ∃ order, Enumerates source o.folder order ∧
    es = passing source o order

namespace Timeline

variable {p : Plan} {source : Source} {s : Timeline} {d n : Nat}

/-- How a walk ends. -/
theorem Sound.verdict (h : Sound p source d n s) (hdescends : p.descends = true)
    (hlimit : p.options.limit = none) (hended : s.ending?.isSome) :
    Verdict source p.options (s.outcome p) := by
  obtain ⟨phase, hwatched⟩ := h.watched
  obtain ⟨how, hhow⟩ := Option.isSome_iff_exists.mp hended
  cases how with
  | dropped => exact absurd hhow hwatched.not_dropped
  | failed e =>
    have houtcome : s.outcome p = .error e := by simp [Timeline.outcome, hhow]
    have hblamed := hwatched.blamed hhow
    rw [houtcome]
    exact ⟨iff_of_true ⟨e, rfl⟩ ⟨e, hblamed⟩, fun e' he => (Except.error.inj he) ▸ hblamed,
      fun es hes => by simp at hes⟩
  | done =>
    obtain ⟨-, hnone⟩ := hwatched.all_done hhow
    obtain ⟨roles, log, past, hfair, hsteady⟩ := h.healthy hnone
    obtain ⟨order, horder, houtcome⟩ := hfair.complete hsteady hdescends hlimit hended
    have hanswer : s.outcome p = .ok (passing source p.options order) := by
      refine houtcome.trans ?_
      simp [passing, Plan.forgiving]
    rw [hanswer]
    refine ⟨iff_of_false (by simp) ?_, by simp, fun es hes => ⟨order, ?_, ?_⟩⟩
    · rintro ⟨e, he⟩
      exact hwatched.none_blamed hdescends (isFull_of_unlimited hlimit _) hhow e he
    · exact horder.of_level rfl
    · exact (Except.ok.inj hes).symm

end Timeline

/-- A walk over a store whose calls take no time, if the store tells how many folders there
may be. -/
theorem list_verdict {hierarchical : Bool} {o : Options} (store : Options → Source)
    (hlocal : hierarchical = false ∨ o.mode = .localOnly) (hrecurse : o.recurse = true)
    (hlimit : o.limit = none)
    (hinstant : Timeline.Instant (store (Plan.ofOptions hierarchical o).callOptions))
    (reached : List String)
    (hreached : ∀ f, Reached (store (Plan.ofOptions hierarchical o).callOptions) o.folder f →
      f ∈ reached)
    (hbound : reached.length ≤ (store (Plan.ofOptions hierarchical o).callOptions).folders + 1) :
    Verdict (store (Plan.ofOptions hierarchical o).callOptions) o
      (list hierarchical o store).answer := by
  obtain ⟨d, n, h, hended⟩ := Timeline.run_sound (Plan.ofOptions hierarchical o) rfl hreached
    (Or.inr ⟨hinstant, hbound⟩)
  have hanswer : (list hierarchical o store).answer =
      (Timeline.run (Plan.ofOptions hierarchical o)
        (store (Plan.ofOptions hierarchical o).callOptions)).outcome
          (Plan.ofOptions hierarchical o) := by
    simp [list, hlimit]
  rw [hanswer]
  exact h.verdict (descends_of_local hlocal hrecurse) hlimit hended

end Depot.Listing
