import Depot.Proofs.Listing.Endings
import Mathlib.Data.Set.Card

/-!
Completeness of a walk that goes down by itself over a store that stays the same.
The folders that its levels lead to are each listed once, whatever the order in which
the calls come back, and the answer is what passes in their levels, one after another.
-/
namespace Depot.Listing

namespace Source

def level (source : Source) (folder : String) : List Entry :=
  match Traversal.levelOf (source.reply folder) with
  | .ok level => level
  | .error _ => []

/-- A call answers with a level or says that there is no such folder. -/
def Answers (source : Source) : Prop :=
  ∀ f, (∃ level, source.reply f = .ok level) ∨ ∃ e, source.reply f = .error e ∧ e.isMissing = true

theorem Answers.calm {source : Source} (h : source.Answers) (f : String) :
    Timeline.Calm source f := by
  rcases h f with ⟨level, hreply⟩ | ⟨e, hreply, hmissing⟩
  · exact ⟨level, by simp [Traversal.levelOf, hreply]⟩
  · exact ⟨[], by simp [Traversal.levelOf, hreply, hmissing]⟩

end Source

inductive Reached (source : Source) (start : String) : String → Prop
  | start : Reached source start start
  | down {f : String} {e : Entry} (hf : Reached source start f) (he : e ∈ source.level f)
      (hshows : Shows f e) : Reached source start e.path

/-- All folders that the levels of a store lead to, each after one that shows it. -/
structure Enumerates (source : Source) (start : String) (order : List String) : Prop where
  unique : order.Nodup
  complete : ∀ f, f ∈ order ↔ Reached source start f
  first : order.head? = some start
  after : ∀ pre f post, order = pre ++ f :: post → f = start ∨
    ∃ g ∈ pre, ∃ e ∈ source.level g, Shows g e ∧ e.path = f

namespace Timeline

variable {p : Plan} {roles : String → Role} {log : List Level} {s s' : Timeline}
  {source : Source} {past : List Moment} {start f : String}

/-- A record of a store that stays the same shows only what its levels lead to. -/
theorem reached_of_order (hlevels : ∀ l ∈ log, l.2 = source.level l.1)
    (horder : ∀ pre l post, log = pre ++ l :: post → l.1 = start ∨
      ∃ m ∈ pre, ∃ e ∈ m.2, Shows m.1 e ∧ e.path = l.1) :
    ∀ l ∈ log, Reached source start l.1 := by
  have hall : ∀ n, ∀ pre post, pre.length = n → log = pre ++ post →
      ∀ l ∈ pre, Reached source start l.1 := by
    intro n
    induction n with
    | zero =>
      intro pre post hlength _ l hl
      simp [List.length_eq_zero_iff.mp hlength] at hl
    | succ n ih =>
      intro pre post hlength hlog l hl
      rcases List.eq_nil_or_concat pre with rfl | ⟨init, last, rfl⟩
      · simp at hl
      · simp only [List.concat_eq_append] at hlength hlog hl
        have hinit := ih init (last :: post) (by simpa using hlength) (by simpa using hlog)
        rcases List.mem_append.mp hl with hl | hl
        · exact hinit l hl
        · obtain rfl : l = last := by simpa using hl
          rcases horder init l post (by simpa using hlog) with
              hfirst | ⟨m, hm, e, he, hshows, hpath⟩
          · exact hfirst ▸ .start
          · rw [← hpath]
            refine .down (hinit m hm) ?_ hshows
            rwa [← hlevels m (by rw [hlog]; simp [hm])]
  exact hall log.length log [] rfl (by simp)

/-- In the order of a record every folder comes after one that shows it. -/
theorem after_of_order (hlevels : ∀ l ∈ log, l.2 = source.level l.1)
    (horder : ∀ pre l post, log = pre ++ l :: post → l.1 = start ∨
      ∃ m ∈ pre, ∃ e ∈ m.2, Shows m.1 e ∧ e.path = l.1)
    (pre : List String) (f : String) (post : List String)
    (hsplit : log.map Prod.fst = pre ++ f :: post) :
    f = start ∨ ∃ g ∈ pre, ∃ e ∈ source.level g, Shows g e ∧ e.path = f := by
  obtain ⟨pre', rest, hlog, hpre, hrest⟩ := List.map_eq_append_iff.mp hsplit
  obtain ⟨l, post', hcons, hl, hpost⟩ := List.map_eq_cons_iff.mp hrest
  subst hpre hl hpost hcons
  rcases horder pre' l post' hlog with hfirst | ⟨m, hm, e, he, hshows, hpath⟩
  · exact Or.inl hfirst
  · refine Or.inr ⟨m.1, List.mem_map_of_mem hm, e, ?_, hshows, hpath⟩
    rwa [← hlevels m (by rw [hlog]; simp [hm])]

theorem Account.enumerates (h : Account start log) (hlevels : ∀ l ∈ log, l.2 = source.level l.1) :
    Enumerates source start (log.map Prod.fst) where
  unique := h.unique
  first := h.first
  complete f := by
    constructor
    · intro hf
      obtain ⟨l, hl, rfl⟩ := List.mem_map.mp hf
      exact reached_of_order hlevels h.order l hl
    · intro hf
      induction hf with
      | start => exact List.mem_of_head? h.first
      | @down f e _ he hshows ih =>
        obtain ⟨l, hl, rfl⟩ := List.mem_map.mp ih
        rw [← hlevels l hl] at he
        exact h.closed l hl e he hshows
  after := after_of_order hlevels h.order

def Steady (source : Source) (past : List Moment) : Prop :=
  ∀ m ∈ past, m.source.reply = source.reply

theorem Fair.levels (h : Fair p roles log past s) (hsame : Steady source past) :
    ∀ l ∈ log, l.2 = source.level l.1 := by
  intro l hl
  obtain ⟨m, hm, hreply, -⟩ := h.answers l hl
  rw [hsame m hm] at hreply
  simp [Source.level, hreply]

/-- Whatever has a visit can be reached. -/
theorem Fair.folders_reached (h : Fair p roles log past s) (hsame : Steady source past)
    (hf : f ∈ s.folders) : Reached source p.options.folder f := by
  rw [folders_eq] at hf
  obtain ⟨⟨g, above⟩, hlink, rfl⟩ := List.mem_map.mp hf
  cases above with
  | none => exact h.kept.family.eq_start hlink ▸ .start
  | some a =>
    obtain ⟨level, hlog, e, he, hshows, hpath⟩ := h.kept.record.found g a hlink
    have hlevels := h.levels hsame
    have ha := reached_of_order hlevels h.kept.record.order (a, level) hlog
    obtain rfl : level = source.level a := hlevels (a, level) hlog
    exact hpath ▸ .down ha he hshows

/-- A run makes at most six moves for each folder that can be reached. -/
theorem Fair.moves_le (h : Fair p roles log past s) (hsame : Steady source past)
    {reached : List String} (hreached : ∀ f, Reached source p.options.folder f → f ∈ reached) :
    past.length ≤ 6 * reached.length := by
  have hmoves := h.moves
  have hscore := score_le roles s
  have hlength : s.folders.length ≤ reached.length := by
    have hsub : s.folders.Subperm reached :=
      List.subperm_of_subset h.kept.ledger.unique fun f hf =>
        hreached f (h.folders_reached hsame hf)
    exact hsub.length_le
  omega

/-- How a run over a steady store ends. -/
theorem Fair.complete (h : Fair p roles log past s) (hsame : Steady source past)
    (hdescends : p.descends = true) (hlimit : p.options.limit = none)
    (hended : s.ending?.isSome) :
    ∃ order, Enumerates source p.options.folder order ∧
      s.outcome p = .ok (order.flatMap fun f => (source.level f).filter p.options.passes) := by
  have hlevels := h.levels hsame
  refine ⟨log.map Prod.fst, (h.account hdescends hlimit hended).enumerates hlevels, ?_⟩
  have hanswer : (log.flatMap fun l => l.2.filter p.options.passes) =
      (log.map Prod.fst).flatMap fun f => (source.level f).filter p.options.passes := by
    rw [List.flatMap_map]
    apply List.flatMap_congr
    intro l hl
    rw [hlevels l hl]
  rw [h.outcome hlimit, hanswer]

/-- A step of the schedule is a move, unless only the clock moves on. -/
theorem step?_cases (hstep : s.step? p source = some s') :
    Move p source s s' ∨ (s.running ≠ [] ∧ ∃ now, s' = { s with now := now }) := by
  unfold step? at hstep
  cases hopen : s.ending? with
  | some how => simp [hopen] at hstep
  | none =>
    have hnone : s.ending?.isNone := by simp [hopen]
    cases hagenda : s.agenda with
    | cons e rest =>
      simp only [hopen, hagenda, Option.some.injEq] at hstep
      exact Or.inl (hstep ▸ .handle hnone hagenda)
    | nil =>
      simp only [hopen, hagenda, moveOn?] at hstep
      cases hends : s.running.map (·.2) with
      | nil => simp [hends] at hstep
      | cons e more =>
        simp only [hends, Option.some.injEq] at hstep
        generalize more.foldl (fun a b => if b < a then b else a) e = now at hstep
        have hrunning : s.running ≠ [] := by
          rintro hnil
          simp [hnil] at hends
        let due := (s.running.filter (·.2 < now + resolution)).mergeSort fun a b => a.2 ≤ b.2
        let left := s.running.filter fun r => !(decide (r.2 < now + resolution))
        have hperm : (due ++ left).Perm s.running :=
          ((List.mergeSort_perm _ _).append_right left).trans (List.filter_append_perm _ _)
        have hs' : s' = s.elapse now due left := by
          simp only [elapse, hagenda]
          exact hstep.symm
        cases hdue : due with
        | nil =>
          have hnobody : s.running.filter (·.2 < now + resolution) = [] := by
            apply List.Perm.eq_nil
            rw [← hdue]
            exact (List.mergeSort_perm _ _).symm
          have hleft : left = s.running := by
            apply List.filter_eq_self.mpr
            intro r hr
            simpa using List.filter_eq_nil_iff.mp hnobody r hr
          refine Or.inr ⟨hrunning, now, ?_⟩
          rw [hs', hdue, hleft]
          simp only [elapse, List.foldl_nil, hagenda]
        | cons call calls =>
          rw [hs']
          exact Or.inl (.elapse now hnone hperm (by simp [hdue]))

theorem Fair.running_eq_nil (h : Fair p roles log past s)
    (hinstant : ∀ m ∈ past, Instant m.source) : s.running = [] := by
  rw [List.eq_nil_iff_forall_not_mem]
  intro call hcall
  have hcount := h.kept.ledger.running call.1
  have hpos : 0 < (s.running.map Prod.fst).count call.1 :=
    List.count_pos_iff.mpr (List.mem_map_of_mem hcall)
  have hquiet := h.quiet hinstant call.1
  cases hrole : roles call.1 with
  | calling => simp [hrole, Role.IsOut] at hquiet
  | _ =>
    rw [hcount, hrole] at hpos
    simp [Role.calls] at hpos

def Fixed (source : Source) (past : List Moment) : Prop := ∀ m ∈ past, m.source = source

theorem Fixed.steady (h : Fixed source past) : Steady source past :=
  fun m hm => by rw [h m hm]

theorem Fixed.concat (h : Fixed source past) (s s' : Timeline) :
    Fixed source (past ++ [⟨source, s, s'⟩]) := by
  intro m hm
  rcases List.mem_append.mp hm with hm | hm
  · exact h m hm
  · obtain rfl : m = ⟨source, s, s'⟩ := by simpa using hm
    rfl

/-- The schedule stops only when there is nothing to do. -/
theorem step?_ne_none (hopen : s.ending? = none)
    (hbusy : (∃ e rest, s.agenda = e :: rest) ∨ s.running ≠ []) : s.step? p source ≠ none := by
  unfold Timeline.step?
  cases hagenda : s.agenda with
  | cons e rest => simp [hopen]
  | nil =>
    rcases hbusy with ⟨e, rest, hsome⟩ | hrunning
    · simp [hagenda] at hsome
    · cases hcalls : s.running with
      | nil => exact absurd hcalls hrunning
      | cons call calls => simp [hopen, moveOn?, hcalls]

/-- What every state on the clock satisfies, with the number of the moves so far. -/
structure Invariant (p : Plan) (source : Source) (I : Nat → Timeline → Prop) : Prop where
  move : ∀ n s s', I n s → Move p source s s' → I (n + 1) s'
  clock : ∀ n s now, I n s → s.running ≠ [] → I n { s with now := now }
  busy : ∀ n s, I n s → s.ending? = none → (∃ e rest, s.agenda = e :: rest) ∨ s.running ≠ []
  quiet : Instant source → ∀ n s, I n s → s.running = []

/-- The schedule stops only at the end of the listing, and it makes a move in every step where
calls take no time. -/
theorem Invariant.steps {I : Nat → Timeline → Prop} (hI : Invariant p source I) {n : Nat}
    (h : I n s) (fuel : Nat) : ∃ n', I n' (steps p source fuel s) ∧
      (Instant source → (steps p source fuel s).ending?.isSome ∨ n' = n + fuel) := by
  induction fuel generalizing n s with
  | zero => exact ⟨n, h, fun _ => Or.inr rfl⟩
  | succ fuel ih =>
    cases hstep : s.step? p source with
    | none =>
      simp only [Timeline.steps, hstep]
      refine ⟨n, h, fun _ => Or.inl ?_⟩
      by_contra hopen
      have hnone : s.ending? = none := by simpa using hopen
      exact step?_ne_none hnone (hI.busy n s h hnone) hstep
    | some s' =>
      simp only [Timeline.steps, hstep]
      rcases step?_cases hstep with hmove | ⟨hrunning, now, rfl⟩
      · obtain ⟨n', h', hcount⟩ := ih (hI.move n s s' h hmove)
        refine ⟨n', h', fun hinstant => (hcount hinstant).imp_right fun heq => ?_⟩
        omega
      · obtain ⟨n', h', -⟩ := ih (hI.clock n s now h hrunning)
        exact ⟨n', h', fun hinstant => absurd (hI.quiet hinstant n s h) hrunning⟩

theorem Fair.of_now (h : Fair p roles log past s) (now : Float) :
    Fair p roles log past { s with now := now } :=
  ⟨h.kept.of_running now (List.Perm.refl s.running), h.rested, h.answers, h.quiet, h.moves⟩

theorem fair_invariant (hfilter : p.options.Total)
    (hcalm : ∀ f, Reached source p.options.folder f → Calm source f) :
    Invariant p source fun n s => ∃ roles log past, Fair p roles log past s ∧
      Fixed source past ∧ past.length = n where
  move := by
    rintro n s s' ⟨roles, log, past, h, hfixed, rfl⟩ hmove
    obtain ⟨roles', log', h'⟩ := h.move hfilter
      (fun f hf => hcalm f (h.folders_reached hfixed.steady hf)) hmove
    exact ⟨roles', log', _, h', hfixed.concat s s', by simp⟩
  clock := by
    rintro n s now ⟨roles, log, past, h, hfixed, hlength⟩ -
    exact ⟨roles, log, past, h.of_now now, hfixed, hlength⟩
  busy := by
    rintro n s ⟨roles, log, past, h, -⟩ hopen
    exact h.busy hopen
  quiet := by
    rintro hinstant n s ⟨roles, log, past, h, hfixed, -⟩
    exact h.running_eq_nil fun m hm => hfixed m hm ▸ hinstant

/-- The schedule of a store whose calls take no time makes a move in every step. -/
theorem Fair.steps (h : Fair p roles log past s) (hfilter : p.options.Total)
    (hcalm : ∀ f, Reached source p.options.folder f → Calm source f)
    (hfixed : Fixed source past) (n : Nat) :
    ∃ roles' log' past', Fair p roles' log' past' (steps p source n s) ∧ Fixed source past' ∧
      (Instant source → (steps p source n s).ending?.isSome ∨ past'.length = past.length + n) := by
  obtain ⟨n', ⟨roles', log', past', h', hfixed', hlength⟩, hend⟩ :=
    (fair_invariant hfilter hcalm).steps ⟨roles, log, past, h, hfixed, rfl⟩ n
  exact ⟨roles', log', past', h', hfixed', hlength ▸ hend⟩

/-- The schedule of a walk over a store without failures, and when it is sure to end. -/
theorem run_fair (p : Plan) (hfilter : p.options.Total)
    (hcalm : ∀ f, Reached source p.options.folder f → Calm source f) :
    ∃ roles log past, Fair p roles log past (run p source) ∧ Fixed source past ∧
      ∀ reached : List String, (∀ f, Reached source p.options.folder f → f ∈ reached) →
        Instant source → reached.length ≤ source.folders + 1 →
        (run p source).ending?.isSome := by
  obtain ⟨roles, log, past, h, hfixed, hmoves⟩ :=
    (Fair.start p).steps hfilter hcalm (by simp [Fixed]) (7 * (source.folders + 1))
  refine ⟨roles, log, past, h, hfixed, fun reached hreached hinstant hbound => ?_⟩
  rcases hmoves hinstant with hended | hlength
  · exact hended
  · have hle := h.moves_le hfixed.steady hreached
    simp only [List.length_nil] at hlength
    omega

end Timeline

variable {hierarchical : Bool} {o : Options}

theorem descends_of_local (hlocal : hierarchical = false ∨ o.mode = .localOnly)
    (hrecurse : o.recurse = true) : (Plan.ofOptions hierarchical o).descends = true := by
  rcases hlocal with h | h <;> simp [Plan.ofOptions, h, hrecurse]

/-- What a walk that goes down by itself answers once it has ended. -/
theorem list_of_ended (store : Options → Source)
    (hlocal : hierarchical = false ∨ o.mode = .localOnly) (hrecurse : o.recurse = true)
    (hlimit : o.limit = none) (hfilter : o.Total)
    (hcalm : ∀ f, Reached (store (Plan.ofOptions hierarchical o).callOptions) o.folder f →
      Timeline.Calm (store (Plan.ofOptions hierarchical o).callOptions) f)
    (hended : (Timeline.run (Plan.ofOptions hierarchical o)
      (store (Plan.ofOptions hierarchical o).callOptions)).ending?.isSome) :
    ∃ order, Enumerates (store (Plan.ofOptions hierarchical o).callOptions) o.folder order ∧
      (list hierarchical o store).answer = .ok (order.flatMap fun f =>
        ((store (Plan.ofOptions hierarchical o).callOptions).level f).filter o.passes) := by
  obtain ⟨roles, log, past, h, hfixed, -⟩ :=
    Timeline.run_fair (Plan.ofOptions hierarchical o) hfilter hcalm
  obtain ⟨order, horder, houtcome⟩ := h.complete hfixed.steady
    (descends_of_local hlocal hrecurse) hlimit hended
  refine ⟨order, horder, ?_⟩
  simp only [list, hlimit, reduceCtorEq, if_false]
  exact houtcome

/-- A walk over a store whose calls take no time ends, if the store tells how many folders
there may be. -/
theorem list_of_instant (store : Options → Source)
    (hlocal : hierarchical = false ∨ o.mode = .localOnly) (hrecurse : o.recurse = true)
    (hlimit : o.limit = none) (hfilter : o.Total)
    (hcalm : ∀ f, Reached (store (Plan.ofOptions hierarchical o).callOptions) o.folder f →
      Timeline.Calm (store (Plan.ofOptions hierarchical o).callOptions) f)
    (hinstant : Timeline.Instant (store (Plan.ofOptions hierarchical o).callOptions))
    (reached : List String)
    (hreached : ∀ f, Reached (store (Plan.ofOptions hierarchical o).callOptions) o.folder f →
      f ∈ reached)
    (hbound : reached.length ≤ (store (Plan.ofOptions hierarchical o).callOptions).folders + 1) :
    ∃ order, Enumerates (store (Plan.ofOptions hierarchical o).callOptions) o.folder order ∧
      (list hierarchical o store).answer = .ok (order.flatMap fun f =>
        ((store (Plan.ofOptions hierarchical o).callOptions).level f).filter o.passes) := by
  obtain ⟨-, -, -, -, -, hends⟩ :=
    Timeline.run_fair (Plan.ofOptions hierarchical o) hfilter hcalm
  exact list_of_ended store hlocal hrecurse hlimit hfilter hcalm
    (hends reached hreached hinstant hbound)

theorem perm_of_enumerates {source : Source} {start : String} {order order' : List String}
    (h : Enumerates source start order) (h' : Enumerates source start order') :
    order.Perm order' := by
  rw [List.perm_ext_iff_of_nodup h.unique h'.unique]
  intro f
  rw [h.complete, h'.complete]

def passing (source : Source) (o : Options) (order : List String) : List Entry :=
  order.flatMap fun f => (source.level f).filter o.passes

/-- A finite list of all folders that can be reached. -/
theorem exists_reached {source : Source} {start : String}
    (hfinite : {f | Reached source start f}.Finite) :
    ∃ reached : List String, reached.length = {f | Reached source start f}.ncard ∧
      ∀ f, Reached source start f → f ∈ reached := by
  refine ⟨hfinite.toFinset.toList, ?_, ?_⟩
  · rw [Finset.length_toList, Set.ncard_eq_toFinset_card _ hfinite]
  · intro f hf
    simpa using hf

/-- A run of a walk that goes down by itself over a store that stays the same. -/
theorem Timeline.Runs.walk {p : Plan} {source : Source} {past : List Timeline.Moment}
    {s : Timeline} {reached : List String} (hrun : Timeline.Runs p past s)
    (hsame : Timeline.Steady source past) (hdescends : p.descends = true)
    (hlimit : p.options.limit = none) (hfilter : p.options.Total) (hanswers : source.Answers)
    (hreached : ∀ f, Reached source p.options.folder f → f ∈ reached) :
    past.length ≤ 6 * reached.length ∧
      (s.ending? = none → ∃ s', Timeline.Move p source s s') ∧
      (s.ending?.isSome → ∃ order, Enumerates source p.options.folder order ∧
        s.outcome p = .ok (passing source p.options order)) := by
  have hcalm : ∀ m ∈ past, ∀ f, Timeline.Calm m.source f := by
    intro m hm f
    unfold Timeline.Calm
    rw [hsame m hm]
    exact hanswers.calm f
  obtain ⟨roles, log, h⟩ := hrun.fair hfilter hcalm
  exact ⟨h.moves_le hsame hreached, fun hopen => h.goes_on source hopen,
    fun hended => h.complete hsame hdescends hlimit hended⟩

section Replies

variable {source source' : Source} {start f : String} {order : List String}

theorem Source.level_congr (hreply : source'.reply = source.reply) :
    source'.level = source.level := by
  funext f
  simp only [Source.level, hreply]

theorem Source.Answers.congr (h : source.Answers) (hreply : source'.reply = source.reply) :
    source'.Answers := by
  intro f
  rw [hreply]
  exact h f

theorem reached_of_level (hlevel : source'.level = source.level) :
    Reached source' start f ↔ Reached source start f := by
  constructor
  all_goals
    intro hf
    induction hf with
    | start => exact .start
    | down _ he hshows ih => exact .down ih (by simpa [hlevel] using he) hshows

theorem reached_congr (hreply : source'.reply = source.reply) :
    Reached source' start f ↔ Reached source start f :=
  reached_of_level (Source.level_congr hreply)

theorem Enumerates.of_level (h : Enumerates source' start order)
    (hlevel : source'.level = source.level) : Enumerates source start order := by
  refine ⟨h.unique, fun f => (h.complete f).trans (reached_of_level hlevel), h.first, ?_⟩
  rw [← hlevel]
  exact h.after

theorem Enumerates.congr (h : Enumerates source' start order)
    (hreply : source'.reply = source.reply) : Enumerates source start order :=
  h.of_level (Source.level_congr hreply)

end Replies

/-- A walk that goes down by itself over a store that answers the same whenever it is
asked. Whatever calls come back first, the walk is never stuck and makes at most six moves
for each folder that can be reached; when it ends it answers all that passes in the levels
of just these folders, each listed once, the first one first and every other one after
a folder that shows it. Runs with other threads answer the same entries in some order, and
so does the walk on the clock. -/
theorem local_recursion_complete (hierarchical : Bool) (o : Options) (source : Source)
    (hlocal : hierarchical = false ∨ o.mode = .localOnly) (hrecurse : o.recurse = true)
    (hlimit : o.limit = none) (hfilter : o.Total) (hanswers : source.Answers)
    (hfinite : {f | Reached source o.folder f}.Finite) :
    (∀ past s, Timeline.Runs (Plan.ofOptions hierarchical o) past s → Timeline.Steady source past →
      past.length ≤ 6 * {f | Reached source o.folder f}.ncard ∧
      (s.ending? = none → ∃ s', Timeline.Move (Plan.ofOptions hierarchical o) source s s') ∧
      (s.ending?.isSome → ∃ order, Enumerates source o.folder order ∧
        s.outcome (Plan.ofOptions hierarchical o) = .ok (passing source o order))) ∧
    (∀ threads, (hthreads : 0 < threads) →
      ∀ past s, Timeline.Runs (Plan.ofOptions hierarchical o) past s →
        Timeline.Steady source past → s.ending?.isSome →
      ∀ past' s', Timeline.Runs (Plan.ofOptions hierarchical
          { o with threads := threads, threads_pos := hthreads }) past' s' →
        Timeline.Steady source past' → s'.ending?.isSome →
      ∃ es es', s.outcome (Plan.ofOptions hierarchical o) = .ok es ∧
        s'.outcome (Plan.ofOptions hierarchical
          { o with threads := threads, threads_pos := hthreads }) = .ok es' ∧ es.Perm es') ∧
    (∀ store : Options → Source,
      (store (Plan.ofOptions hierarchical o).callOptions).reply = source.reply →
      (Timeline.run (Plan.ofOptions hierarchical o)
          (store (Plan.ofOptions hierarchical o).callOptions)).ending?.isSome ∨
        (Timeline.Instant (store (Plan.ofOptions hierarchical o).callOptions) ∧
          {f | Reached source o.folder f}.ncard ≤
            (store (Plan.ofOptions hierarchical o).callOptions).folders + 1) →
      ∃ order, Enumerates source o.folder order ∧
        (list hierarchical o store).answer = .ok (passing source o order)) := by
  obtain ⟨reached, hlength, hreached⟩ := exists_reached hfinite
  have hdescends := descends_of_local hlocal hrecurse
  refine ⟨?_, ?_, ?_⟩
  · intro past s hrun hsame
    rw [← hlength]
    exact hrun.walk hsame hdescends hlimit hfilter hanswers hreached
  · intro threads hthreads past s hrun hsame hended past' s' hrun' hsame' hended'
    obtain ⟨-, -, hfirst⟩ := hrun.walk hsame hdescends hlimit hfilter hanswers hreached
    obtain ⟨-, -, hsecond⟩ := hrun'.walk hsame' hdescends hlimit hfilter hanswers hreached
    obtain ⟨order, horder, houtcome⟩ := hfirst hended
    obtain ⟨order', horder', houtcome'⟩ := hsecond hended'
    refine ⟨_, _, houtcome, houtcome', ?_⟩
    exact (perm_of_enumerates horder horder').flatMap_right _
  · intro store hreply hends
    have hanswers' := hanswers.congr hreply
    obtain ⟨order, horder, hanswer⟩ : ∃ order,
        Enumerates (store (Plan.ofOptions hierarchical o).callOptions) o.folder order ∧
        (list hierarchical o store).answer =
          .ok (passing (store (Plan.ofOptions hierarchical o).callOptions) o order) := by
      rcases hends with hended | ⟨hinstant, hbound⟩
      · exact list_of_ended store hlocal hrecurse hlimit hfilter
          (fun f _ => hanswers'.calm f) hended
      · exact list_of_instant store hlocal hrecurse hlimit hfilter
          (fun f _ => hanswers'.calm f) hinstant reached
          (fun f hf => hreached f ((reached_congr hreply).mp hf)) (by omega)
    refine ⟨order, horder.congr hreply, ?_⟩
    rw [hanswer]
    simp only [passing, Source.level_congr hreply]

def everything : Options := { Options.default with recurse := true }

theorem everything_total : everything.Total := by
  intro test htest
  simp [everything, Options.default] at htest

def twoLevels : Source where
  reply folder :=
    if folder = "" then .ok [.plain .folder "a" none, .plain .file "b" (some 1)]
    else if folder = "a" then .ok [.plain .file "a/c" (some 2)]
    else .error .missingFile
  duration _ := 0
  folders := 1

theorem twoLevels_reached {f : String} (hf : Reached twoLevels "" f) : f = "" ∨ f = "a" := by
  induction hf with
  | start => exact Or.inl rfl
  | @down f e _ he hshows ih =>
    obtain ⟨hfolder, -⟩ := hshows
    rcases ih with rfl | rfl
    · simp only [Source.level, twoLevels, Traversal.levelOf, if_true, List.mem_cons,
        List.not_mem_nil, or_false] at he
      rcases he with rfl | rfl
      · exact Or.inr (by decide)
      · exact absurd hfolder (by decide)
    · simp only [Source.level, twoLevels, Traversal.levelOf, String.reduceEq, if_false, if_true,
        List.mem_singleton] at he
      subst he
      exact absurd hfolder (by decide)

theorem twoLevels_answers : twoLevels.Answers := by
  intro f
  by_cases hroot : f = ""
  · exact Or.inl ⟨_, if_pos hroot⟩
  · by_cases hfolder : f = "a"
    · exact Or.inl ⟨_, (if_neg hroot).trans (if_pos hfolder)⟩
    · exact Or.inr ⟨_, (if_neg hroot).trans (if_neg hfolder), rfl⟩

theorem local_recursion_complete_twoLevels :
    ∃ order, Enumerates twoLevels "" order ∧
      (list false everything fun _ => twoLevels).answer =
        .ok (passing twoLevels everything order) := by
  have hsub : {f | Reached twoLevels "" f} ⊆ {"", "a"} := fun f hf => twoLevels_reached hf
  have hcard : {f | Reached twoLevels "" f}.ncard ≤ twoLevels.folders + 1 :=
    (Set.ncard_le_ncard hsub).trans (Set.ncard_pair (by decide)).le
  exact (local_recursion_complete false everything twoLevels
    (Or.inl rfl) rfl rfl everything_total twoLevels_answers
    (Set.Finite.subset (by simp) hsub)).2.2 (fun _ => twoLevels) rfl
    (Or.inr ⟨fun _ => show ¬ (0 : Float) < 0 by decide, hcard⟩)

end Depot.Listing
