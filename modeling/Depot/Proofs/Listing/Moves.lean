import Depot.Proofs.Listing.Turn
import Mathlib.Algebra.Group.Action.Defs
import Mathlib.Algebra.Order.BigOperators.Group.Finset

/-!
Runs of a listing in which calls come back in any order. A move handles the first
event of the agenda or brings some of the running calls back; the clock plays no
part in it. A run that meets no failure never gets stuck before its end, and each of
its moves takes some visit on, of which there are at most six stretches for each.
-/
namespace Depot.Listing.Timeline

def arrive (s : Timeline) (call : String × Float) : Timeline :=
  (s.setStage call.1 .returned).push (.turn call.1)

def elapse (s : Timeline) (now : Float) (due left : List (String × Float)) : Timeline :=
  due.foldl arrive { s with now := now, running := left }

inductive Move (p : Plan) (source : Source) (s : Timeline) : Timeline → Prop
  | handle {e : Event} {rest : List Event} (hopen : s.ending?.isNone)
      (hagenda : s.agenda = e :: rest) :
      Move p source s ({ s with agenda := rest }.handle p source e)
  | elapse (now : Float) {due left : List (String × Float)} (hopen : s.ending?.isNone)
      (hperm : (due ++ left).Perm s.running) (hdue : due ≠ []) :
      Move p source s (s.elapse now due left)

inductive Step (p : Plan) (source : Source) (s : Timeline) : Timeline → Prop
  | handle {e : Event} {rest : List Event} (hagenda : s.agenda = e :: rest) :
      Step p source s ({ s with agenda := rest }.handle p source e)
  | elapse (now : Float) {due left : List (String × Float)}
      (hperm : (due ++ left).Perm s.running) (hdue : due ≠ []) :
      Step p source s (s.elapse now due left)

/-- A move is a step before the end of the listing. -/
theorem Move.step {p : Plan} {source : Source} {s s' : Timeline} (h : Move p source s s') :
    Step p source s s' := by
  cases h with
  | handle _ hagenda => exact .handle hagenda
  | elapse now _ hperm hdue => exact .elapse now hperm hdue

structure Moment where
  source : Source
  before : Timeline
  after : Timeline

/-- The moves in `past`, one after another, lead from the start to a state. -/
inductive Runs (p : Plan) : List Moment → Timeline → Prop
  | start : Runs p [] (.start p)
  | move {past : List Moment} {source : Source} {s s' : Timeline} (hrun : Runs p past s)
      (hmove : Move p source s s') : Runs p (past ++ [⟨source, s, s'⟩]) s'

def Instant (source : Source) : Prop := ∀ f, ¬ 0 < source.duration f

variable {p : Plan} {roles : String → Role} {log : List Level} {s s' : Timeline}
  {source : Source} {past : List Moment}

theorem Kept.of_running (h : Kept p roles log s) (now : Float) {running : List (String × Float)}
    (hperm : running.Perm s.running) :
    Kept p roles log { s with now := now, running := running } := by
  refine ⟨?_, h.served, h.family, h.record⟩
  refine ⟨h.ledger.unique, h.ledger.absent, h.ledger.fits, h.ledger.turns, h.ledger.reports,
    h.ledger.line, fun f => ?_, h.ledger.permits⟩
  rw [← h.ledger.running f]
  exact (hperm.map Prod.fst).count_eq f

/-- One call comes back. -/
theorem Kept.arrive {call : String × Float} (left : List (String × Float))
    (h : Kept p roles log { s with running := call :: left }) :
    ∃ roles', Kept p roles' log ({ s with running := left }.arrive call) ∧
      roles call.1 = .calling ∧ roles' = Function.update roles call.1 .returned := by
  have hrole : roles call.1 = .calling := by
    have hcount := h.ledger.running call.1
    simp only [List.map_cons, List.count_cons_self] at hcount
    cases hr : roles call.1 with
    | calling => rfl
    | _ => simp [hr, Role.calls] at hcount
  have hserved : Served (Function.update roles call.1 .returned)
      ({ s with running := left }.arrive call) :=
    h.served.update _ (by simp [hrole]) (by simp) rfl
  exact ⟨_, h.of_ledger (by simp [hrole, Role.phase]) (h.ledger.comeBack hrole) hserved
    (links_setStage .returned) rfl, hrole, rfl⟩

/-- Calls that come back one after another; nobody else is touched. -/
theorem Kept.arrive_all {due left : List (String × Float)}
    (h : Kept p roles log { s with running := due ++ left }) :
    ∃ roles', Kept p roles' log (due.foldl Timeline.arrive { s with running := left }) ∧
      ∀ g, (g ∈ due.map Prod.fst ∧ roles g = .calling ∧ roles' g = .returned) ∨
        (g ∉ due.map Prod.fst ∧ roles' g = roles g) := by
  induction due generalizing roles s with
  | nil => exact ⟨roles, h, fun g => Or.inr ⟨by simp, rfl⟩⟩
  | cons call rest ih =>
    obtain ⟨roles₁, hkept, hrole, rfl⟩ := Kept.arrive (rest ++ left) h
    obtain ⟨roles', hkept', hrest⟩ := ih (s := s.arrive call) hkept
    refine ⟨roles', hkept', fun g => ?_⟩
    by_cases hg : g = call.1
    · subst hg
      refine Or.inl ⟨by simp, hrole, ?_⟩
      rcases hrest call.1 with ⟨-, hcalling, -⟩ | ⟨-, hsame⟩
      · simp at hcalling
      · simpa using hsame
    · have hg' := hrest g
      rw [Function.update_of_ne hg] at hg'
      simpa [hg] using hg'

theorem Kept.elapse (h : Kept p roles log s) (now : Float) {due left : List (String × Float)}
    (hperm : (due ++ left).Perm s.running) (hdue : due ≠ []) :
    Advances p source roles log s (s.elapse now due left) := by
  obtain ⟨roles', hkept, hroles⟩ := Kept.arrive_all (s := { s with now := now })
      (h.of_running now hperm)
  have hcall : ∃ call, call ∈ due := List.exists_mem_of_ne_nil due hdue
  obtain ⟨call, hcall⟩ := hcall
  refine ⟨roles', log, hkept, Or.inl rfl, ⟨fun g => ?_, ?_, fun g hg => ?_, fun g hg => ?_⟩⟩
  · rcases hroles g with ⟨-, hold, hnew⟩ | ⟨-, hsame⟩
    · simp [hold, hnew, Role.progress]
    · rw [hsame]
  · rcases hroles call.1 with ⟨-, hold, hnew⟩ | ⟨hout, -⟩
    · exact ⟨call.1, h.ledger.mem_folders (by simp [hold]), by simp [hold, hnew, Role.progress]⟩
    · exact absurd (List.mem_map_of_mem hcall) hout
  · rcases hroles g with ⟨-, hold, -⟩ | ⟨-, hsame⟩
    · exact Or.inl (Or.inl hold)
    · exact Or.inl (hsame ▸ hg)
  · rcases hroles g with ⟨-, -, hnew⟩ | ⟨-, hsame⟩
    · simp [hnew, Role.InTurn] at hg
    · exact hsame ▸ hg

theorem Kept.move (h : Kept p roles log s) (hfilter : p.options.Total)
    (hcalm : ∀ f ∈ s.folders, Calm source f) (hmove : Move p source s s') :
      Advances p source roles log s s' := by
  cases hmove with
  | @handle e rest hopen hagenda =>
    cases e with
    | turn f => exact h.turn hfilter hcalm hagenda
    | report f => exact h.report source hagenda
  | elapse now hopen hperm hdue => exact h.elapse now hperm hdue

def score (roles : String → Role) (s : Timeline) : Nat :=
  ∑ f ∈ s.folders.toFinset, (roles f).progress

theorem score_le (roles : String → Role) (s : Timeline) : score roles s ≤ 6 * s.folders.length := by
  have hsum := Finset.sum_le_card_nsmul s.folders.toFinset (fun f => (roles f).progress) 6
    fun f _ => (roles f).progress_le
  have hcard := s.folders.toFinset_card_le
  simp only [smul_eq_mul] at hsum
  unfold score
  omega

/-- Every move adds to the score. -/
theorem Forward.score_lt {roles' : String → Role} (h : Forward source s roles roles')
    (hledger : Ledger p roles' s') : score roles s < score roles' s' := by
  have hsame : score roles s < ∑ f ∈ s.folders.toFinset, (roles' f).progress := by
    apply Finset.sum_lt_sum fun f _ => h.grow f
    obtain ⟨f, hf, hlt⟩ := h.gain
    exact ⟨f, List.mem_toFinset.mpr hf, hlt⟩
  have hmore : ∑ f ∈ s.folders.toFinset, (roles' f).progress ≤ score roles' s' := by
    apply Finset.sum_le_sum_of_ne_zero
    intro f _ hne
    apply List.mem_toFinset.mpr
    apply hledger.mem_folders
    intro habsent
    simp [habsent, Role.progress] at hne
  omega

/-- A level is what the store answered at some moment, and its call was made then if calls
take no time. -/
def TakenAt (past : List Moment) (l : Level) : Prop :=
  ∃ m ∈ past, Traversal.levelOf (m.source.reply l.1) = .ok l.2 ∧
    ((∀ m ∈ past, Instant m.source) →
      m.after.traversal.calls = m.before.traversal.calls ++ [l.1])

/-- A run without failures, with all that holds after its last move. -/
structure Fair (p : Plan) (roles : String → Role) (log : List Level) (past : List Moment)
    (s : Timeline) : Prop where
  kept : Kept p roles log s
  rested : ∀ f, ¬ (roles f).InTurn
  answers : ∀ l ∈ log, TakenAt past l
  quiet : (∀ m ∈ past, Instant m.source) → ∀ f, ¬ (roles f).IsOut
  moves : past.length ≤ score roles s

def startRoles (p : Plan) (f : String) : Role := if f = p.options.folder then .fresh else .absent

theorem Ledger.start (p : Plan) : Ledger p (startRoles p) (.start p) where
  unique := by simp [folders, Timeline.start]
  absent f := by
    by_cases hf : f = p.options.folder <;> simp [startRoles, folders, Timeline.start, hf]
  fits v hv := by
    obtain rfl : v = ⟨p.options.folder, none, .fresh, false⟩ := by
      simpa [Timeline.start] using hv
    simp [startRoles, Role.Fits]
  turns f := by
    by_cases hf : f = p.options.folder
    all_goals simp [startRoles, Timeline.start, hf, Ne.symm, Role.turns]
  reports f := by
    by_cases hf : f = p.options.folder <;> simp [startRoles, Timeline.start, hf, Role.reports]
  line f := by
    by_cases hf : f = p.options.folder <;> simp [startRoles, Timeline.start, hf, Role.places]
  running f := by
    by_cases hf : f = p.options.folder <;> simp [startRoles, Timeline.start, hf, Role.calls]
  permits := by simp [startRoles, Timeline.start, folders, Role.permits]

theorem Fair.start (p : Plan) : Fair p (startRoles p) [] [] (.start p) := by
  have hphase : Role.phase ∘ startRoles p =
      fun f => if f = p.options.folder then .early else .absent := by
    funext f
    by_cases hf : f = p.options.folder <;> simp [startRoles, hf, Role.phase]
  refine ⟨⟨Ledger.start p, ?_, hphase ▸ Family.single, hphase ▸ Record.start p⟩, ?_, by simp, ?_,
    by simp⟩
  · rintro ⟨f, hf⟩
    by_cases hs : f = p.options.folder <;> simp [startRoles, hs] at hf
  · intro f
    by_cases hf : f = p.options.folder <;> simp [startRoles, hf, Role.InTurn]
  · intro _ f
    by_cases hf : f = p.options.folder <;> simp [startRoles, hf, Role.IsOut]

theorem Fair.move (h : Fair p roles log past s) (hfilter : p.options.Total)
    (hcalm : ∀ f ∈ s.folders, Calm source f) (hmove : Move p source s s') :
    ∃ roles' log', Fair p roles' log' (past ++ [⟨source, s, s'⟩]) s' := by
  obtain ⟨roles', log', hkept, hlogged, hforward⟩ := h.kept.move hfilter hcalm hmove
  have hmoves := h.moves
  have hscore := hforward.score_lt hkept.ledger
  have hearlier : ∀ {P : Moment → Prop}, (∀ m ∈ past ++ [⟨source, s, s'⟩], P m) →
      (∀ m ∈ past, P m) ∧ P ⟨source, s, s'⟩ := fun hall =>
    ⟨fun m hm => hall m (List.mem_append_left _ hm), hall _ (by simp)⟩
  have hkeep : ∀ l ∈ log, TakenAt (past ++ [⟨source, s, s'⟩]) l := by
    intro l hl
    obtain ⟨m, hm, hreply, hcalls⟩ := h.answers l hl
    exact ⟨m, List.mem_append_left _ hm, hreply, fun hall => hcalls (hearlier hall).1⟩
  refine ⟨roles', log', hkept, fun f hf => h.rested f (hforward.rested f hf), ?_, ?_, ?_⟩
  · intro l hl
    rcases hlogged with rfl | ⟨f, level, hreply, rfl, hcalls⟩
    · exact hkeep l hl
    · rcases List.mem_append.mp hl with hl | hl
      · exact hkeep l hl
      · obtain rfl : l = (f, level) := by simpa using hl
        refine ⟨⟨source, s, s'⟩, by simp, hreply, fun hall => ?_⟩
        rcases hcalls with hout | hcalls
        · exact absurd hout (h.quiet (hearlier hall).1 f)
        · exact hcalls
  · intro hall f hout
    rcases hforward.out f hout with hbefore | htime
    · exact h.quiet (hearlier hall).1 f hbefore
    · exact (hearlier hall).2 f htime
  · rw [List.length_append, List.length_singleton]
    omega

theorem Runs.fair (hrun : Runs p past s) (hfilter : p.options.Total)
    (hcalm : ∀ m ∈ past, ∀ f, Calm m.source f) : ∃ roles log, Fair p roles log past s := by
  induction hrun with
  | start => exact ⟨startRoles p, [], Fair.start p⟩
  | @move past source s s' hrun hmove ih =>
    obtain ⟨roles, log, h⟩ := ih fun m hm => hcalm m (List.mem_append_left _ hm)
    exact h.move hfilter (fun f _ => hcalm ⟨source, s, s'⟩ (by simp) f) hmove

end Depot.Listing.Timeline
