import Depot.Proofs.Listing.Completeness
import Depot.Proofs.Listing.Marking

/-!
What makes a listing fail. A folder raises an error when its call fails though the folder
is not missing, or when the filter fails on an entry of its level. As long as a listing has
come across none of these it goes the same way as over a store that answers for every
folder, with a filter that answers for every entry; what holds of such a listing holds
of this one.
-/
namespace Depot.Listing

inductive Raises (source : Source) (o : Options) (f : String) : Fault → Prop
  | call {e : Fault} (hreply : source.reply f = .error e) (hmissing : e.isMissing = false) :
      Raises source o f e
  | filter {e : Fault} {level : List Entry} {d : Entry} {test : Filter}
      (hreply : source.reply f = .ok level) (hd : d ∈ level) (hmatch : o.isMatch d = true)
      (hfilter : o.filter = some test) (htest : test d = .error e) : Raises source o f e

/-- An error of a folder that the levels of the store lead to. -/
def Blamed (source : Source) (o : Options) (e : Fault) : Prop :=
  ∃ f, Reached source o.folder f ∧ Raises source o f e

namespace Options

theorem accepts_eq_error_iff {o : Options} {d : Entry} {e : Fault} :
    o.accepts d = .error e ↔
      o.isMatch d = true ∧ ∃ test, o.filter = some test ∧ test d = .error e := by
  unfold accepts
  split
  · rename_i hmatch
    cases hfilter : o.filter with
    | none => simp
    | some test => simp [hmatch]
  · rename_i hmatch
    simp [hmatch]

def forgiving (o : Options) : Options :=
  { o with filter := o.filter.map fun test d =>
      match test d with
      | .ok pass => .ok pass
      | .error _ => .ok false }

theorem forgiving_total (o : Options) : o.forgiving.Total := by
  intro test htest d
  simp only [forgiving, Option.map_eq_some_iff] at htest
  obtain ⟨inner, -, rfl⟩ := htest
  cases hinner : inner d with
  | ok pass => exact ⟨pass, by simp [hinner]⟩
  | error e => exact ⟨false, by simp [hinner]⟩

@[simp] theorem passes_forgiving (o : Options) : o.forgiving.passes = o.passes := by
  funext d
  have hmatch : o.forgiving.isMatch d = o.isMatch d := rfl
  unfold passes accepts
  rw [hmatch]
  cases hd : o.isMatch d with
  | false => rfl
  | true =>
    cases hfilter : o.filter with
    | none => simp [forgiving, hfilter]
    | some test => cases htest : test d <;> simp [forgiving, hfilter, htest]

end Options

def Plan.forgiving (p : Plan) : Plan := { p with options := p.options.forgiving }

def Source.forgiving (source : Source) : Source :=
  { source with reply := fun f => .ok (source.level f) }

@[simp] theorem Source.level_forgiving (source : Source) : source.forgiving.level = source.level :=
  rfl

theorem Source.forgiving_calm (source : Source) (f : String) :
    Timeline.Calm source.forgiving f :=
  ⟨source.level f, rfl⟩

namespace Traversal

variable {p : Plan} {t : Traversal} {source : Source} {f : String}

/-- A level is filtered throughout, or the filter fails on one of its entries. -/
theorem acceptEach_cases (o : Options) (level : List Entry) :
    (∃ kept e, acceptEach o level = (kept, some e) ∧ ∃ d ∈ level, o.accepts d = .error e) ∨
      (acceptEach o level = (level.filter o.passes, none) ∧
        ∀ d ∈ level, ∀ e, o.accepts d ≠ .error e) := by
  induction level with
  | nil => exact Or.inr ⟨rfl, by simp⟩
  | cons d rest ih =>
    cases hd : o.accepts d with
    | error e => exact Or.inl ⟨[], e, by simp [acceptEach, hd], d, by simp, hd⟩
    | ok pass =>
      have hpasses : o.passes d = pass := by simp [Options.passes, hd]
      rcases ih with ⟨kept, e, heq, c, hc, herror⟩ | ⟨heq, hnone⟩
      · exact Or.inl ⟨if pass then d :: kept else kept, e, by simp [acceptEach, hd, heq], c,
          List.mem_cons_of_mem _ hc, herror⟩
      · refine Or.inr ⟨?_, ?_⟩
        · cases pass <;> simp [acceptEach, hd, heq, hpasses]
        · intro c hc e
          rcases List.mem_cons.mp hc with rfl | hc
          · simp [hd]
          · exact hnone c hc e

theorem found_forgiving (level : List Entry) :
    t.found p.forgiving f level = t.found p f level := by
  simp only [found, merged, Plan.forgiving, Options.passes_forgiving]
  rfl

/-- A level that comes back as a whole. -/
theorem absorb_level {level : List Entry} (hlevel : levelOf (source.reply f) = .ok level)
    (haccepted : acceptEach p.options level = (level.filter p.options.passes, none)) :
    t.absorb p f (source.reply f) = t.absorb p.forgiving f (source.forgiving.reply f) := by
  have hshown : levelOf (source.forgiving.reply f) = .ok level := by
    show Except.ok (source.level f) = .ok level
    rw [Source.level, hlevel]
  have haccepted' : acceptEach p.forgiving.options level = acceptEach p.options level := by
    rw [haccepted, Plan.forgiving, acceptEach_eq p.options.forgiving_total,
      Options.passes_forgiving]
  have hfull : ∀ t : Traversal, t.isFull p.forgiving = t.isFull p := fun _ => rfl
  have hdescends : p.forgiving.descends = p.descends := rfl
  simp only [absorb, hlevel, hshown, haccepted', haccepted, hfull, hdescends]

/-- A call comes back with an error of its folder, or the folder has none and is merged just
as the forgiving store shows it. -/
theorem absorb_cases (p : Plan) (t : Traversal) (source : Source) (f : String) :
    (∃ e more, Raises source p.options f e ∧ t.absorb p f (source.reply f) =
      { t with
        inFlight := t.inFlight.erase f
        result := t.result ++ more
        failures := t.failures ++ [e] }) ∨
    ((∀ e, ¬ Raises source p.options f e) ∧
      t.absorb p f (source.reply f) = t.absorb p.forgiving f (source.forgiving.reply f)) := by
  cases hreply : source.reply f with
  | error e =>
    cases hmissing : e.isMissing with
    | false =>
      refine Or.inl ⟨e, [], .call hreply hmissing, ?_⟩
      simp [absorb, levelOf, hmissing, fail]
    | true =>
      refine Or.inr ⟨?_, ?_⟩
      · intro e' hraises
        cases hraises with
        | call hreply' hmissing' =>
          obtain rfl : e = e' := by simpa [hreply] using hreply'
          simp [hmissing] at hmissing'
        | filter hreply' => simp [hreply] at hreply'
      · rw [← hreply]
        exact absorb_level (by rw [hreply, levelOf, if_pos hmissing]) rfl
  | ok level =>
    rcases acceptEach_cases p.options level with ⟨kept, e, heq, d, hd, herror⟩ | ⟨heq, hnone⟩
    · obtain ⟨hmatch, test, hfilter, htest⟩ := Options.accepts_eq_error_iff.mp herror
      refine Or.inl ⟨e, kept, .filter hreply hd hmatch hfilter htest, ?_⟩
      simp [absorb, levelOf, heq, fail]
    · refine Or.inr ⟨?_, ?_⟩
      · intro e hraises
        cases hraises with
        | call hreply' => simp [hreply] at hreply'
        | filter hreply' hd hmatch hfilter htest =>
          obtain rfl := Except.ok.inj (hreply.symm.trans hreply')
          exact hnone _ hd e (Options.accepts_eq_error_iff.mpr ⟨hmatch, _, hfilter, htest⟩)
      · rw [← hreply]
        exact absorb_level (by rw [hreply, levelOf]) heq

def taken (p : Plan) (t : Traversal) (folder : String) (level : List Entry) : Traversal :=
  { t with
    inFlight := t.inFlight.erase folder
    result := t.result ++ level.filter p.options.passes
    visited := t.visited ++ t.found p folder level
    waiting := t.waiting ++ t.found p folder level }

theorem absorb_forgiven :
    t.absorb p.forgiving f (source.forgiving.reply f) = t.taken p f (source.level f) := by
  rw [absorb_eq p.options.forgiving_total rfl, found_forgiving, Plan.forgiving,
    Options.passes_forgiving, taken]

/-- A failure that came back is never forgotten. -/
theorem absorb_forgiving (h : (t.absorb p f (source.reply f)).failures = []) :
    t.failures = [] ∧
      t.absorb p f (source.reply f) = t.absorb p.forgiving f (source.forgiving.reply f) := by
  rcases absorb_cases p t source f with ⟨e, more, -, heq⟩ | ⟨-, heq⟩
  · simp [heq] at h
  · refine ⟨?_, heq⟩
    rwa [heq, absorb_forgiven] at h

end Traversal

namespace Timeline

variable {p p' : Plan} {source source' : Source} {s : Timeline} {v : Visit}

theorem comeBack_congr (h : s.traversal.absorb p v.folder (source.reply v.folder) =
    s.traversal.absorb p' v.folder (source'.reply v.folder)) :
    s.comeBack p source v = s.comeBack p' source' v := by
  simp only [comeBack, traversal_release, h]

theorem comeBack_of_reply (hreply : source'.reply = source.reply) :
    s.comeBack p source' v = s.comeBack p source v :=
  comeBack_congr (by rw [hreply])

/-- A call comes back with an error of its folder, which ends the visit, or with a level. -/
theorem comeBack_cases (p : Plan) (source : Source) (s : Timeline) (v : Visit) :
    (∃ e more, Raises source p.options v.folder e ∧ s.comeBack p source v =
      { s.release with traversal := { s.traversal with
          inFlight := s.traversal.inFlight.erase v.folder
          result := s.traversal.result ++ more
          failures := s.traversal.failures ++ [e] } }.finish v (.failed e)) ∨
    ((∀ e, ¬ Raises source p.options v.folder e) ∧ s.comeBack p source v =
      let found := s.traversal.found p v.folder (source.level v.folder)
      let t := s.traversal.taken p v.folder (source.level v.folder)
      if found = [] then { s.release with traversal := t }.finish v .done
      else { s.release.awaiting v.folder found with traversal := t }) := by
  rcases s.traversal.absorb_cases p source v.folder with ⟨e, more, hraises, heq⟩ | ⟨hnone, heq⟩
  · refine Or.inl ⟨e, more, hraises, ?_⟩
    simp only [comeBack, traversal_release, heq, List.drop_left, List.head?_cons]
  · refine Or.inr ⟨hnone, ?_⟩
    rw [comeBack_congr heq, comeBack_eq p.options.forgiving_total rfl,
      Traversal.found_forgiving, back, Traversal.absorb_forgiven]
    rfl

theorem comeBack_forgiving (h : (s.comeBack p source v).traversal.failures = []) :
    s.traversal.failures = [] ∧
      s.comeBack p source v = s.comeBack p.forgiving source.forgiving v := by
  rw [traversal_comeBack] at h
  exact (Traversal.absorb_forgiving h).imp_right comeBack_congr

def launched (p : Plan) (s : Timeline) (folder : String) : Timeline :=
  { s with
    traversal := s.traversal.launch p folder
    peak := max s.peak (s.traversal.launch p folder).inFlight.length }

theorem enter_eq : s.enter p source v =
    if s.traversal.isFull p then (s.launched p v.folder).release.finish v .done
    else if 0 < source.duration v.folder then
      { (s.launched p v.folder).setStage v.folder .calling with
        running := s.running ++ [(v.folder, s.now + source.duration v.folder)] }
    else (s.launched p v.folder).comeBack p source v := rfl

theorem enter_forgiving (h : (s.enter p source v).traversal.failures = []) :
    s.traversal.failures = [] ∧ s.enter p source v = s.enter p.forgiving source.forgiving v := by
  have hfailures : (s.launched p v.folder).traversal.failures = s.traversal.failures :=
    Traversal.failures_launch
  have hfull : s.traversal.isFull p.forgiving = s.traversal.isFull p := rfl
  have hduration : source.forgiving.duration = source.duration := rfl
  have hlaunched : s.launched p.forgiving v.folder = s.launched p v.folder := rfl
  simp only [enter_eq, hfull, hduration, hlaunched] at h ⊢
  split at h
  · rename_i hstop
    rw [traversal_finish, traversal_release, hfailures] at h
    simp only [hstop, if_true]
    exact ⟨h, trivial⟩
  · rename_i hroom
    rw [if_neg hroom, if_neg hroom]
    split at h
    · rename_i htime
      rw [if_pos htime, if_pos htime]
      exact ⟨hfailures ▸ h, rfl⟩
    · rename_i htime
      rw [if_neg htime, if_neg htime, ← hfailures]
      exact comeBack_forgiving h

theorem traversal_dropVisit :
    (s.dropVisit v).traversal = s.traversal.abandon v.folder := by
  simp only [dropVisit, traversal_finish]
  cases v.stage <;> simp [leaveLine]

theorem turn_forgiving (h : (s.turn p source v).traversal.failures = []) :
    s.traversal.failures = [] ∧ s.turn p source v = s.turn p.forgiving source.forgiving v := by
  cases hcancelled : v.cancelled with
  | true =>
    simp only [turn, hcancelled, if_true] at h ⊢
    rw [traversal_dropVisit] at h
    exact ⟨h, trivial⟩
  | false =>
    simp only [turn, hcancelled, Bool.false_eq_true, if_false] at h ⊢
    cases hstage : v.stage with
    | fresh =>
      simp only [hstage] at h ⊢
      split at h
      · rename_i hmust
        rw [if_pos hmust, if_pos hmust]
        exact ⟨h, rfl⟩
      · rename_i hmust
        rw [if_neg hmust, if_neg hmust]
        exact enter_forgiving h
    | granted =>
      simp only [hstage] at h ⊢
      obtain ⟨hnone, heq⟩ := enter_forgiving h
      refine ⟨?_, heq⟩
      split at hnone
      · rwa [traversal_wakeNext] at hnone
      · exact hnone
    | returned =>
      simp only [hstage] at h ⊢
      exact comeBack_forgiving h
    | gathered how =>
      cases how with
      | done =>
        simp only [hstage, traversal_finish] at h ⊢
        exact ⟨h, trivial⟩
      | failed e =>
        simp only [hstage, traversal_finish, traversal_cancelBelow] at h ⊢
        exact ⟨h, trivial⟩
      | dropped =>
        simp only [hstage, traversal_finish, traversal_cancelBelow] at h ⊢
        exact ⟨h, trivial⟩
    | queued | calling | gathering n | «over» how =>
      simp only [hstage] at h ⊢
      exact ⟨h, trivial⟩

@[simp] theorem traversal_report (above : String) (how : Ending) :
    (s.report above how).traversal = s.traversal := by
  unfold Timeline.report
  repeat' split
  all_goals rfl

/-- An event that brings no failure in is handled as if there could be none. -/
theorem handle_forgiving {e : Event} (h : (s.handle p source e).traversal.failures = []) :
    s.traversal.failures = [] ∧
      s.handle p source e = s.handle p.forgiving source.forgiving e := by
  cases e with
  | turn folder =>
    simp only [handle] at h ⊢
    cases hvisit : s.visit? folder with
    | none =>
      simp only [hvisit] at h ⊢
      exact ⟨h, trivial⟩
    | some v =>
      simp only [hvisit] at h ⊢
      exact turn_forgiving h
  | report folder =>
    refine ⟨?_, rfl⟩
    simp only [handle] at h
    split at h
    · rwa [traversal_report] at h
    · exact h

@[simp] theorem traversal_arrive_all (due : List (String × Float)) (s : Timeline) :
    (due.foldl arrive s).traversal = s.traversal :=
  List.foldlRecOn (motive := fun s' : Timeline => s'.traversal = s.traversal) _ _ rfl
    fun _ hs' _ _ => hs'

/-- A move that brings no failure in is one over the forgiving store. -/
theorem Move.forgiving {s' : Timeline} (h : Move p source s s')
    (hnone : s'.traversal.failures = []) :
    s.traversal.failures = [] ∧ Move p.forgiving source.forgiving s s' := by
  cases h with
  | @handle e rest hopen hagenda =>
    obtain ⟨hbefore, heq⟩ := handle_forgiving hnone
    rw [heq]
    exact ⟨hbefore, .handle hopen hagenda⟩
  | elapse now hopen hperm hdue =>
    rw [Timeline.elapse, traversal_arrive_all] at hnone
    exact ⟨hnone, .elapse now hopen hperm hdue⟩

end Timeline

end Depot.Listing
