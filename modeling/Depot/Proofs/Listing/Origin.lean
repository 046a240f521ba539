import Depot.Proofs.Listing.Books

/-!
Where the entries of an answer come from. Each of them stands in some level that the store
shows and passes the options, whatever the limit and the order of the calls, and also if the
filter or some folders fail.
-/
namespace Depot.Listing

def Drawn (source : Source) (o : Options) (e : Entry) : Prop :=
  o.passes e = true ∧ ∃ folder level, source.reply folder = .ok level ∧ e ∈ level

theorem Drawn.of_reply {source source' : Source} {o : Options} {e : Entry}
    (h : Drawn source o e) (hreply : source.reply = source'.reply) : Drawn source' o e := by
  obtain ⟨hpasses, folder, level, hlevel, he⟩ := h
  exact ⟨hpasses, folder, level, hreply ▸ hlevel, he⟩

namespace Traversal

variable {p : Plan} {source : Source} {t : Traversal} {folder : String}

theorem mem_acceptEach {o : Options} {level : List Entry} {e : Entry}
    (he : e ∈ (acceptEach o level).1) : e ∈ level ∧ o.passes e = true := by
  induction level with
  | nil => simp [acceptEach] at he
  | cons first rest ih =>
    unfold acceptEach at he
    cases haccepts : o.accepts first with
    | error f => simp [haccepts] at he
    | ok pass =>
      simp only [haccepts] at he
      have hrest : e ∈ (acceptEach o rest).1 → e ∈ first :: rest ∧ o.passes e = true := fun he =>
        ⟨List.mem_cons_of_mem _ (ih he).1, (ih he).2⟩
      cases pass with
      | false => exact hrest he
      | true =>
        rcases List.mem_cons.mp he with rfl | he
        · exact ⟨List.mem_cons_self, by simp [Options.passes, haccepts]⟩
        · exact hrest he

/-- A level with something in it is the answer of its call. -/
theorem reply_of_mem {reply : Reply} {level : List Entry} {e : Entry}
    (hlevel : levelOf reply = .ok level) (he : e ∈ level) : reply = .ok level := by
  unfold levelOf at hlevel
  split at hlevel
  · split at hlevel
    · rw [← Except.ok.inj hlevel] at he
      simp at he
    · cases hlevel
  · exact hlevel

/-- What a call that comes back adds to the result. -/
theorem result_absorb (p : Plan) (t : Traversal) (folder : String) (reply : Reply) :
    (t.absorb p folder reply).result = t.result ∨ ∃ level, levelOf reply = .ok level ∧
      (t.absorb p folder reply).result = t.result ++ (acceptEach p.options level).1 := by
  cases hlevel : levelOf reply with
  | error f =>
    simp only [absorb, hlevel]
    exact Or.inl rfl
  | ok level =>
    refine Or.inr ⟨level, rfl, ?_⟩
    simp only [absorb, hlevel]
    repeat' split
    all_goals rfl

theorem drawn_absorb (h : ∀ e ∈ t.result, Drawn source p.options e) :
    ∀ e ∈ (t.absorb p folder (source.reply folder)).result, Drawn source p.options e := by
  rcases result_absorb p t folder (source.reply folder) with heq | ⟨level, hlevel, heq⟩
  · rwa [heq]
  · rw [heq]
    intro e he
    rcases List.mem_append.mp he with he | he
    · exact h e he
    · obtain ⟨hmem, hpasses⟩ := mem_acceptEach he
      exact ⟨hpasses, folder, level, reply_of_mem hlevel hmem, hmem⟩

theorem mem_result_of_mem_entries {e : Entry} (he : e ∈ t.entries p) : e ∈ t.result := by
  unfold entries at he
  split at he
  · exact he
  · exact List.mem_of_mem_take he

end Traversal

namespace Timeline

variable {p : Plan} {source source' : Source} {s s' : Timeline} {v : Visit}
  {past : List Moment}

def AllDrawn (p : Plan) (source : Source) (s : Timeline) : Prop :=
  ∀ e ∈ s.traversal.result, Drawn source p.options e

theorem AllDrawn.of_result (h : AllDrawn p source s)
    (hresult : s'.traversal.result = s.traversal.result) : AllDrawn p source s' := by
  unfold AllDrawn
  rwa [hresult]

theorem AllDrawn.comeBack (h : AllDrawn p source s) :
    AllDrawn p source (s.comeBack p source v) := by
  unfold AllDrawn
  rw [traversal_comeBack]
  exact Traversal.drawn_absorb h

theorem AllDrawn.enter (h : AllDrawn p source s) : AllDrawn p source (s.enter p source v) := by
  have hlaunched : AllDrawn p source (s.launched p v.folder) :=
    h.of_result Traversal.result_launch
  rw [enter_eq]
  split
  · refine hlaunched.of_result ?_
    rw [traversal_finish, traversal_release]
  · split
    · exact hlaunched.of_result rfl
    · exact hlaunched.comeBack

/-- Only a call that comes back brings entries. -/
theorem AllDrawn.turn (h : AllDrawn p source s) : AllDrawn p source (s.turn p source v) := by
  cases hcancelled : v.cancelled with
  | true =>
    simp only [Timeline.turn, hcancelled, if_true]
    refine h.of_result ?_
    rw [traversal_dropVisit]
    rfl
  | false =>
    simp only [Timeline.turn, hcancelled, Bool.false_eq_true, if_false]
    cases v.stage with
    | fresh =>
      simp only
      split
      · exact h.of_result rfl
      · have hfewer : AllDrawn p source { s with permits := s.permits - 1 } := h.of_result rfl
        exact hfewer.enter
    | granted =>
      simp only
      refine AllDrawn.enter (h.of_result ?_)
      split
      · exact congrArg Traversal.result traversal_wakeNext
      · rfl
    | returned => exact h.comeBack
    | gathered how =>
      cases how with
      | done => exact h.of_result (congrArg Traversal.result (traversal_finish _))
      | failed e | dropped =>
        refine h.of_result ?_
        rw [traversal_finish, traversal_cancelBelow]
    | queued | calling | gathering n | «over» how => exact h

theorem AllDrawn.step (h : AllDrawn p source s) (hstep : Step p source s s') :
    AllDrawn p source s' := by
  cases hstep with
  | @handle e rest hagenda =>
    have hbefore : AllDrawn p source { s with agenda := rest } := h
    cases e with
    | turn f =>
      simp only [handle]
      split
      · exact hbefore.turn
      · exact hbefore
    | report f =>
      simp only [handle]
      split
      · exact hbefore.of_result (by rw [traversal_report])
      · exact hbefore
  | @elapse now due left hperm hdue =>
    exact h.of_result (congrArg Traversal.result (traversal_arrive_all due _))

theorem Course.allDrawn (hcourse : Course p past s) (hsame : Steady source past) :
    AllDrawn p source s := by
  refine (Course.induction (I := fun _ s => AllDrawn p source s) ?_ ?_ (fun _ _ _ h => h) hcourse
    hsame).1
  · simp [AllDrawn, Timeline.start, Traversal.start]
  · intro past source' s s' phase h _ hreply hstep
    have hnow : AllDrawn p source' s := fun e he => (h e he).of_reply hreply.symm
    exact fun e he => (hnow.step hstep e he).of_reply hreply

end Timeline

/-- Nothing is answered but what the store shows. -/
theorem drawn_of_list {hierarchical : Bool} {o : Options} {store : Options → Source}
    {es : List Entry} {e : Entry} (hlist : (list hierarchical o store).answer = .ok es)
    (he : e ∈ es) : Drawn (store (Plan.ofOptions hierarchical o).callOptions) o e := by
  by_cases hlimit : o.limit = some 0
  · simp only [list, if_pos hlimit, Except.ok.injEq] at hlist
    simp [← hlist] at he
  · simp only [list, if_neg hlimit, Timeline.outcome] at hlist
    obtain ⟨past, hcourse, hfixed, -⟩ := Timeline.run_course (Plan.ofOptions hierarchical o)
      (store (Plan.ofOptions hierarchical o).callOptions)
    split at hlist
    · cases hlist
    · rw [← Except.ok.inj hlist] at he
      exact hcourse.allDrawn hfixed.steady e (Traversal.mem_result_of_mem_entries he)

end Depot.Listing
