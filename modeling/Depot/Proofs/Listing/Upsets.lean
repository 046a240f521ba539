import Depot.Proofs.Listing.Passage

/-!
The steps of a listing in which folders may fail. Cancelling marks only what lies below a
spoiled visit, a report of a spoiled visit spoils the one above, and every step keeps what is
known of the visits.
-/
namespace Depot.Listing.Timeline

variable {p : Plan} {source source' : Source} {active active' : Option String}
  {phase phase' : String → Phase} {s s' : Timeline} {f : String} {v w : Visit} {stage : Stage}

theorem Underway.of_shape (h : Underway s) (hshape : s'.shape = s.shape)
    (hrunning : s'.running = s.running) : Underway s' := by
  refine ⟨hrunning ▸ h.unique, fun f hf => ?_⟩
  obtain ⟨v, hv, rfl, hcalling⟩ := h.calling f (hrunning ▸ hf)
  obtain ⟨w, hw, hfolder, -, hstage⟩ := exists_of_shape hshape hv
  exact ⟨w, hw, hfolder, hstage ▸ hcalling⟩

theorem Spoiled.of_shape (hshape : s'.shape = s.shape) (h : s.Spoiled f) : s'.Spoiled f := by
  obtain ⟨v, hv, rfl, hbad⟩ := h
  obtain ⟨w, hw, hfolder, -, hstage⟩ := exists_of_shape hshape hv
  exact ⟨w, hw, hfolder, hstage ▸ hbad⟩

theorem Beneath.of_shape (hshape : s'.shape = s.shape) (h : Beneath s.links s.Spoiled f) :
    Beneath s'.links s'.Spoiled f :=
  h.mono (fun _ hl => links_of_shape hshape ▸ hl) fun _ => Spoiled.of_shape hshape

/-- A visit below a spoiled one is marked. -/
theorem Watched.mark (h : Watched p source active phase s) (hv : v ∈ s.visits)
    (hopen : v.stage.isOver = false) (hbeneath : Beneath s.links s.Spoiled v.folder)
    (hvisits : s'.visits = (s.mark v.folder).visits)
    (hagenda : s'.agenda = s.agenda ∨ s'.agenda = s.agenda ++ [.turn v.folder])
    (htraversal : s'.traversal = s.traversal) (hrunning : s'.running = s.running) :
    Watched p source active phase s' := by
  have hstands := h.stands v hv
  have hshape : s'.shape = s.shape := by
    rw [← shape_mark (s := s) v.folder, shape, hvisits, shape]
  have hframe : Frame p s s' := .of_visit (g := fun v => { v with cancelled := true }) h.unique hv
    (fun _ => ⟨rfl, rfl⟩) hvisits id id htraversal
  have hreports : s'.agenda.count (.report v.folder) = s.agenda.count (.report v.folder) := by
    rcases hagenda with heq | heq <;> simp [heq, List.count_append]
  have hturn : .turn v.folder ∈ s.agenda → .turn v.folder ∈ s'.agenda := by
    rcases hagenda with heq | heq <;> simp [heq]
  -- All that is known of the visit is known still; that it is cancelled is news.
  have hsame : Stands p source active phase s' v :=
    hstands.frame hv hframe rfl hreports fun hdue hidle => hturn (hdue hidle)
  refine h.change (g := fun v => { v with cancelled := true }) hv (fun _ => ⟨rfl, rfl⟩) hvisits
    hframe ?_ (by rw [htraversal]) (by rw [htraversal]; exact Or.inl) (Or.inl rfl) h.family
    (fun _ _ => rfl) (h.underway.of_shape hshape hrunning) ?_
  · rcases hagenda with heq | heq
    · exact Or.inl heq
    · exact Or.inr (Or.inl heq)
  · refine ⟨hsame.suits, hsame.reports, hsame.turn, hsame.told, fun _ => hframe.beneath hbeneath,
      hsame.blamed, ?_, hsame.heard⟩
    intro hdone
    have hover : v.stage = .over .done := hdone
    simp [hover, Stage.isOver] at hopen

/-- What becomes of the visits below one when they are cancelled. -/
theorem Watched.cancelBelow (h : Watched p source active phase s)
    (hbeneath : ∀ g, (g, some f) ∈ s.links → Beneath s.links s.Spoiled g) :
    Watched p source active phase (s.cancelBelow f) := by
  have hbears : Bears (fun s' => Watched p source active phase s' ∧ s'.shape = s.shape)
      (Beneath s.links s.Spoiled) := by
    refine ⟨?_, ?_, ?_⟩
    · rintro s' a g ⟨-, hshape⟩ ha hlink
      exact .further (links_of_shape hshape ▸ hlink) ha
    · rintro s' v ⟨hs', hshape⟩ hv hvisit hdue
      refine ⟨hs'.mark (mem_of_visit? hvisit).1 ?_ ?_ rfl (Or.inl rfl) rfl rfl, ?_⟩
      · cases hstage : v.stage <;> simp_all [Stage.isDue, Stage.isOver]
      · exact hv.of_shape hshape
      · simp [hshape]
    · rintro s' v ⟨hs', hshape⟩ hv hvisit hidle -
      refine ⟨hs'.mark (mem_of_visit? hvisit).1 ?_ ?_ rfl (Or.inr rfl) rfl rfl, ?_⟩
      · cases hstage : v.stage <;> simp_all [Stage.isIdle, Stage.isOver]
      · exact hv.of_shape hshape
      · simp [hshape]
  exact (hbears.cancelBelow ⟨h, rfl⟩ hbeneath).1

/-- A visit is dropped, which is below a spoiled one. -/
theorem Watched.drop (h : Watched p source (some v.folder) phase s) (hw : w ∈ s.visits)
    (hfolder : w.folder = v.folder) (habove : w.above = v.above) (hopen : w.stage ≠ .over .done)
    (hbeneath : Beneath s.links s.Spoiled v.folder)
    (hidle : v.folder ∉ s.running.map Prod.fst) :
    Watched p source none phase (s.finish v .dropped) :=
  h.finish_spoiled hw hfolder habove hopen rfl (by simp) (fun _ => hbeneath) hidle rfl id

/-- A call that nobody waits for any more. -/
theorem Watched.hangUp (h : Watched p source active phase s) (f : String) :
    Watched p source active phase { s with running := s.running.filter (·.1 ≠ f) } := by
  refine h.quiet rfl rfl ⟨?_, fun g hg => h.underway.calling g ?_⟩ rfl rfl rfl
  · exact h.underway.unique.sublist (List.filter_sublist.map _)
  · exact (List.filter_sublist.map _).subset hg

/-- The turn of a visit that was cancelled. -/
theorem Watched.dropVisit (h : Watched p source (some v.folder) phase s) (hv : v ∈ s.visits)
    (hcancelled : v.cancelled = true) : Watched p source none phase (s.dropVisit v) := by
  have hstands := h.stands v hv
  have hbeneath := hstands.doomed (Or.inl hcancelled)
  have hopen : v.stage ≠ .over .done := by
    intro hover
    simp [hstands.calm hover] at hcancelled
  let given : Timeline := { s with traversal := s.traversal.abandon v.folder }
  have hgiven : Watched p source (some v.folder) phase given :=
    h.quiet rfl rfl (h.underway.of_same rfl rfl) rfl rfl rfl
  have hidle : v.stage ≠ .calling → v.folder ∉ s.running.map Prod.fst :=
    h.underway.not_running h.unique hv
  have hv' : v ∈ given.visits := hv
  simp only [Timeline.dropVisit]
  cases hstage : v.stage with
  | fresh | gathering n | «over» how =>
    exact hgiven.drop hv' rfl rfl hopen hbeneath (hidle (by simp [hstage]))
  | queued =>
    exact (hgiven.leaveLine v.folder).drop hv rfl rfl hopen hbeneath (hidle (by simp [hstage]))
  | granted =>
    have hleft := hgiven.leaveLine v.folder
    obtain ⟨hmem, hout⟩ := hleft.mem_release hv (by simp [hstage, Stage.isIdle])
    exact hleft.release.drop hmem rfl rfl hopen
      ((hleft.release.stands v hmem).doomed (Or.inl hcancelled)) hout
  | calling | returned =>
    have hleft := hgiven.hangUp v.folder
    have hmem :
        v ∈ ({ given with running := given.running.filter (·.1 ≠ v.folder) }).release.visits :=
      Timeline.mem_release hv (by simp [hstage]) h.unique
    refine hleft.release.drop hmem rfl rfl hopen
      ((hleft.release.stands v hmem).doomed (Or.inl hcancelled)) ?_
    rw [running_release]
    simp
  | gathered how =>
    have hbelow := hgiven.cancelBelow (f := v.folder) fun g hlink => .further hlink hbeneath
    obtain ⟨w, hw, hfolder, habove, hsame⟩ := exists_of_shape (shape_cancelBelow v.folder given) hv'
    have hbeneath' : Beneath given.links given.Spoiled v.folder := hbeneath
    refine hbelow.drop hw hfolder habove (hsame ▸ hopen)
      (hbeneath'.of_shape (shape_cancelBelow v.folder given)) ?_
    rw [running_cancelBelow]
    exact hidle (by simp [hstage])

/-- A visit whose turn finds it spoiled ends so, and the visits below it are cancelled. -/
theorem Watched.spoil (h : Watched p source (some v.folder) phase s) (hv : v ∈ s.visits)
    {how : Ending} (hstage : v.stage = .gathered how) (hhow : v.stage.isSpoiled = true) :
    Watched p source none phase ((s.cancelBelow v.folder).finish v how) := by
  have hstands := h.stands v hv
  have hspoiled : s.Spoiled v.folder := ⟨v, hv, rfl, hhow⟩
  have hbelow := h.cancelBelow (f := v.folder) fun g hlink => .child hlink hspoiled
  have hshape := shape_cancelBelow v.folder s
  obtain ⟨w, hw, hfolder, habove, hsame⟩ := exists_of_shape hshape hv
  refine hbelow.finish_spoiled hw hfolder habove (by simp [hsame, hstage]) ?_ ?_ ?_ ?_ rfl id
  · simpa [Stage.isSpoiled, Stage.how?, hstage] using hhow
  · intro e he
    exact hstands.blamed e (by simp [hstage, Stage.how?, he])
  · intro he
    have hbeneath := hstands.doomed (Or.inr (by simp [hstage, Stage.how?, he]))
    exact hbeneath.of_shape hshape
  · rw [running_cancelBelow]
    exact h.underway.not_running h.unique hv (by simp [hstage])

theorem Watched.turn (h : Watched p source (some v.folder) phase s)
    (hreply : source'.reply = source.reply) (hv : v ∈ s.visits) :
    ∃ phase', Watched p source none phase' (s.turn p source' v) := by
  have hstands := h.stands v hv
  cases hcancelled : v.cancelled with
  | true =>
    simp only [Timeline.turn, hcancelled, if_true]
    exact ⟨phase, h.dropVisit hv hcancelled⟩
  | false =>
    have hpause : v.stage.isGathered = false → ∃ phase', Watched p source none phase' s := by
      intro hnot
      refine ⟨phase, h.pause fun w hw hsame => ?_⟩
      obtain rfl : w = v := List.inj_on_of_nodup_map h.unique hw hv hsame
      exact hnot
    simp only [Timeline.turn, hcancelled, Bool.false_eq_true, if_false]
    cases hstage : v.stage with
    | fresh =>
      simp only
      split
      · refine ⟨phase, h.shuffle .queued hv (by simp [hstage, Stage.isEarly]) rfl rfl
          (Or.inl rfl) rfl (Or.inr rfl) (h.underway.restage ?_ rfl rfl)⟩
        exact h.underway.not_running h.unique hv (by simp [hstage])
      · exact (h.of_permits (s.permits - 1)).enter hreply hv (by simp [hstage, Stage.isEarly])
          (by simp [hstage, Stage.isIdle]) hcancelled
    | granted =>
      simp only
      have hleft := h.leaveLine v.folder
      split
      · exact hleft.wakeNext.enter hreply
          (mem_wakeNext (s := s.leaveLine v.folder) hv (by simp [hstage]) h.unique)
          (by simp [hstage, Stage.isEarly]) (by simp [hstage, Stage.isIdle]) hcancelled
      · exact hleft.enter hreply hv (by simp [hstage, Stage.isEarly])
          (by simp [hstage, Stage.isIdle]) hcancelled
    | returned =>
      simp only
      rw [comeBack_of_reply hreply]
      exact h.comeBack hv (by simp [hstage, Stage.isEarly]) (by simp [hstage, Stage.isIdle])
        hcancelled
    | gathered how =>
      cases how with
      | done =>
        simp only
        refine h.finish_done hv (Or.inr ?_)
          (by simp [hstage, Stage.isSpoiled, Stage.how?]) hcancelled
          (h.underway.not_running h.unique hv (by simp [hstage])) rfl rfl id
          (hstands.heard (Or.inr (by simp [hstage, Stage.how?])))
        simpa [hstage, Stage.Suits] using hstands.suits
      | failed e =>
        exact ⟨phase, h.spoil hv hstage (by simp [hstage, Stage.isSpoiled, Stage.how?])⟩
      | dropped =>
        exact ⟨phase, h.spoil hv hstage (by simp [hstage, Stage.isSpoiled, Stage.how?])⟩
    | queued | calling | gathering n | «over» how =>
      exact hpause (by simp [hstage, Stage.isGathered])

def Stage.after (unreported : Nat) : Ending → Stage
  | .done => if unreported ≤ 1 then .gathered .done else .gathering (unreported - 1)
  | how => .gathered how

/-- A report reaches a visit that waits for it. -/
theorem report_of_gathering {n : Nat} {how : Ending} (hw : s.visit? w.folder = some w)
    (hstage : w.stage = .gathering n) : s.report w.folder how =
      if (Stage.after n how).isGathered then
        (s.setStage w.folder (.after n how)).push (.turn w.folder)
      else s.setStage w.folder (.after n how) := by
  simp only [report, hw, hstage]
  cases how with
  | done => by_cases hn : n ≤ 1 <;> simp [Stage.after, hn, Stage.isGathered]
  | failed e => rfl
  | dropped => rfl

/-- A report comes too late for a visit that waits no longer. -/
theorem report_of_not_gathering {a : String} {how : Ending} (hw : s.visit? a = some w)
    (hstage : w.stage.isGathering = false) : s.report a how = s := by
  simp only [report, hw]
  cases hw' : w.stage <;> simp_all [Stage.isGathering]

theorem handle_report {p : Plan} {source : Source} (hv : s.visit? f = some v) :
    s.handle p source (.report f) = match v.above, v.stage with
      | some a, .over how => s.report a how
      | _, _ => s := by
  obtain ⟨folder, above, stage, cancelled⟩ := v
  cases above with
  | none => simp [handle, hv]
  | some a => cases stage <;> simp [handle, hv]

/-- What spoils a visit that lies below a spoiled one lies right above it or further up. -/
theorem Beneath.parent {start a : String} {links : List Link} {P : String → Prop}
    (h : Beneath links P f) (hfamily : Family start phase links) (hf : (f, some a) ∈ links) :
    P a ∨ Beneath links P a := by
  cases h with
  | child hf' ha =>
    obtain rfl := Option.some.inj (hfamily.above_unique hf' hf)
    exact Or.inl ha
  | further hf' ha =>
    obtain rfl := Option.some.inj (hfamily.above_unique hf' hf)
    exact Or.inr ha

/-- What is known of a visit that reports well: the visit above counts it. -/
theorem Watched.reporter (h : Watched p source none phase s) {rest : List Event}
    (hagenda : s.agenda = .report f :: rest) (hv : v ∈ s.visits) (hfolder : v.folder = f)
    (hclean : v.stage.isSpoiled = false) :
    v.stage = .over .done ∧ phase f = .ended false ∧ rest.count (.report f) = 0 ∧
      ∃ a n, v.above = some a ∧ phase a = .gathering n := by
  subst hfolder
  have hstands := h.stands v hv
  have hcount := hstands.reports hclean
  rw [hagenda, List.count_cons_self] at hcount
  have hphase : phase v.folder = .ended false ∧ rest.count (.report v.folder) = 0 := by
    cases hp : phase v.folder with
    | ended reported => cases reported <;> simp_all [Phase.reports]
    | _ => simp [hp, Phase.reports] at hcount
  refine ⟨Stage.Suits.ended (hphase.1 ▸ hstands.suits), hphase.1, hphase.2, ?_⟩
  cases habove : v.above with
  | none =>
    have hstart := h.family.eq_start (habove ▸ links_mem hv)
    exact absurd (hstart ▸ hphase.1) h.family.top
  | some a =>
    rcases h.family.parent v.folder a (habove ▸ links_mem hv) with ⟨n, hn⟩ | ⟨-, hover⟩
    · exact ⟨a, n, rfl, hn⟩
    · simp [hphase.1] at hover

/-- A report is dealt with; whoever is touched by it is known to stand as he should. -/
theorem Watched.answer (h : Watched p source none phase s) {rest : List Event}
    (hagenda : s.agenda = .report f :: rest) (hlinks : s'.links = s.links) (hframe : Frame p s s')
    (hnext : s'.agenda = rest ∨ ∃ a, s'.agenda = rest ++ [.turn a])
    (htraversal : s'.traversal = s.traversal) (hunderway : Underway s')
    (hfamily : Family p.options.folder phase' s.links)
    (hvisits : ∀ u ∈ s'.visits,
      (u ∈ s.visits ∧ u.folder ≠ f ∧ phase' u.folder = phase u.folder) ∨
        Stands p source none phase' s' u) : Watched p source none phase' s' := by
  have hfolders := folders_of_links hlinks
  refine ⟨hlinks ▸ hfamily, ?_, hfolders ▸ h.reached, ?_, hunderway, ?_, ?_⟩
  · rw [htraversal, hfolders]
    exact h.visited
  · intro g hg
    rw [hfolders]
    refine h.reporters g ?_
    rcases hnext with heq | ⟨a, heq⟩
    · simp [hagenda, heq ▸ hg]
    · have hrest : Event.report g ∈ rest := by simpa [heq] using hg
      simp [hagenda, hrest]
  · intro hfailed
    obtain ⟨g, hg⟩ := h.burnt (htraversal ▸ hfailed)
    exact ⟨g, hframe.spoiled g hg⟩
  · intro u hu
    rcases hvisits u hu with ⟨hold, hne, hphase⟩ | hstands
    · refine (h.stands u hold).frame hold hframe hphase ?_ fun hturn _ => ?_
      · rcases hnext with heq | ⟨a, heq⟩
        all_goals simp [heq, hagenda, List.count_append, Ne.symm hne]
      · have hrest : Event.turn u.folder ∈ rest := by simpa [hagenda] using hturn (by simp)
        rcases hnext with heq | ⟨a, heq⟩
        all_goals simp [heq, hrest]
    · exact hstands

def counted (phase : String → Phase) (f a : String) (n : Nat) : String → Phase :=
  Function.update (Function.update phase f (.ended true)) a
    (if n ≤ 1 then .gathered else .gathering (n - 1))

theorem counted_above (f a : String) (n : Nat) :
    counted phase f a n a = if n ≤ 1 then .gathered else .gathering (n - 1) :=
  Function.update_self ..

theorem counted_self {a : String} (hne : f ≠ a) (n : Nat) :
    counted phase f a n f = .ended true := by
  rw [counted, Function.update_of_ne hne, Function.update_self]

theorem counted_of_ne {a g : String} (hf : g ≠ f) (ha : g ≠ a) (n : Nat) :
    counted phase f a n g = phase g := by
  rw [counted, Function.update_of_ne ha, Function.update_of_ne hf]

/-- A visit whose report was counted. -/
theorem Stands.reported (h : Stands p source none phase s v) (hframe : Frame p s s')
    (hdone : v.stage = .over .done) (hphase : phase' v.folder = .ended true)
    (hcount : s'.agenda.count (.report v.folder) = 0)
    (hturn : .turn v.folder ∈ s.agenda → .turn v.folder ∈ s'.agenda) :
    Stands p source none phase' s' v := by
  refine h.carry hframe (hdone ▸ ⟨true, hphase⟩) ?_ (fun hdue hidle => hturn (hdue hidle)) ?_
  · rw [hphase]
    exact fun _ => hcount
  · simp [hdone, Stage.isSpoiled, Stage.how?]

/-- A visit that has counted one of those that it waits for. -/
theorem Stands.after (h : Stands p source none phase s w) (hframe : Frame p s s') {n : Nat}
    (hstage : w.stage = .gathering n)
    (hphase : phase' w.folder = if n ≤ 1 then .gathered else .gathering (n - 1))
    (hcount : s'.agenda.count (.report w.folder) = s.agenda.count (.report w.folder))
    (hturn : (Stage.after n .done).isGathered = true → .turn w.folder ∈ s'.agenda) :
    Stands p source none phase' s' { w with stage := .after n .done } := by
  have hwaited : phase w.folder = .gathering n := by simpa [hstage, Stage.Suits] using h.suits
  have hclean : w.stage.isSpoiled = false := by rw [hstage]; rfl
  have hheard : Heard p source s'.traversal w.folder :=
    hframe.heard (h.heard (Or.inl (by rw [hstage]; rfl)))
  have hmarked : w.cancelled = true → Beneath s'.links s'.Spoiled w.folder := fun hcancelled =>
    hframe.beneath (h.doomed (Or.inl hcancelled))
  have hreports : s'.agenda.count (.report w.folder) = 0 := by
    rw [hcount, h.reports hclean, hwaited]
    rfl
  by_cases hn : n ≤ 1
  · rw [if_pos hn] at hphase
    simp only [Stage.after, if_pos hn] at hturn ⊢
    refine ⟨hphase, fun _ => by rw [hphase]; exact hreports, fun _ _ => hturn rfl, ?_, ?_, ?_, ?_,
      fun _ => hheard⟩
    · simp [Stage.isOver]
    · simpa [Stage.how?] using hmarked
    · simp [Stage.how?]
    · simp
  · rw [if_neg hn] at hphase
    simp only [Stage.after, if_neg hn]
    exact .waiting hphase hreports hmarked hheard

/-- A visit that came to its end well is counted by the one above, which goes on waiting or
has its turn. -/
theorem Watched.report_done (h : Watched p source none phase s) {rest : List Event}
    (hagenda : s.agenda = .report v.folder :: rest) (hv : v ∈ s.visits) (hw : w ∈ s.visits)
    (habove : v.above = some w.folder) {n : Nat} (hstage : w.stage = .gathering n)
    (hdone : v.stage = .over .done)
    (hvisits : s'.visits = (s.setStage w.folder (.after n .done)).visits)
    (hnext : s'.agenda =
      if (Stage.after n .done).isGathered then rest ++ [.turn w.folder] else rest)
    (htraversal : s'.traversal = s.traversal) (hrunning : s'.running = s.running) :
    ∃ phase', Watched p source none phase' s' := by
  have hphase : phase w.folder = .gathering n := by
    simpa [hstage, Stage.Suits] using (h.stands w hw).suits
  obtain ⟨-, hended, hcount, -⟩ := h.reporter hagenda hv rfl (by rw [hdone]; rfl)
  have hne : v.folder ≠ w.folder := by
    intro hsame
    simp [hsame, hphase] at hended
  have hframe : Frame p s s' := .of_visit (g := fun w => { w with stage := .after n .done })
    h.unique hw (fun _ => ⟨rfl, rfl⟩) hvisits (by simp [hstage, Stage.isSpoiled, Stage.how?])
    (by simp [hstage, Stage.isGathering]) htraversal
  have hreports : ∀ g, s'.agenda.count (.report g) = rest.count (.report g) := by
    intro g
    rw [hnext]
    split <;> simp [List.count_append]
  have hidle := h.underway.not_running h.unique hw (by simp [hstage])
  refine ⟨counted phase v.folder w.folder n, h.answer hagenda
    (links_of_update (g := fun w => { w with stage := .after n .done }) (fun _ => ⟨rfl, rfl⟩)
      hvisits) hframe ?_ htraversal (h.underway.restage hidle hvisits hrunning)
    (h.family.report (habove ▸ links_mem hv) hended hphase) fun u hu => ?_⟩
  · rw [hnext]
    split
    · exact Or.inr ⟨w.folder, rfl⟩
    · exact Or.inl rfl
  · rcases (mem_update h.unique hw).mp (hvisits ▸ hu) with ⟨hu, hother⟩ | rfl
    · by_cases hsame : u.folder = v.folder
      · obtain rfl : u = v := List.inj_on_of_nodup_map h.unique hu hv hsame
        refine Or.inr ((h.stands u hu).reported hframe hdone
          (counted_self hne n) ?_ fun hturn => ?_)
        · rw [hreports, hcount]
        · have hrest : Event.turn u.folder ∈ rest := by simpa [hagenda] using hturn
          rw [hnext]
          split <;> simp [hrest]
      · exact Or.inl ⟨hu, hsame, counted_of_ne hsame hother n⟩
    · refine Or.inr ((h.stands w hw).after hframe hstage (counted_above ..) ?_ fun hgathered => ?_)
      · rw [hreports, hagenda, List.count_cons_of_ne (by simpa using hne)]
      · simp [hnext, hgathered]

/-- A visit that came to its end well reports to a spoiled one, which counts it for nothing. -/
theorem Watched.report_late (h : Watched p source none phase s) {rest : List Event}
    (hagenda : s.agenda = .report v.folder :: rest) (hv : v ∈ s.visits) (hw : w ∈ s.visits)
    (habove : v.above = some w.folder) (hdone : v.stage = .over .done)
    (hspoiled : w.stage.isSpoiled = true) :
    ∃ phase', Watched p source none phase' { s with agenda := rest } := by
  obtain ⟨-, hended, hcount, a, n, ha, hphase⟩ := h.reporter hagenda hv rfl (by rw [hdone]; rfl)
  obtain rfl : w.folder = a := by simpa [habove] using ha
  have hne : v.folder ≠ w.folder := by
    intro hsame
    simp [hsame, hphase] at hended
  have hframe : Frame p s { s with agenda := rest } := .of_visits rfl rfl rfl
  have hturns : ∀ g, .turn g ∈ s.agenda → .turn g ∈ rest := by
    intro g hturn
    simpa [hagenda] using hturn
  refine ⟨counted phase v.folder w.folder n, h.answer hagenda rfl hframe (Or.inl rfl) rfl
    (h.underway.of_same rfl rfl) (h.family.report (habove ▸ links_mem hv) hended hphase)
    fun u hu => ?_⟩
  by_cases hsame : u.folder = v.folder
  · obtain rfl : u = v := List.inj_on_of_nodup_map h.unique hu hv hsame
    exact Or.inr ((h.stands u hu).reported hframe hdone (counted_self hne n) hcount (hturns _))
  · by_cases hother : u.folder = w.folder
    · obtain rfl : u = w := List.inj_on_of_nodup_map h.unique hu hw hother
      refine Or.inr ((h.stands u hu).carry hframe ?_ (by simp [hspoiled])
        (fun hdue hidle => hturns _ (hdue hidle)) ?_)
      · refine Stage.suits_of_isSpoiled hspoiled ?_
        rw [counted_above]
        by_cases hn : n ≤ 1 <;> simp [hn]
      · intro hstage hbad a ha hgathers
        have htold := (h.stands u hu).told hstage hbad a ha hgathers
        simpa [hagenda, hsame] using htold
    · exact Or.inl ⟨hu, hsame, counted_of_ne hsame hother n⟩

/-- A spoiled visit reports to one that waits, which is spoiled by it. -/
theorem Watched.report_spoiled (h : Watched p source none phase s) {rest : List Event}
    (hagenda : s.agenda = .report v.folder :: rest) (hv : v ∈ s.visits) (hw : w ∈ s.visits)
    (habove : v.above = some w.folder) {n : Nat} (hstage : w.stage = .gathering n) {how : Ending}
    (hover : v.stage = .over how) (hspoiled : v.stage.isSpoiled = true)
    (hvisits : s'.visits = (s.setStage w.folder (.gathered how)).visits)
    (hnext : s'.agenda = rest ++ [.turn w.folder]) (htraversal : s'.traversal = s.traversal)
    (hrunning : s'.running = s.running) : Watched p source none phase s' := by
  have hwaiting := h.stands w hw
  have hreporting := h.stands v hv
  have hphase : phase w.folder = .gathering n := by simpa [hstage, Stage.Suits] using hwaiting.suits
  have hbad : (Stage.gathered how).isSpoiled = true := by
    simpa [hover, Stage.isSpoiled, Stage.how?] using hspoiled
  have hframe : Frame p s s' := .of_visit (g := fun w => { w with stage := .gathered how })
    h.unique hw (fun _ => ⟨rfl, rfl⟩) hvisits (fun _ => hbad) (by simp [Stage.isGathering])
    htraversal
  have hidle := h.underway.not_running h.unique hw (by simp [hstage])
  refine h.answer hagenda (links_of_update (g := fun w => { w with stage := .gathered how })
    (fun _ => ⟨rfl, rfl⟩) hvisits) hframe (Or.inr ⟨w.folder, hnext⟩) htraversal
    (h.underway.restage hidle hvisits hrunning) h.family fun u hu => ?_
  rcases (mem_update h.unique hw).mp (hvisits ▸ hu) with ⟨hu, hother⟩ | rfl
  · by_cases hsame : u.folder = v.folder
    · obtain rfl : u = v := List.inj_on_of_nodup_map h.unique hu hv hsame
      refine Or.inr (hreporting.carry hframe hreporting.suits (by simp [hspoiled]) ?_ ?_)
      · intro hturn _
        have hrest : Event.turn u.folder ∈ rest := by simpa [hagenda] using hturn (by simp)
        simp [hnext, hrest]
      · rintro - - a ha ⟨b, hb, rfl, hgather⟩
        rcases (mem_update h.unique hw).mp (hvisits ▸ hb) with ⟨-, hnot⟩ | rfl
        · exact absurd (by simpa [habove] using ha.symm) hnot
        · simp [Stage.isGathering] at hgather
    · exact Or.inl ⟨hu, hsame, rfl⟩
  · refine Or.inr (hwaiting.spoil hframe hbad (by simp [hphase]) (fun _ => by simp [hnext])
      (by simp [Stage.isOver]) ?_ ?_)
    · intro hdropped
      obtain rfl : how = .dropped := by simpa [Stage.how?] using hdropped
      have hbeneath := hreporting.doomed (Or.inr (by simp [hover, Stage.how?]))
      rcases hbeneath.parent h.family (habove ▸ links_mem hv) with ⟨u, hu, hsame, hbad'⟩ | hbeneath'
      · obtain rfl : u = w := List.inj_on_of_nodup_map h.unique hu hw hsame
        simp [hstage, Stage.isSpoiled, Stage.how?] at hbad'
      · exact hframe.beneath hbeneath'
    · intro e he
      obtain rfl : how = .failed e := by simpa [Stage.how?] using he
      exact hreporting.blamed e (by simp [hover, Stage.how?])

/-- A spoiled visit reports to nobody who waits. -/
theorem Watched.report_lost (h : Watched p source none phase s) {rest : List Event}
    (hagenda : s.agenda = .report v.folder :: rest) (hv : v ∈ s.visits)
    (hspoiled : v.stage.isSpoiled = true)
    (hlost : v.stage.isOver = true → ∀ a, v.above = some a → ¬ s.Gathers a) :
    Watched p source none phase { s with agenda := rest } := by
  have hframe : Frame p s { s with agenda := rest } := .of_visits rfl rfl rfl
  refine h.answer hagenda rfl hframe (Or.inl rfl) rfl (h.underway.of_same rfl rfl)
    h.family fun u hu => ?_
  by_cases hsame : u.folder = v.folder
  · obtain rfl : u = v := List.inj_on_of_nodup_map h.unique hu hv hsame
    refine Or.inr ((h.stands u hu).carry hframe (h.stands u hu).suits (by simp [hspoiled]) ?_ ?_)
    · intro hturn hidle
      simpa [hagenda] using hturn hidle
    · exact fun hover _ a ha hgathers => absurd hgathers (hlost hover a ha)
  · exact Or.inl ⟨hu, hsame, rfl⟩

/-- A report that finds nobody who waits for it changes nothing. -/
theorem handle_report_of_none (hv : s.visit? f = some v)
    (hnone : ∀ how, v.stage = .over how → ∀ w ∈ s.visits, v.above = some w.folder →
      w.stage.isGathering = false) : s.handle p source (.report f) = s := by
  rw [handle_report hv]
  split
  · rename_i a how habove hover
    cases hw : s.visit? a with
    | none => simp only [Timeline.report, hw]
    | some w =>
      obtain ⟨hmem, hfolder⟩ := mem_of_visit? hw
      exact report_of_not_gathering hw (hnone how hover w hmem (by rw [habove, hfolder]))
  · rfl

theorem Watched.report (h : Watched p source none phase s) {rest : List Event}
    (hagenda : s.agenda = .report f :: rest) :
    ∃ phase', Watched p source none phase'
      ({ s with agenda := rest }.handle p source' (.report f)) := by
  obtain ⟨v, hv, rfl⟩ := List.mem_map.mp (h.reporters f (by simp [hagenda]))
  have hvisit : visit? { s with agenda := rest } v.folder = some v := visit?_of_mem h.unique hv
  -- Either the visit above waits for the report, or the report is handled in vain.
  by_cases hwaits : ∃ how, v.stage = .over how ∧ ∃ w ∈ s.visits, v.above = some w.folder ∧
      ∃ n, w.stage = .gathering n
  · obtain ⟨how, hover, w, hw, habove, n, hstage⟩ := hwaits
    have hvisit' : visit? { s with agenda := rest } w.folder = some w := visit?_of_mem h.unique hw
    rw [handle_report hvisit]
    simp only [habove, hover]
    rw [report_of_gathering hvisit' hstage]
    cases hhow : v.stage.isSpoiled with
    | false =>
      obtain rfl : how = .done := by
        cases how <;> simp_all [Stage.isSpoiled, Stage.how?]
      refine h.report_done hagenda hv hw habove hstage hover ?_ ?_ ?_ ?_
      all_goals split <;> rfl
    | true =>
      have hafter : Stage.after n how = .gathered how := by
        cases how with
        | done => simp [hover, Stage.isSpoiled, Stage.how?] at hhow
        | failed e | dropped => rfl
      rw [hafter, if_pos (show (Stage.gathered how).isGathered = true from rfl)]
      exact ⟨phase, h.report_spoiled hagenda hv hw habove hstage hover hhow rfl rfl rfl rfl⟩
  · have hnone : ∀ how, v.stage = .over how → ∀ w ∈ s.visits, v.above = some w.folder →
        w.stage.isGathering = false := by
      intro how hover w hw habove
      cases hstage : w.stage with
      | gathering n => exact absurd ⟨how, hover, w, hw, habove, n, hstage⟩ hwaits
      | _ => rfl
    rw [handle_report_of_none hvisit hnone]
    cases hhow : v.stage.isSpoiled with
    | true =>
      refine ⟨phase, h.report_lost hagenda hv hhow fun hover a ha => ?_⟩
      rintro ⟨w, hw, rfl, hgather⟩
      cases hstage : v.stage with
      | «over» how => simp [hnone how hstage w hw ha] at hgather
      | _ => simp [hstage, Stage.isOver] at hover
    | false =>
      obtain ⟨hover, -, -, a, n, habove, hphase⟩ := h.reporter hagenda hv rfl hhow
      obtain ⟨w, hw, rfl⟩ : ∃ w ∈ s.visits, w.folder = a := by
        have hmem := h.family.mem_above (habove ▸ links_mem hv)
        rw [← folders_eq] at hmem
        exact List.mem_map.mp hmem
      rcases Stage.Suits.gathering (hphase ▸ (h.stands w hw).suits) with hstage | hspoiled
      · exact absurd ⟨.done, hover, w, hw, habove, n, hstage⟩ hwaits
      · exact h.report_late hagenda hv hw habove hover hspoiled

/-- A call comes back as time passes. -/
theorem Watched.arrive {call : String × Float} (left : List (String × Float))
    (h : Watched p source none phase { s with running := call :: left }) :
    Watched p source none phase ({ s with running := left }.arrive call) := by
  obtain ⟨v, hv, hfolder, hcalling⟩ := h.underway.calling call.1 (by simp)
  have hnodup := h.underway.unique
  simp only [List.map_cons, List.nodup_cons] at hnodup
  rw [Timeline.arrive, ← hfolder]
  refine h.shuffle .returned hv (by simp [hcalling, Stage.isEarly]) rfl rfl (Or.inr rfl)
    rfl (Or.inl rfl) (Underway.restage (s := { s with running := left }) ?_ (hfolder ▸ hnodup.1)
      rfl rfl)
  exact ⟨hnodup.2, fun g hg => h.underway.calling g (by simp [hg])⟩

theorem Watched.arrive_all {due left : List (String × Float)}
    (h : Watched p source none phase { s with running := due ++ left }) :
    Watched p source none phase (due.foldl Timeline.arrive { s with running := left }) := by
  induction due generalizing s with
  | nil => exact h
  | cons call rest ih => exact ih (s := s.arrive call) (h.arrive (rest ++ left))

/-- The clock and the order of the running calls tell nothing of the visits. -/
theorem Watched.of_running (h : Watched p source none phase s) (now : Float)
    {running : List (String × Float)} (hperm : running.Perm s.running) :
    Watched p source none phase { s with now := now, running := running } := by
  have hnames := hperm.map Prod.fst
  refine h.quiet rfl rfl ⟨hnames.nodup_iff.mpr h.underway.unique, fun g hg => ?_⟩ rfl rfl rfl
  exact h.underway.calling g (hnames.mem_iff.mp hg)

/-- Every step keeps what is known of the visits. -/
theorem Watched.step (h : Watched p source none phase s) (hreply : source'.reply = source.reply)
    (hstep : Step p source' s s') : ∃ phase', Watched p source none phase' s' := by
  cases hstep with
  | @handle e rest hagenda =>
    cases e with
    | report f => exact h.report hagenda
    | turn f =>
      have hbegun := h.begin hagenda
      cases hvisit : visit? { s with agenda := rest } f with
      | none =>
        simp only [handle, hvisit]
        refine ⟨phase, hbegun.pause fun v hv hsame => ?_⟩
        simp [← hsame, visit?_of_mem hbegun.unique hv] at hvisit
      | some v =>
        obtain ⟨hv, rfl⟩ := mem_of_visit? hvisit
        simp only [handle, hvisit]
        exact hbegun.turn hreply hv
  | elapse now hperm hdue =>
    exact ⟨phase, Watched.arrive_all (s := { s with now := now }) (h.of_running now hperm)⟩

theorem Watched.start (p : Plan) (source : Source) :
    Watched p source none (fun f => if f = p.options.folder then .early else .absent)
      (.start p) := by
  refine ⟨Family.single, rfl, ?_, ?_, ⟨by simp [Timeline.start], by simp [Timeline.start]⟩, ?_, ?_⟩
  · intro f hf
    obtain rfl : f = p.options.folder := by simpa [folders, Timeline.start] using hf
    exact .start
  · intro f hf
    simp [Timeline.start] at hf
  · intro hfailed
    simp [Timeline.start, Traversal.start] at hfailed
  · intro v hv
    obtain rfl : v = ⟨p.options.folder, none, .fresh, false⟩ := by
      simpa [Timeline.start] using hv
    exact .fresh (if_pos rfl) (by simp [Timeline.start])

end Depot.Listing.Timeline
