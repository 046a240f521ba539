import Depot.Proofs.Listing.Watch

/-!
What a turn makes of a visit that goes on. The visit comes to its end, well or spoiled; or it
goes to wait for new visits below it; or its call is made and takes time. What is known of the
visits holds of all of them afterwards.
-/
namespace Depot.Listing.Timeline

variable {p : Plan} {source source' : Source} {active : Option String}
  {phase phase' : String → Phase} {s : Timeline} {f : String} {v w : Visit} {stage : Stage}

theorem visits_finish (how : Ending) :
    (s.finish v how).visits = (s.setStage v.folder (.over how)).visits := by
  unfold finish
  split <;> rfl

theorem agenda_finish (how : Ending) : (s.finish v how).agenda =
    if v.above.isSome then s.agenda ++ [.report v.folder] else s.agenda := by
  unfold finish
  split <;> rfl

theorem running_finish (how : Ending) : (s.finish v how).running = s.running := by
  unfold finish
  split <;> rfl

/-- A visit comes to its end; what its turn brought in is in `t`. -/
theorem Watched.finish (h : Watched p source (some v.folder) phase s) (hw : w ∈ s.visits)
    (hfolder : w.folder = v.folder) (habove : w.above = v.above) (how : Ending)
    (hspoiled : w.stage.isSpoiled = true → (Stage.over how).isSpoiled = true)
    (hidle : v.folder ∉ s.running.map Prod.fst) {t : Traversal}
    (hvisited : t.visited = s.traversal.visited)
    (hfull : s.traversal.isFull p = true → t.isFull p = true)
    (hburnt : t.failures ≠ [] → s.traversal.failures ≠ [] ∨ (Stage.over how).isSpoiled = true)
    (hfamily : Family p.options.folder phase' s.links)
    (hphase : ∀ f, f ≠ w.folder → phase' f = phase f)
    (hstands : ∀ s', Frame p s s' → s'.traversal = t →
      (s'.agenda = if w.above.isSome then s.agenda ++ [.report w.folder] else s.agenda) →
      Stands p source none phase' s' { w with stage := .over how }) :
    Watched p source none phase' ({ s with traversal := t }.finish v how) := by
  generalize hs' : { s with traversal := t }.finish v how = s'
  have hvisits : s'.visits = (s.setStage w.folder (.over how)).visits := by
    rw [← hs', hfolder]
    exact visits_finish how
  have htraversal : s'.traversal = t := hs' ▸ traversal_finish how
  have hrunning : s'.running = s.running := hs' ▸ running_finish how
  have hagenda : s'.agenda = if w.above.isSome then s.agenda ++
      [.report w.folder] else s.agenda := by
    rw [← hs', habove, hfolder]
    exact agenda_finish how
  have hframe : Frame p s s' := .of_update (g := fun v => { v with stage := .over how }) h.unique hw
    (fun _ => ⟨rfl, rfl⟩) hvisits hspoiled (by simp [Stage.isGathering])
    (by rw [htraversal, hvisited]) (by rw [htraversal]; exact hfull)
  rw [← hfolder] at hidle
  refine h.change (g := fun v => { v with stage := .over how }) hw (fun _ => ⟨rfl, rfl⟩) hvisits
    hframe ?_ (by rw [htraversal, hvisited]) (by rw [htraversal]; exact hburnt)
    (Or.inr (by rw [hfolder])) hfamily hphase (h.underway.restage hidle hvisits hrunning)
    (hstands s' hframe htraversal hagenda)
  rw [hagenda]
  split
  · exact Or.inr (Or.inr rfl)
  · exact Or.inl rfl

/-- A visit comes to its end well. -/
theorem Watched.finish_done (h : Watched p source (some v.folder) phase s) (hv : v ∈ s.visits)
    (hphase : phase v.folder = .early ∨ phase v.folder = .gathered)
    (hclean : v.stage.isSpoiled = false) (hfree : v.cancelled = false)
    (hidle : v.folder ∉ s.running.map Prod.fst) {t : Traversal}
    (hvisited : t.visited = s.traversal.visited) (hfailures : t.failures = s.traversal.failures)
    (hfull : s.traversal.isFull p = true → t.isFull p = true)
    (hheard : Heard p source t v.folder) :
    ∃ phase', Watched p source none phase' ({ s with traversal := t }.finish v .done) := by
  have hnone : s.agenda.count (.report v.folder) = 0 := by
    rw [(h.stands v hv).reports hclean]
    rcases hphase with hp | hp <;> simp [hp, Phase.reports]
  refine ⟨Function.update phase v.folder (.ended v.above.isNone), h.finish hv rfl rfl .done
    (by simp [hclean]) hidle hvisited hfull (by rw [hfailures]; exact Or.inl)
    (h.family.settle (links_mem hv) hphase) (fun f hf => Function.update_of_ne hf ..)
    fun s' hframe htraversal hagenda => ?_⟩
  refine ⟨?_, ?_, ?_, ?_, ?_, ?_, ?_, ?_⟩
  · exact ⟨v.above.isNone, Function.update_self ..⟩
  · intro _
    rw [hagenda, Function.update_self]
    cases v.above <;> simp [hnone, Phase.reports, List.count_append]
  · simp [Stage.isGathered]
  · simp [Stage.isSpoiled, Stage.how?]
  · simp [Stage.how?, hfree]
  · simp [Stage.how?]
  · exact fun _ => hfree
  · exact fun _ => htraversal ▸ hheard

/-- A visit ends otherwise. -/
theorem Watched.finish_spoiled (h : Watched p source (some v.folder) phase s) (hw : w ∈ s.visits)
    (hfolder : w.folder = v.folder) (habove : w.above = v.above) (hopen : w.stage ≠ .over .done)
    {how : Ending} (hhow : (Stage.over how).isSpoiled = true)
    (hblamed : ∀ e, how = .failed e → Blamed source p.options e)
    (hdoomed : how = .dropped → Beneath s.links s.Spoiled v.folder)
    (hidle : v.folder ∉ s.running.map Prod.fst) {t : Traversal}
    (hvisited : t.visited = s.traversal.visited)
    (hfull : s.traversal.isFull p = true → t.isFull p = true) :
    Watched p source none phase ({ s with traversal := t }.finish v how) := by
  have hstands := h.stands w hw
  -- For the tree the visit stays where it is, and only a visit that is over well has left it.
  have hphase : ∀ reported, phase w.folder ≠ .ended reported := fun reported hover =>
    hopen (Stage.Suits.ended (hover ▸ hstands.suits))
  refine h.finish hw hfolder habove how (fun _ => hhow) hidle hvisited hfull (fun _ => Or.inr hhow)
    h.family (fun _ _ => rfl) fun s' hframe _ hagenda => ?_
  refine hstands.spoil hframe hhow hphase (by simp [Stage.isGathered]) ?_ ?_ ?_
  · intro _ a ha
    simp [hagenda, ha]
  · intro hdropped
    rw [← hfolder] at hdoomed
    exact hframe.beneath (hdoomed (by simpa [Stage.how?] using hdropped))
  · intro e he
    exact hblamed e (by simpa [Stage.how?] using he)

def extended (s : Timeline) (folder : String) (found : List String) : Timeline :=
  { s with
    visits := s.visits ++ found.map fun g => (⟨g, some folder, .fresh, false⟩ : Visit)
    agenda := s.agenda ++ found.map Event.turn }

theorem nodup_extended {found : List String} (hunique : s.folders.Nodup) (hnodup : found.Nodup)
    (hnew : ∀ g ∈ found, g ∉ s.folders) (folder : String) :
    (s.extended folder found).folders.Nodup := by
  have hfolders : (s.extended folder found).folders = s.folders ++ found := by
    simp [extended, folders, List.map_map, Function.comp_def]
  rw [hfolders, List.nodup_append]
  exact ⟨hunique, hnodup, fun a ha b hb hab => hnew b hb (hab ▸ ha)⟩

/-- The visits once one of them waits for new ones below it. -/
theorem mem_awaiting {found : List String} (hunique : s.folders.Nodup) (hv : v ∈ s.visits)
    (hnodup : found.Nodup) (hnew : ∀ g ∈ found, g ∉ s.folders) :
    w ∈ (s.awaiting v.folder found).visits ↔ (w ∈ s.visits ∧ w.folder ≠ v.folder) ∨
      w = { v with stage := .gathering found.length } ∨
      ∃ g ∈ found, w = ⟨g, some v.folder, .fresh, false⟩ := by
  have hmem := mem_update (g := fun v => { v with stage := .gathering found.length }) (w := w)
    (nodup_extended hunique hnodup hnew v.folder)
    (show v ∈ (s.extended v.folder found).visits from List.mem_append_left _ hv)
  refine hmem.trans ?_
  have hother : ∀ g ∈ found, g ≠ v.folder := fun g hg hsame =>
    hnew g hg (hsame ▸ List.mem_map_of_mem hv)
  constructor
  · rintro (⟨hw, hne⟩ | rfl)
    · rcases List.mem_append.mp hw with hw | hw
      · exact Or.inl ⟨hw, hne⟩
      · obtain ⟨g, hg, rfl⟩ := List.mem_map.mp hw
        exact Or.inr (Or.inr ⟨g, hg, rfl⟩)
    · exact Or.inr (Or.inl rfl)
  · rintro (⟨hw, hne⟩ | rfl | ⟨g, hg, rfl⟩)
    · exact Or.inl ⟨List.mem_append_left _ hw, hne⟩
    · exact Or.inr rfl
    · refine Or.inl ⟨List.mem_append_right _ (List.mem_map.mpr ⟨g, hg, rfl⟩), hother g hg⟩

theorem folders_awaiting (folder : String) (found : List String) :
    (s.awaiting folder found).folders = s.folders ++ found := by
  rw [folders_eq, links_awaiting, folders_eq]
  simp [List.map_map, Function.comp_def]

theorem agenda_awaiting (folder : String) (found : List String) :
    (s.awaiting folder found).agenda = s.agenda ++ found.map Event.turn := rfl

/-- New visits have turns to come, but no reports. -/
theorem report_mem_awaiting (folder : String) {g : String} {found : List String} :
    .report g ∈ (s.awaiting folder found).agenda ↔ .report g ∈ s.agenda := by
  simp [agenda_awaiting]

theorem count_report_awaiting (folder : String) (found : List String) (g : String) :
    (s.awaiting folder found).agenda.count (.report g) = s.agenda.count (.report g) := by
  have hnone : Event.report g ∉ found.map Event.turn := by simp
  rw [agenda_awaiting, List.count_append, List.count_eq_zero_of_not_mem hnone, Nat.add_zero]

/-- No visit is below one that has yet to wait. -/
theorem Frame.of_awaiting (hunique : s.folders.Nodup) (hv : v ∈ s.visits)
    (hclean : v.stage.isSpoiled = false) {found : List String} (hnodup : found.Nodup)
    (hnew : ∀ g ∈ found, g ∉ s.folders) (hnone : ∀ g, (g, some v.folder) ∉ s.links) {t : Traversal}
    (hvisited : t.visited = s.traversal.visited ++ found)
    (hfull : s.traversal.isFull p = true → t.isFull p = true) :
    Frame p s { s.awaiting v.folder found with traversal := t } where
  links l hl := links_awaiting (s := s) v.folder found ▸ List.mem_append_left _ hl
  spoiled g := by
    rintro ⟨u, hu, rfl, hbad⟩
    have hne : u.folder ≠ v.folder := by
      intro hsame
      obtain rfl : u = v := List.inj_on_of_nodup_map hunique hu hv hsame
      simp [hclean] at hbad
    exact ⟨u, (mem_awaiting hunique hv hnodup hnew).mpr (Or.inl ⟨hu, hne⟩), rfl, hbad⟩
  gathers g a hlink := by
    rintro ⟨u, hu, rfl, hgather⟩
    rcases (mem_awaiting hunique hv hnodup hnew).mp hu with ⟨hu, -⟩ | rfl | ⟨b, -, rfl⟩
    · exact ⟨u, hu, rfl, hgather⟩
    · exact absurd hlink (hnone g)
    · simp [Stage.isGathering] at hgather
  visited g hg := by
    rw [hvisited]
    exact List.mem_append_left _ hg
  full := hfull

theorem Underway.of_awaiting (h : Underway s) (hunique : s.folders.Nodup) (hv : v ∈ s.visits)
    (hidle : v.folder ∉ s.running.map Prod.fst) {found : List String} (hnodup : found.Nodup)
    (hnew : ∀ g ∈ found, g ∉ s.folders) : Underway (s.awaiting v.folder found) := by
  refine ⟨h.unique, fun g hg => ?_⟩
  obtain ⟨u, hu, rfl, hcalling⟩ := h.calling g hg
  have hne : u.folder ≠ v.folder := fun hsame => hidle (hsame ▸ hg)
  exact ⟨u, (mem_awaiting hunique hv hnodup hnew).mpr (Or.inl ⟨hu, hne⟩), rfl, hcalling⟩

/-- A visit that has just come to be. -/
theorem Stands.fresh {above : Option String} (hphase : phase f = .early)
    (hnone : .report f ∉ s.agenda) :
    Stands p source active phase s ⟨f, above, .fresh, false⟩ := by
  refine ⟨hphase, fun _ => ?_, ?_, ?_, ?_, ?_, ?_, ?_⟩
  · rw [List.count_eq_zero_of_not_mem hnone, hphase]
    rfl
  all_goals simp [Stage.isGathered, Stage.isOver, Stage.how?, Stage.isGathering]

/-- A visit that waits for others below it. -/
theorem Stands.waiting {n : Nat} (hphase : phase v.folder = .gathering n)
    (hcount : s.agenda.count (.report v.folder) = 0)
    (hmarked : v.cancelled = true → Beneath s.links s.Spoiled v.folder)
    (hheard : Heard p source s.traversal v.folder) :
    Stands p source active phase s { v with stage := .gathering n } := by
  refine ⟨hphase, fun _ => ?_, ?_, ?_, ?_, ?_, ?_, fun _ => hheard⟩
  · rw [hphase]
    exact hcount
  · simp [Stage.isGathered]
  · simp [Stage.isOver]
  · simpa [Stage.how?] using hmarked
  · simp [Stage.how?]
  · simp

/-- A visit goes to wait for new ones below it. -/
theorem Watched.await (h : Watched p source (some v.folder) phase s) (hv : v ∈ s.visits)
    (hearly : v.stage.isEarly = true) (hidle : v.folder ∉ s.running.map Prod.fst)
    {found : List String} (hsome : found ≠ []) (hnodup : found.Nodup)
    (hnew : ∀ g ∈ found, g ∉ s.folders) (hunder : ∀ g ∈ found, Path.isUnder g v.folder = true)
    (hreached : ∀ g ∈ found, Reached source p.options.folder g) {t : Traversal}
    (hvisited : t.visited = s.traversal.visited ++ found)
    (hfailures : t.failures = s.traversal.failures)
    (hfull : s.traversal.isFull p = true → t.isFull p = true)
    (hheard : Heard p source t v.folder) :
    ∃ phase', Watched p source none phase' { s.awaiting v.folder found with traversal := t } := by
  have hphase := (h.stands v hv).suits.of_isEarly hearly
  have hclean := Stage.not_isSpoiled_of_isEarly hearly
  have hfolders := folders_awaiting (s := s) v.folder found
  have hframe : Frame p s { s.awaiting v.folder found with traversal := t } :=
    .of_awaiting h.unique hv hclean hnodup hnew (fun _ => h.family.none_below hphase) hvisited hfull
  refine ⟨Function.update (fun g => if g ∈ found then .early else phase g) v.folder
    (.gathering found.length), ?_, ?_, ?_, ?_, ?_, ?_, ?_⟩
  · refine links_awaiting (s := s) v.folder found ▸ h.family.gather hphase hsome hnodup ?_ hunder
    intro g hg
    rw [← folders_eq]
    exact hnew g hg
  · refine hvisited.trans ?_
    rw [h.visited]
    exact hfolders.symm
  · intro g hg
    rcases List.mem_append.mp (hfolders ▸ hg) with hg | hg
    · exact h.reached g hg
    · exact hreached g hg
  · intro g hg
    exact hfolders ▸ List.mem_append_left _ (h.reporters g ((report_mem_awaiting v.folder).mp hg))
  · exact (h.underway.of_awaiting h.unique hv hidle hnodup hnew).of_same rfl rfl
  · intro hfailed
    obtain ⟨g, hg⟩ := h.burnt (hfailures ▸ hfailed)
    exact ⟨g, hframe.spoiled g hg⟩
  · intro w hw
    rcases (mem_awaiting h.unique hv hnodup hnew).mp hw with ⟨hw, hne⟩ | rfl | ⟨g, hg, rfl⟩
    · refine (h.stands w hw).frame hw hframe ?_
        (count_report_awaiting v.folder ..) fun hturn _ => ?_
      · have hold : w.folder ∉ found := fun hin => hnew _ hin (List.mem_map_of_mem hw)
        rw [Function.update_of_ne hne, if_neg hold]
      · exact List.mem_append_left _ (hturn (by simpa using Ne.symm hne))
    · refine .waiting (Function.update_self ..) ?_ (fun hcancelled => ?_) hheard
      · refine (count_report_awaiting v.folder ..).trans ?_
        rw [(h.stands v hv).reports hclean, hphase]
        rfl
      · exact hframe.beneath ((h.stands v hv).doomed (Or.inl hcancelled))
    · have hne : g ≠ v.folder := fun hsame => hnew g hg (hsame ▸ List.mem_map_of_mem hv)
      refine .fresh ((Function.update_of_ne hne ..).trans (if_pos hg)) fun hreport => ?_
      exact hnew g hg (h.reporters g ((report_mem_awaiting v.folder).mp hreport))

theorem Stage.ne_of_isIdle (h : stage.isIdle = false) : stage ≠ .queued ∧ stage ≠ .calling := by
  cases stage <;> simp_all [isIdle]

theorem Watched.mem_release (h : Watched p source active phase s) (hv : v ∈ s.visits)
    (hgoing : v.stage.isIdle = false) :
    v ∈ s.release.visits ∧ v.folder ∉ s.release.running.map Prod.fst := by
  obtain ⟨hqueued, hcalling⟩ := Stage.ne_of_isIdle hgoing
  refine ⟨Timeline.mem_release hv hqueued h.unique, ?_⟩
  rw [running_release]
  exact h.underway.not_running h.unique hv hcalling

/-- What a visit has heard once its level is taken in. -/
theorem heard_taken (hnone : ∀ e, ¬ Raises source p.options f e) (t : Traversal) :
    Heard p source (t.taken p f (source.level f)) f := by
  cases hfull : (t.merged p (source.level f)).isFull p with
  | true => exact Or.inl hfull
  | false => exact Or.inr ⟨hnone, fun hdescends d hd hshows =>
      t.mem_found hdescends hfull hd hshows⟩

/-- The call of a visit comes back in its turn. -/
theorem Watched.comeBack (h : Watched p source (some v.folder) phase s) (hv : v ∈ s.visits)
    (hearly : v.stage.isEarly = true) (hgoing : v.stage.isIdle = false)
    (hfree : v.cancelled = false) :
    ∃ phase', Watched p source none phase' (s.comeBack p source v) := by
  obtain ⟨hv', hidle⟩ := h.mem_release hv hgoing
  have hreleased := h.release
  have hphase := (h.stands v hv).suits.of_isEarly hearly
  have hgrows : ∀ {t : Traversal} {more : List Entry}, t.result = s.traversal.result ++ more →
      s.release.traversal.isFull p = true → t.isFull p = true := by
    intro t more hresult hfull
    rw [traversal_release] at hfull
    exact s.traversal.isFull_append hfull hresult
  rcases comeBack_cases p source s v with ⟨e, more, hraises, heq⟩ | ⟨hnone, heq⟩
  · rw [heq]
    refine ⟨phase, hreleased.finish_spoiled hv' rfl rfl ?_ rfl ?_ ?_ hidle ?_ (hgrows rfl)⟩
    · intro hover
      simp [hover, Stage.isEarly] at hearly
    · intro e' he
      obtain rfl : e = e' := by simpa using he
      exact ⟨v.folder, h.reached _ (List.mem_map_of_mem hv), hraises⟩
    · simp
    · rw [traversal_release]
  · have hspec := s.traversal.found_spec p v.folder (source.level v.folder)
    rw [heq]
    by_cases hfound : s.traversal.found p v.folder (source.level v.folder) = []
    · simp only [hfound, if_true]
      refine hreleased.finish_done hv' (Or.inl hphase) (Stage.not_isSpoiled_of_isEarly hearly) hfree
        hidle ?_ ?_ (hgrows rfl) (heard_taken hnone _)
      · simp [Traversal.taken, hfound]
      · simp [Traversal.taken]
    · simp only [hfound, if_false]
      refine hreleased.await hv' hearly hidle hfound hspec.1 ?_ ?_ ?_ ?_ ?_ (hgrows rfl)
        (heard_taken hnone _)
      · intro g hg
        rw [← hreleased.visited, traversal_release]
        exact (hspec.2 g hg).1
      · intro g hg
        obtain ⟨-, d, -, hshows, rfl⟩ := hspec.2 g hg
        exact hshows.2
      · intro g hg
        obtain ⟨-, d, hd, hshows, rfl⟩ := hspec.2 g hg
        exact .down (h.reached _ (List.mem_map_of_mem hv)) hd hshows
      · simp [Traversal.taken]
      · simp [Traversal.taken]

/-- The call of a visit is made, or left out because the result is full. -/
theorem Watched.enter (h : Watched p source (some v.folder) phase s)
    (hreply : source'.reply = source.reply) (hv : v ∈ s.visits) (hearly : v.stage.isEarly = true)
    (hgoing : v.stage.isIdle = false) (hfree : v.cancelled = false) :
    ∃ phase', Watched p source none phase' (s.enter p source' v) := by
  have hlaunched := h.launched v.folder
  have hv' : v ∈ (s.launched p v.folder).visits := hv
  obtain ⟨hreleased, hidle⟩ := hlaunched.mem_release hv' hgoing
  rw [enter_eq]
  split
  · rename_i hfull
    have hfull' : (s.launched p v.folder).traversal.isFull p = true :=
      (isFull_launch v.folder).trans hfull
    have hsame : { (s.launched p v.folder).release with
        traversal := (s.launched p v.folder).traversal } = (s.launched p v.folder).release := by
      rw [← traversal_release]
    rw [← hsame]
    refine hlaunched.release.finish_done hreleased
      (Or.inl ((h.stands v hv).suits.of_isEarly hearly))
      (Stage.not_isSpoiled_of_isEarly hearly) hfree hidle ?_ ?_ ?_ (Or.inl hfull')
    all_goals simp
  · split
    · refine ⟨phase, hlaunched.shuffle .calling hv' hearly rfl rfl (Or.inl rfl) rfl
        (Or.inr rfl) ?_⟩
      rw [running_release] at hidle
      refine ⟨?_, ?_⟩
      · simp only [List.map_append, List.map_cons, List.map_nil, List.nodup_append]
        refine ⟨h.underway.unique, by simp, fun a ha b hb hab => hidle ?_⟩
        obtain rfl : b = v.folder := by simpa using hb
        exact hab ▸ ha
      · intro g hg
        by_cases hgv : g = v.folder
        · subst hgv
          exact ⟨{ v with stage := .calling }, List.mem_map.mpr ⟨v, hv, if_pos rfl⟩, rfl, rfl⟩
        · obtain ⟨w, hw, rfl, hcalling⟩ := h.underway.calling g (by simpa [hgv] using hg)
          exact ⟨w, List.mem_map.mpr ⟨w, hw, if_neg hgv⟩, rfl, hcalling⟩
    · rw [comeBack_of_reply hreply]
      exact hlaunched.comeBack hv' hearly hgoing hfree

end Depot.Listing.Timeline
