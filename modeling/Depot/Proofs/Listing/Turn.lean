import Depot.Proofs.Listing.Record

/-!
One move of a listing that meets no failure. The books, the tree of visits and the
record are kept by every turn, by every report and by every call that comes back,
and each of these takes some visit a step on.
-/
namespace Depot.Listing.Timeline

/-- All that holds between two moves. -/
structure Kept (p : Plan) (roles : String → Role) (log : List Level) (s : Timeline) : Prop where
  ledger : Ledger p roles s
  served : Served roles s
  family : Family p.options.folder (Role.phase ∘ roles) s.links
  record : Record p (Role.phase ∘ roles) s.links log s.traversal

def Role.Nudged (old new : Role) : Prop :=
  new = old ∨ (old = .absent ∧ new = .fresh) ∨ (old = .queued ∧ new = .granted)

@[refl] theorem Role.Nudged.refl (r : Role) : Role.Nudged r r := Or.inl rfl

theorem Role.Nudged.trans {a b c : Role} (hab : Role.Nudged a b) (hbc : Role.Nudged b c) :
    Role.Nudged a c := by
  rcases hab with rfl | ⟨rfl, rfl⟩ | ⟨rfl, rfl⟩
  · exact hbc
  · rcases hbc with rfl | ⟨h, -⟩ | ⟨h, -⟩ <;> simp_all [Role.Nudged]
  · rcases hbc with rfl | ⟨h, -⟩ | ⟨h, -⟩ <;> simp_all [Role.Nudged]

theorem Role.Nudged.progress_le {a b : Role} (h : Role.Nudged a b) : a.progress ≤ b.progress := by
  rcases h with rfl | ⟨rfl, rfl⟩ | ⟨rfl, rfl⟩ <;> simp [Role.progress]

def Role.IsOut (r : Role) : Prop := r = .calling ∨ r = .returned

theorem Role.Nudged.isOut {a b : Role} (h : Role.Nudged a b) (hb : b.IsOut) : a.IsOut := by
  rcases h with rfl | ⟨rfl, rfl⟩ | ⟨rfl, rfl⟩
  · exact hb
  all_goals simp [Role.IsOut] at hb

theorem Role.not_isOut {r : Role} (h : 4 ≤ r.progress) : ¬ r.IsOut := by
  rintro (rfl | rfl) <;> simp [Role.progress] at h

def Role.InTurn (r : Role) : Prop := r = .entering ∨ r = .leaving ∨ r = .closing

theorem Role.Nudged.inTurn {a b : Role} (h : Role.Nudged a b) (hb : b.InTurn) : a.InTurn := by
  rcases h with rfl | ⟨rfl, rfl⟩ | ⟨rfl, rfl⟩
  · exact hb
  all_goals simp [Role.InTurn] at hb

/-- After its turn a visit has come at least so far, and others were nudged at most. -/
structure Onward (f : String) (n : Nat) (roles roles' : String → Role) : Prop where
  far : n ≤ (roles' f).progress
  rested : ¬ (roles' f).InTurn
  others : ∀ g, g ≠ f → Role.Nudged (roles g) (roles' g)

theorem Onward.weaken {f : String} {n m : Nat} {roles roles' : String → Role}
    (h : Onward f n roles roles') (hm : m ≤ n) : Onward f m roles roles' :=
  ⟨hm.trans h.far, h.rested, h.others⟩

theorem Onward.after {f : String} {n : Nat} {roles roles₁ roles' : String → Role}
    (h : Onward f n roles₁ roles') (hfirst : ∀ g, g ≠ f → Role.Nudged (roles g) (roles₁ g)) :
    Onward f n roles roles' :=
  ⟨h.far, h.rested, fun g hg => (hfirst g hg).trans (h.others g hg)⟩

variable {p : Plan} {roles roles' : String → Role} {log : List Level} {s s' : Timeline}
  {f : String} {v : Visit} {source : Source} {level : List Entry}

theorem links_mem (hv : v ∈ s.visits) : (v.folder, v.above) ∈ s.links :=
  List.mem_map_of_mem (f := fun v : Visit => (v.folder, v.above)) hv

theorem phase_of_woken (h : ∀ g, roles' g = roles g ∨ roles g = .queued ∧ roles' g = .granted) :
    Role.phase ∘ roles' = Role.phase ∘ roles := by
  funext g
  rcases h g with heq | ⟨hold, hnew⟩
  · simp [heq]
  · simp [hold, hnew, Role.phase]

theorem nudged_of_woken (h : ∀ g, roles' g = roles g ∨ roles g = .queued ∧ roles' g = .granted)
    (g : String) : Role.Nudged (roles g) (roles' g) :=
  (h g).imp_right Or.inr

theorem Ledger.of_traversal (h : Ledger p roles s) (t : Traversal) (peak : Nat) :
    Ledger p roles { s with traversal := t, peak := peak } :=
  ⟨h.unique, h.absent, h.fits, h.turns, h.reports, h.line, h.running, h.permits⟩

/-- Giving a permit back within a turn serves the next in line. -/
theorem Kept.release (h : Kept p roles log s) (hf : roles f = .entering) :
    ∃ roles', Kept p roles' log s.release ∧ roles' f = .leaving ∧
      Role.phase ∘ roles' = Role.phase ∘ roles ∧
      ∀ g, g ≠ f → Role.Nudged (roles g) (roles' g) := by
  obtain ⟨roles', hledger, hserved, hwoken⟩ := (h.ledger.giveBack hf).wakeNext (Nat.succ_pos _)
  have hphase : Role.phase ∘ roles' = Role.phase ∘ roles := by
    rw [phase_of_woken hwoken, Function.comp_update]
    funext g
    by_cases hg : g = f
    · subst hg
      simp [hf, Role.phase]
    · simp [hg]
  refine ⟨roles', ⟨hledger, hserved, ?_, ?_⟩, ?_, hphase, ?_⟩
  · rw [hphase, links_release]
    exact h.family
  · rw [hphase, links_release, traversal_release]
    exact h.record
  · rcases hwoken f with heq | ⟨hqueued, -⟩
    · rw [heq, Function.update_self]
    · simp at hqueued
  · intro g hg
    have hnudged := nudged_of_woken hwoken g
    rwa [Function.update_of_ne hg] at hnudged

theorem Served.update {r : Role} (h : Served roles s) (s' : Timeline) (hf : roles f ≠ .granted)
    (hr : r ≠ .queued)
    (hpermits : s'.permits = s.permits) : Served (Function.update roles f r) s' := by
  rintro ⟨g, hg⟩
  have hgf : g ≠ f := by
    rintro rfl
    exact hr (by simpa using hg)
  rw [Function.update_of_ne hgf] at hg
  rcases h ⟨g, hg⟩ with hnone | ⟨b, hb⟩
  · exact Or.inl (hpermits.trans hnone)
  · refine Or.inr ⟨b, ?_⟩
    have hbf : b ≠ f := by
      rintro rfl
      exact hf hb
    rwa [Function.update_of_ne hbf]

theorem links_finish (ending : Ending) : (s.finish v ending).links = s.links := by
  unfold finish
  split <;> exact links_setStage (.over ending)

theorem traversal_finish (ending : Ending) : (s.finish v ending).traversal = s.traversal := by
  unfold finish
  split <;> rfl

theorem permits_finish (ending : Ending) : (s.finish v ending).permits = s.permits := by
  unfold finish
  split <;> rfl

theorem line_finish (how : Ending) : (s.finish v how).line = s.line := by
  unfold finish
  split <;> rfl

theorem Phase.isPast_update {phase : String → Phase} {ph : Phase} (hph : ph.isPast) (g : String) :
    (Function.update phase f ph g).isPast ↔ g = f ∨ (phase g).isPast := by
  by_cases hg : g = f
  · subst hg
    simp [hph]
  · simp [hg]

/-- The end of a visit; the record goes on by what its turn brought in. -/
theorem Kept.finish (h : Kept p roles log s) (hv : (v.folder, v.above) ∈ s.links)
    (hrole : roles v.folder = .leaving ∨ roles v.folder = .closing) {t : Traversal}
    {log' : List Level}
    (hrecord : ∀ phase', (∀ g, (phase' g).isPast ↔ g = v.folder ∨ ((Role.phase ∘ roles) g).isPast) →
      Record p phase' s.links log' t) :
    ∃ roles', Kept p roles' log' ({ s with traversal := t }.finish v .done) ∧
      Onward v.folder 5 roles roles' := by
  have hgranted : roles v.folder ≠ .granted := by
    rcases hrole with hr | hr <;> simp [hr]
  have hphase : (Role.phase ∘ roles) v.folder = .early ∨
      (Role.phase ∘ roles) v.folder = .gathered := by
    rcases hrole with hr | hr <;> simp [hr, Role.phase]
  refine ⟨Function.update roles v.folder (.ended v.above.isNone), ⟨?_, ?_, ?_, ?_⟩, ?_, ?_, ?_⟩
  · exact (h.ledger.of_traversal t s.peak).finish hrole
  · exact h.served.update _ hgranted (by simp) (permits_finish .done)
  · rw [Function.comp_update, links_finish]
    exact h.family.settle hv hphase
  · rw [Function.comp_update, links_finish, traversal_finish]
    exact hrecord _ fun g => Phase.isPast_update (by exact trivial) g
  · cases v.above <;> simp [Role.progress]
  · simp [Role.InTurn]
  · intro g hg
    rw [Function.update_of_ne hg]

/-- The turn of a visit whose visits below are all over. -/
theorem Kept.close (h : Kept p roles log s) (hv : (v.folder, v.above) ∈ s.links)
    (hrole : roles v.folder = .closing) :
    ∃ roles', Kept p roles' log (s.finish v .done) ∧ Onward v.folder 5 roles roles' := by
  refine h.finish hv (Or.inr hrole) fun phase' hphase => ?_
  refine h.record.of_phase fun g => (hphase g).trans ⟨?_, Or.inr⟩
  rintro (rfl | hg)
  · simp [hrole, Role.phase, Phase.isPast]
  · exact hg

/-- The turn of a visit whose call is dropped, for the result is full. -/
theorem Kept.drop (h : Kept p roles log s) (hv : (v.folder, v.above) ∈ s.links)
    (hrole : roles v.folder = .entering) (hfull : s.traversal.isFull p = true) :
    ∃ roles', Kept p roles' log (s.release.finish v .done) ∧ Onward v.folder 5 roles roles' := by
  obtain ⟨roles₁, hkept, hleaving, hphase, honward⟩ := h.release hrole
  have hv' : (v.folder, v.above) ∈ s.release.links := by rwa [links_release]
  have hrecord : ∀ phase',
      (∀ g, (phase' g).isPast ↔ g = v.folder ∨ ((Role.phase ∘ roles₁) g).isPast) →
      Record p phase' s.release.links log s.traversal := by
    intro phase' hp
    rw [links_release]
    refine h.record.drop hfull fun g hg => (hp g).mpr (Or.inr ?_)
    rwa [hphase]
  obtain ⟨roles₂, hkept', honward₂⟩ := hkept.finish hv' (Or.inl hleaving) hrecord
  refine ⟨roles₂, ?_, honward₂.after honward⟩
  have hsame : { s.release with traversal := s.traversal } = s.release := by
    rw [← traversal_release]
  rwa [hsame] at hkept'

theorem foldl_push (found : List String) (s : Timeline) :
    found.foldl (fun s child => s.push (.turn child)) s =
      { s with agenda := s.agenda ++ found.map .turn } := by
  induction found generalizing s with
  | nil => simp
  | cons child rest ih => rw [List.foldl_cons, ih]; simp [push]

def awaiting (s : Timeline) (folder : String) (found : List String) : Timeline :=
  { s with
    visits := s.visits ++ found.map fun g => (⟨g, some folder, .fresh, false⟩ : Visit)
    agenda := s.agenda ++ found.map Event.turn }.setStage folder (.gathering found.length)

theorem links_awaiting (folder : String) (found : List String) :
    (s.awaiting folder found).links = s.links ++ found.map fun g => (g, some folder) := by
  rw [awaiting, links_setStage]
  simp [links, List.map_map, Function.comp_def]

def back (p : Plan) (s : Timeline) (folder : String) (reply : Reply) : Timeline :=
  { s.release with traversal := s.traversal.absorb p folder reply }

/-- A call comes back without a failure. -/
theorem comeBack_eq (hfilter : p.options.Total)
    (hreply : Traversal.levelOf (source.reply v.folder) = .ok level) :
    s.comeBack p source v =
      let found := s.traversal.found p v.folder level
      let back := s.back p v.folder (source.reply v.folder)
      if found = [] then back.finish v .done else back.awaiting v.folder found := by
  simp only [comeBack, back, traversal_release, Traversal.absorb_eq hfilter hreply,
    List.drop_length, List.head?_nil, List.drop_left]
  cases s.traversal.found p v.folder level with
  | nil => rfl
  | cons child rest =>
    rw [if_neg (by simp)]
    simp only [foldl_push]
    rfl

theorem Kept.found_spec (h : Kept p roles log s) (folder : String) (level : List Entry) :
    (s.traversal.found p folder level).Nodup ∧
      ∀ g ∈ s.traversal.found p folder level, roles g = .absent ∧ Path.isUnder g folder = true := by
  have hspec := s.traversal.found_spec p folder level
  refine ⟨hspec.1, fun g hg => ?_⟩
  obtain ⟨hnew, e, -, hshows, rfl⟩ := hspec.2 g hg
  rw [h.record.visited, ← folders_eq] at hnew
  exact ⟨(h.ledger.absent _).mpr hnew, hshows.2⟩

/-- A visit that goes to wait for new ones below it. -/
theorem Kept.await (h : Kept p roles log s) {found : List String} (hrole : roles f = .leaving)
    (hsome : found ≠ []) (hnodup : found.Nodup)
    (hnew : ∀ g ∈ found, roles g = .absent ∧ Path.isUnder g f = true)
    {t : Traversal} {log' : List Level}
    (hrecord : ∀ phase', (∀ g, (phase' g).isPast ↔ g = f ∨ ((Role.phase ∘ roles) g).isPast) →
      Record p phase' (s.links ++ found.map fun g => (g, some f)) log' t) :
    ∃ roles', Kept p roles' log' { s.awaiting f found with traversal := t } ∧
      Onward f 4 roles roles' := by
  let fresh : String → Role := fun g => if g ∈ found then .fresh else roles g
  have hf : f ∉ found := fun hin => by simp [(hnew f hin).1] at hrole
  have hfresh : fresh f = .leaving := by simp [fresh, hf, hrole]
  have hphase : Role.phase ∘ Function.update fresh f (.gathering found.length) =
      Function.update (fun g => if g ∈ found then .early else (Role.phase ∘ roles) g) f
        (.gathering found.length) := by
    rw [Function.comp_update]
    refine congrArg (Function.update · f _) ?_
    funext g
    by_cases hg : g ∈ found <;> simp [fresh, hg, Role.phase]
  have hout : ∀ g ∈ found, g ∉ s.folders := fun g hg => (h.ledger.absent g).mp (hnew g hg).1
  have hledger := (h.ledger.extend hnodup hout (some f)).gather hfresh found.length
  have hlinks : { s.awaiting f found with traversal := t }.links =
      s.links ++ found.map fun g => (g, some f) := links_awaiting f found
  refine ⟨Function.update fresh f (.gathering found.length), ⟨?_, ?_, ?_, ?_⟩, ?_, ?_, ?_⟩
  · exact hledger.of_traversal t s.peak
  · have hserved : Served fresh s := by
      rintro ⟨g, hg⟩
      have hgqueued : roles g = .queued := by
        by_cases hin : g ∈ found
        · simp [fresh, hin] at hg
        · simpa [fresh, hin] using hg
      rcases h.served ⟨g, hgqueued⟩ with hnone | ⟨b, hb⟩
      · exact Or.inl hnone
      · have hout : b ∉ found := fun hin => by simp [(hnew b hin).1] at hb
        exact Or.inr ⟨b, by simpa [fresh, hout] using hb⟩
    exact hserved.update _ (by simp [hfresh]) (by simp) rfl
  · rw [hphase, hlinks]
    refine h.family.gather (by simp [hrole, Role.phase]) hsome hnodup ?_ fun g hg => (hnew g hg).2
    intro g hg
    rw [← folders_eq]
    exact hout g hg
  · rw [hphase, hlinks]
    refine hrecord _ fun g => ?_
    rw [Phase.isPast_update (by exact trivial)]
    refine or_congr_right ?_
    by_cases hin : g ∈ found
    · simp [hin, (hnew g hin).1, Role.phase, Phase.isPast]
    · simp [hin]
  · simp [Role.progress]
  · simp [Role.InTurn]
  · intro g hg
    rw [Function.update_of_ne hg]
    by_cases hin : g ∈ found
    · exact Or.inr (Or.inl ⟨(hnew g hin).1, if_pos hin⟩)
    · exact Or.inl (if_neg hin)

/-- The turn in which a call comes back. -/
theorem Kept.comeBack (h : Kept p roles log s) (hfilter : p.options.Total)
    (hreply : Traversal.levelOf (source.reply v.folder) = .ok level)
    (hv : (v.folder, v.above) ∈ s.links) (hrole : roles v.folder = .entering) :
    ∃ roles', Kept p roles' (log ++ [(v.folder, level)]) (s.comeBack p source v) ∧
      Onward v.folder 4 roles roles' := by
  obtain ⟨roles₁, hkept, hleaving, hphase, honward⟩ := h.release hrole
  have hv' : (v.folder, v.above) ∈ s.release.links := by rwa [links_release]
  have hnot : ¬ ((Role.phase ∘ roles) v.folder).isPast := by
    simp [hrole, Role.phase, Phase.isPast]
  have hfirst : v.above = none → v.folder = p.options.folder := fun habove =>
    h.family.eq_start (habove ▸ hv)
  have hrecord : ∀ phase', (∀ g, (phase' g).isPast ↔
      g = v.folder ∨ ((Role.phase ∘ roles₁) g).isPast) →
      Record p phase' (s.release.links ++ (s.traversal.found p v.folder level).map fun g =>
        (g, some v.folder))
        (log ++ [(v.folder, level)]) (s.traversal.absorb p v.folder (source.reply v.folder)) := by
    intro phase' hp
    rw [links_release]
    rw [hphase] at hp
    rw [Traversal.absorb_eq hfilter hreply]
    exact h.record.extend hv hfirst hnot rfl rfl rfl hp
  obtain ⟨hnodup, hnew⟩ := hkept.found_spec v.folder level
  rw [traversal_release] at hnodup hnew
  rw [comeBack_eq hfilter hreply]
  by_cases hfound : s.traversal.found p v.folder level = []
  · rw [hfound] at hrecord
    simp only [List.map_nil, List.append_nil] at hrecord
    obtain ⟨roles₂, hkept', honward₂⟩ := hkept.finish hv' (Or.inl hleaving) hrecord
    simp only [hfound, if_true]
    exact ⟨roles₂, hkept', (honward₂.after honward).weaken (by omega)⟩
  · obtain ⟨roles₂, hkept', honward₂⟩ := hkept.await hleaving hfound hnodup hnew hrecord
    simp only [hfound, if_false]
    exact ⟨roles₂, hkept', honward₂.after honward⟩

/-- The levels taken down in one move: none or one, and that as the store answered. Unless
its call was out already, the call was made in this move. -/
def Logged (source : Source) (roles : String → Role) (s s' : Timeline) (log log' : List Level) :
    Prop :=
  log' = log ∨ ∃ f level, Traversal.levelOf (source.reply f) = .ok level ∧
    log' = log ++ [(f, level)] ∧
    ((roles f).IsOut ∨ s'.traversal.calls = s.traversal.calls ++ [f])

def Calm (source : Source) (f : String) : Prop :=
  ∃ level, Traversal.levelOf (source.reply f) = .ok level

theorem Kept.launch (h : Kept p roles log s) (folder : String) (peak : Nat) :
    Kept p roles log { s with traversal := s.traversal.launch p folder, peak := peak } :=
  ⟨h.ledger.of_traversal _ peak, h.served, h.family,
    h.record.of_eq Traversal.visited_launch Traversal.failures_launch Traversal.result_launch⟩

/-- The call of a visit goes on while other visits have their turns. -/
theorem Kept.suspend (h : Kept p roles log s) (hrole : roles f = .entering) (ending : Float) :
    ∃ roles',
      Kept p roles' log { s.setStage f .calling with running := s.running ++ [(f, ending)] } ∧
      Onward f 2 roles roles' := by
  have hphase : Role.phase ∘ Function.update roles f .calling = Role.phase ∘ roles := by
    rw [Function.comp_update]
    funext g
    by_cases hg : g = f
    · subst hg
      simp [hrole, Role.phase]
    · simp [hg]
  have hlinks : { s.setStage f .calling with running := s.running ++ [(f, ending)] }.links =
      s.links := links_setStage .calling
  refine ⟨Function.update roles f .calling, ⟨h.ledger.suspend hrole ending, ?_, ?_, ?_⟩,
    ?_, ?_, ?_⟩
  · exact h.served.update _ (by simp [hrole]) (by simp) rfl
  · rw [hphase, hlinks]
    exact h.family
  · rw [hphase, hlinks]
    exact h.record
  · simp [Role.progress]
  · simp [Role.InTurn]
  · intro g hg
    rw [Function.update_of_ne hg]

theorem isFull_launch (folder : String) :
    (s.traversal.launch p folder).isFull p = s.traversal.isFull p := by
  simp only [Traversal.isFull, Traversal.result_launch]

theorem traversal_comeBack : (s.comeBack p source v).traversal =
    s.traversal.absorb p v.folder (source.reply v.folder) := by
  simp only [comeBack, traversal_release]
  split
  · exact traversal_finish _
  · split
    · exact traversal_finish _
    · rw [foldl_push]
      rfl

theorem calls_comeBack : (s.comeBack p source v).traversal.calls = s.traversal.calls := by
  rw [traversal_comeBack, Traversal.calls_absorb]

/-- A visit that holds a permit has its call made. -/
theorem Kept.enter (h : Kept p roles log s) (hfilter : p.options.Total)
    (hcalm : Calm source v.folder) (hv : (v.folder, v.above) ∈ s.links)
    (hrole : roles v.folder = .entering) :
    ∃ roles' log', Kept p roles' log' (s.enter p source v) ∧
      (log' = log ∨ ∃ level, Traversal.levelOf (source.reply v.folder) = .ok level ∧
        log' = log ++ [(v.folder, level)] ∧
        (s.enter p source v).traversal.calls = s.traversal.calls ++ [v.folder]) ∧
      Onward v.folder 2 roles roles' ∧ ((roles' v.folder).IsOut →
        0 < source.duration v.folder) := by
  have hlaunch := h.launch v.folder (max s.peak (s.traversal.launch p v.folder).inFlight.length)
  simp only [Timeline.enter]
  split
  · rename_i hfull
    obtain ⟨roles', hkept, honward⟩ := hlaunch.drop hv hrole (by rwa [isFull_launch])
    refine ⟨roles', log, hkept, Or.inl rfl, honward.weaken (by omega), fun hout => ?_⟩
    exact absurd hout (Role.not_isOut (Nat.le_of_succ_le honward.far))
  · rename_i hroom
    split
    · rename_i htime
      obtain ⟨roles', hkept, honward⟩ := hlaunch.suspend hrole (s.now + source.duration v.folder)
      exact ⟨roles', log, hkept, Or.inl rfl, honward, fun _ => htime⟩
    · obtain ⟨level, hreply⟩ := hcalm
      obtain ⟨roles', hkept, honward⟩ := hlaunch.comeBack hfilter hreply hv hrole
      refine ⟨roles', _, hkept, Or.inr ⟨level, hreply, rfl, ?_⟩, honward.weaken (by omega),
        fun hout => ?_⟩
      · rw [calls_comeBack]
        simp only [Traversal.launch]
        rw [if_neg (by exact hroom)]
      · exact absurd hout (Role.not_isOut honward.far)

structure Forward (source : Source) (s : Timeline) (roles roles' : String → Role) : Prop where
  grow : ∀ g, (roles g).progress ≤ (roles' g).progress
  gain : ∃ f ∈ s.folders, (roles f).progress < (roles' f).progress
  out : ∀ g, (roles' g).IsOut → (roles g).IsOut ∨ 0 < source.duration g
  rested : ∀ g, (roles' g).InTurn → (roles g).InTurn

theorem Onward.forward {n : Nat} (h : Onward f n roles roles') (hf : f ∈ s.folders)
    (hn : (roles f).progress < n) (hout : (roles' f).IsOut → 0 < source.duration f) :
    Forward source s roles roles' where
  grow g := by
    by_cases hg : g = f
    · subst hg
      exact (Nat.le_of_lt hn).trans h.far
    · exact (h.others g hg).progress_le
  gain := ⟨f, hf, Nat.lt_of_lt_of_le hn h.far⟩
  out g hg := by
    by_cases hgf : g = f
    · subst hgf
      exact Or.inr (hout hg)
    · exact Or.inl ((h.others g hgf).isOut hg)
  rested g hg := by
    by_cases hgf : g = f
    · subst hgf
      exact absurd hg h.rested
    · exact (h.others g hgf).inTurn hg

/-- A visit past its call. -/
theorem Onward.forward_past {n : Nat} (h : Onward f n roles roles') (hf : f ∈ s.folders)
    (hn : (roles f).progress < n) (hpast : 4 ≤ n) : Forward source s roles roles' :=
  h.forward hf hn fun hout => absurd hout (Role.not_isOut (hpast.trans h.far))

/-- An early role that changes in the middle of a turn changes nothing for the others. -/
theorem Kept.of_ledger {r : Role} (h : Kept p roles log s) (hrole : (roles f).phase = r.phase)
    (hledger : Ledger p (Function.update roles f r) s')
    (hserved : Served (Function.update roles f r) s') (hlinks : s'.links = s.links)
    (htraversal : s'.traversal = s.traversal) : Kept p (Function.update roles f r) log s' := by
  have hphase : Role.phase ∘ Function.update roles f r = Role.phase ∘ roles := by
    rw [Function.comp_update]
    funext g
    by_cases hg : g = f
    · subst hg
      simp [hrole]
    · simp [hg]
  refine ⟨hledger, hserved, ?_, ?_⟩
  · rw [hphase, hlinks]
    exact h.family
  · rw [hphase, hlinks, htraversal]
    exact h.record

theorem Onward.of_update {n : Nat} {r : Role} (h : Onward f n (Function.update roles f r) roles') :
    Onward f n roles roles' := by
  refine ⟨h.far, h.rested, fun g hg => ?_⟩
  have hnudged := h.others g hg
  rwa [Function.update_of_ne hg] at hnudged

def Advances (p : Plan) (source : Source) (roles : String → Role) (log : List Level)
    (s s' : Timeline) : Prop :=
  ∃ roles' log', Kept p roles' log' s' ∧ Logged source roles s s' log log' ∧
    Forward source s roles roles'

variable {rest : List Event}

/-- The first turn of a visit. -/
theorem Kept.turn_fresh (h : Kept p roles log s) (hfilter : p.options.Total)
    (hcalm : Calm source v.folder) (hagenda : s.agenda = .turn v.folder :: rest)
    (hv : v ∈ s.visits) (hrole : roles v.folder = .fresh) :
    Advances p source roles log s ({ s with agenda := rest }.turn p source v) := by
  have hmem : v.folder ∈ s.folders := List.mem_map_of_mem hv
  have hfits := h.ledger.fits v hv
  simp only [hrole, Role.Fits] at hfits
  simp only [Timeline.turn, hfits.1, hfits.2, Bool.false_eq_true, if_false]
  cases hmust : s.mustQueue with
  | true =>
    rw [if_pos (show mustQueue { s with agenda := rest } = true from hmust)]
    have hserved : Served (Function.update roles v.folder .queued)
        { { s with agenda := rest }.setStage v.folder .queued with
          line := s.line ++ [v.folder] } := by
      intro _
      have hgranted : ∀ g, roles g = .granted →
          Function.update roles v.folder .queued g = .granted := by
        intro g hg
        rw [Function.update_of_ne (by rintro rfl; simp [hrole] at hg)]
        exact hg
      rcases h.ledger.mustQueue_eq_true hmust with hnone | ⟨g, hg | hg⟩
      · exact Or.inl hnone
      · rcases h.served ⟨g, hg⟩ with hnone | ⟨b, hb⟩
        · exact Or.inl hnone
        · exact Or.inr ⟨b, hgranted b hb⟩
      · exact Or.inr ⟨g, hgranted g hg⟩
    refine ⟨_, log, h.of_ledger (by simp [hrole, Role.phase]) (h.ledger.enqueue hrole hagenda)
      hserved (links_setStage .queued) rfl, Or.inl rfl, ?_⟩
    refine Onward.forward (n := 1)
      ⟨by simp [Role.progress], by simp [Role.InTurn], fun g hg => ?_⟩ hmem
      (by simp [hrole, Role.progress]) (by simp [Role.IsOut])
    rw [Function.update_of_ne hg]
  | false =>
    rw [if_neg (show ¬ mustQueue { s with agenda := rest } = true by
      simpa using show mustQueue { s with agenda := rest } = false from hmust)]
    obtain ⟨hpermits, hnobody⟩ := h.ledger.mustQueue_eq_false hmust
    have hserved : Served (Function.update roles v.folder .entering)
        { s with agenda := rest, permits := s.permits - 1 } := by
      rintro ⟨g, hg⟩
      exfalso
      by_cases hgv : g = v.folder
      · subst hgv
        simp at hg
      · rw [Function.update_of_ne hgv] at hg
        exact (hnobody g).1 hg
    have hkept := h.of_ledger (r := .entering) (by simp [hrole, Role.phase])
      (h.ledger.take hrole hagenda hpermits) hserved rfl rfl
    obtain ⟨roles', log', hkept', hlogged, honward, hout⟩ :=
      hkept.enter hfilter hcalm (links_mem hv) (Function.update_self ..)
    refine ⟨roles', log', hkept', hlogged.imp_right ?_, honward.of_update.forward hmem
      (by simp [hrole, Role.progress]) hout⟩
    rintro ⟨level, hreply, hlog, hcalls⟩
    exact ⟨v.folder, level, hreply, hlog, Or.inr hcalls⟩

/-- The turn that comes with a permit. -/
theorem Kept.turn_granted (h : Kept p roles log s) (hfilter : p.options.Total)
    (hcalm : Calm source v.folder) (hagenda : s.agenda = .turn v.folder :: rest)
    (hv : v ∈ s.visits) (hrole : roles v.folder = .granted) :
    Advances p source roles log s ({ s with agenda := rest }.turn p source v) := by
  have hmem : v.folder ∈ s.folders := List.mem_map_of_mem hv
  have hfits := h.ledger.fits v hv
  simp only [hrole, Role.Fits] at hfits
  simp only [Timeline.turn, hfits.1, hfits.2, Bool.false_eq_true, if_false]
  have hledger := h.ledger.step hrole hagenda
  let left := { s with agenda := rest }.leaveLine v.folder
  obtain ⟨roles₁, hkept, hentering, hothers⟩ : ∃ roles₁,
      Kept p roles₁ log (if 0 < left.permits then left.wakeNext else left) ∧
      roles₁ v.folder = .entering ∧
      ∀ g, Role.Nudged (Function.update roles v.folder .entering g) (roles₁ g) := by
    split
    · rename_i hpermits
      obtain ⟨roles₁, hledger₁, hserved₁, hwoken⟩ := hledger.wakeNext hpermits
      have hphase : Role.phase ∘ roles₁ = Role.phase ∘ roles := by
        rw [phase_of_woken hwoken, Function.comp_update]
        funext g
        by_cases hg : g = v.folder
        · subst hg
          simp [hrole, Role.phase]
        · simp [hg]
      refine ⟨roles₁, ⟨hledger₁, hserved₁, ?_, ?_⟩, ?_, nudged_of_woken hwoken⟩
      · rw [hphase, links_wakeNext]
        exact h.family
      · rw [hphase, links_wakeNext, traversal_wakeNext]
        exact h.record
      · rcases hwoken v.folder with heq | ⟨hqueued, -⟩
        · rw [heq, Function.update_self]
        · simp at hqueued
    · rename_i hpermits
      refine ⟨_, h.of_ledger (by simp [hrole, Role.phase]) hledger ?_ rfl rfl,
        Function.update_self .., fun _ => Or.inl rfl⟩
      intro _
      exact Or.inl (Nat.eq_zero_of_not_pos hpermits)
  have hlinks : (if 0 < left.permits then left.wakeNext else left).links = s.links := by
    split
    · exact links_wakeNext
    · rfl
  have htraversal : (if 0 < left.permits then left.wakeNext else left).traversal =
      s.traversal := by
    split
    · exact traversal_wakeNext
    · rfl
  obtain ⟨roles', log', hkept', hlogged, honward, hout⟩ :=
    hkept.enter hfilter hcalm (by rw [hlinks]; exact links_mem hv) hentering
  refine ⟨roles', log', hkept', hlogged.imp_right ?_,
    Onward.forward ⟨honward.far, honward.rested, fun g hg => ?_⟩ hmem
      (by simp [hrole, Role.progress]) hout⟩
  · rintro ⟨level, hreply, hlog, hcalls⟩
    rw [htraversal] at hcalls
    exact ⟨v.folder, level, hreply, hlog, Or.inr hcalls⟩
  · have hnudged := (hothers g).trans (honward.others g hg)
    rwa [Function.update_of_ne hg] at hnudged

/-- The turn after a call. -/
theorem Kept.turn_returned (h : Kept p roles log s) (hfilter : p.options.Total)
    (hcalm : Calm source v.folder) (hagenda : s.agenda = .turn v.folder :: rest)
    (hv : v ∈ s.visits) (hrole : roles v.folder = .returned) :
    Advances p source roles log s ({ s with agenda := rest }.turn p source v) := by
  have hmem : v.folder ∈ s.folders := List.mem_map_of_mem hv
  have hfits := h.ledger.fits v hv
  simp only [hrole, Role.Fits] at hfits
  simp only [Timeline.turn, hfits.1, hfits.2, Bool.false_eq_true, if_false]
  have hserved := h.served.update (f := v.folder) (r := .entering) { s with agenda := rest }
    (by simp [hrole]) (by simp) rfl
  have hkept := h.of_ledger (by simp [hrole, Role.phase]) (h.ledger.resumed hrole hagenda)
    hserved rfl rfl
  obtain ⟨level, hreply⟩ := hcalm
  obtain ⟨roles', hkept', honward⟩ :=
    hkept.comeBack hfilter hreply (links_mem hv) (Function.update_self ..)
  exact ⟨roles', _, hkept', Or.inr ⟨v.folder, level, hreply, rfl, Or.inl (Or.inr hrole)⟩,
    honward.of_update.forward_past hmem (by simp [hrole, Role.progress]) le_rfl⟩

/-- The turn after the last report. -/
theorem Kept.turn_gathered (h : Kept p roles log s) (source : Source)
    (hagenda : s.agenda = .turn v.folder :: rest) (hv : v ∈ s.visits)
    (hrole : roles v.folder = .gathered) :
    Advances p source roles log s ({ s with agenda := rest }.turn p source v) := by
  have hmem : v.folder ∈ s.folders := List.mem_map_of_mem hv
  have hfits := h.ledger.fits v hv
  simp only [hrole, Role.Fits] at hfits
  simp only [Timeline.turn, hfits.1, hfits.2, Bool.false_eq_true, if_false]
  have hserved := h.served.update (f := v.folder) (r := .closing) { s with agenda := rest }
    (by simp [hrole]) (by simp) rfl
  have hkept := h.of_ledger (by simp [hrole, Role.phase]) (h.ledger.close hrole hagenda)
    hserved rfl rfl
  obtain ⟨roles', hkept', honward⟩ := hkept.close (links_mem hv) (Function.update_self ..)
  exact ⟨roles', log, hkept', Or.inl rfl,
    honward.of_update.forward_past hmem (by simp [hrole, Role.progress]) (by omega)⟩

/-- Every turn on the agenda is one of a visit whose time has come. -/
theorem Kept.turn (h : Kept p roles log s) (hfilter : p.options.Total)
    (hcalm : ∀ f ∈ s.folders, Calm source f) (hagenda : s.agenda = .turn f :: rest) :
    Advances p source roles log s ({ s with agenda := rest }.handle p source (.turn f)) := by
  have hturns : 0 < (roles f).turns := by
    rw [← h.ledger.turns, hagenda]
    simp
  obtain ⟨v, hv, rfl, hvisit⟩ := h.ledger.visit (f := f)
    (by intro habsent; simp [habsent, Role.turns] at hturns)
  have hanswer := hcalm v.folder (List.mem_map_of_mem hv)
  have hvisit' : visit? { s with agenda := rest } v.folder = some v := hvisit
  simp only [handle, hvisit']
  cases hrole : roles v.folder with
  | fresh => exact h.turn_fresh hfilter hanswer hagenda hv hrole
  | granted => exact h.turn_granted hfilter hanswer hagenda hv hrole
  | returned => exact h.turn_returned hfilter hanswer hagenda hv hrole
  | gathered => exact h.turn_gathered source hagenda hv hrole
  | _ => simp [hrole, Role.turns] at hturns

/-- The visit that reports and the one it reports to. -/
theorem Kept.reporter (h : Kept p roles log s) (hrole : roles f = .ended false) :
    ∃ a n, (f, some a) ∈ s.links ∧ roles a = .gathering n ∧
      s.visit? f = some ⟨f, some a, .over .done, false⟩ := by
  obtain ⟨⟨folder, above, stage, cancelled⟩, hv, rfl, hvisit⟩ := h.ledger.visit (f := f)
    (by simp [hrole])
  have hfits := h.ledger.fits _ hv
  have hlink := links_mem hv
  have hphase : (Role.phase ∘ roles) folder = .ended false := by simp [hrole, Role.phase]
  simp only [hrole, Role.Fits] at hfits
  cases above with
  | none =>
    have hstart : folder = p.options.folder := h.family.eq_start hlink
    exact absurd (hstart ▸ hphase) h.family.top
  | some a =>
    rcases h.family.parent folder a hlink with ⟨n, hn⟩ | ⟨-, hover⟩
    · refine ⟨a, n, hlink, ?_, ?_⟩
      · simp only [Function.comp_apply] at hn
        cases hra : roles a <;> simp_all [Role.phase]
      · simp only [hvisit, hfits.1, hfits.2]
    · simp [Function.comp_apply, hrole, Role.phase] at hover

theorem Kept.role_of_report (h : Kept p roles log s) (hagenda : s.agenda = .report f :: rest) :
    roles f = .ended false := by
  have hreports : 0 < (roles f).reports := by
    rw [← h.ledger.reports, hagenda]
    simp
  cases hr : roles f with
  | ended reported => cases reported <;> simp_all [Role.reports]
  | _ => simp [hr, Role.reports] at hreports

/-- What holds of the roles that two visits take on, and of the others as they are. -/
theorem forall_update₂ {a : String} {r r' : Role} {P : String → Role → Prop} (ha : P a r')
    (hf : P f r) (hrest : ∀ g, P g (roles g)) (g : String) :
    P g (Function.update (Function.update roles f r) a r' g) := by
  by_cases hga : g = a
  · subst hga
    rwa [Function.update_self]
  · rw [Function.update_of_ne hga]
    by_cases hgf : g = f
    · subst hgf
      rwa [Function.update_self]
    · rw [Function.update_of_ne hgf]
      exact hrest g

/-- Every report on the agenda reaches a visit that waits for it. -/
theorem Kept.report (h : Kept p roles log s) (source : Source)
    (hagenda : s.agenda = .report f :: rest) :
    Advances p source roles log s ({ s with agenda := rest }.handle p source (.report f)) := by
  have hrole := h.role_of_report hagenda
  obtain ⟨a, n, hlink, ha, hvisit⟩ := h.reporter hrole
  have hfa : f ≠ a := by
    rintro rfl
    simp [hrole] at ha
  have hledger := h.ledger.reported hrole hagenda
  have ha' : Function.update roles f (.ended true) a = .gathering n := by
    rw [Function.update_of_ne (Ne.symm hfa), ha]
  have hvisit' : visit? { s with agenda := rest } f = some ⟨f, some a, .over .done, false⟩ :=
    hvisit
  obtain ⟨w, hw, rfl, habove⟩ := hledger.visit (f := a) (by simp [ha'])
  have hfits := (hledger.fits w hw).2
  simp only [ha', Role.Fits] at hfits
  have hfamily := h.family.report hlink (by simp [hrole, Role.phase])
    (n := n) (by simp [ha, Role.phase])
  let last : Role := if n ≤ 1 then .gathered else .gathering (n - 1)
  let roles' := Function.update (Function.update roles f (.ended true)) w.folder last
  have hphase : Role.phase ∘ roles' = Function.update (Function.update (Role.phase ∘ roles) f
      (.ended true)) w.folder (if n ≤ 1 then .gathered else .gathering (n - 1)) := by
    simp only [roles', Function.comp_update, show (Role.ended true).phase = .ended true from rfl]
    by_cases hn : n ≤ 1 <;> simp [last, hn, Role.phase]
  have hstate : ({ s with agenda := rest }.handle p source (.report f)) =
      if n ≤ 1 then
        (setStage { s with agenda := rest } w.folder (.gathered .done)).push (.turn w.folder)
      else setStage { s with agenda := rest } w.folder (.gathering (n - 1)) := by
    simp only [handle, hvisit', Timeline.report, habove, hfits]
  have hlinks : ({ s with agenda := rest }.handle p source (.report f)).links = s.links := by
    rw [hstate]
    split <;> exact links_setStage _
  have htraversal : ({ s with agenda := rest }.handle p source (.report f)).traversal =
      s.traversal := by
    rw [hstate]
    split <;> rfl
  have hpast : ∀ g, ((Role.phase ∘ roles') g).isPast ↔ ((Role.phase ∘ roles) g).isPast := by
    refine forall_update₂ (P := fun g r => r.phase.isPast ↔ (roles g).phase.isPast) ?_ ?_
      fun g => Iff.rfl
    · refine iff_of_true ?_ (by simp [ha, Role.phase, Phase.isPast])
      simp only [last]
      split <;> simp [Role.phase, Phase.isPast]
    · simp [hrole, Role.phase, Phase.isPast]
  have hserved : ∀ s'', s''.permits = s.permits → Served roles' s'' := by
    intro s'' hpermits
    have hmid := h.served.update (f := f) (r := .ended true) s'' (by simp [hrole])
        (by simp) hpermits
    exact hmid.update _ (by simp [ha']) (by simp only [last]; split <;> simp) rfl
  refine ⟨roles', log, ⟨?_, ?_, ?_, ?_⟩, Or.inl rfl,
    ⟨?_, ⟨f, h.ledger.mem_folders (by simp [hrole]), ?_⟩, ?_, ?_⟩⟩
  · rw [hstate]
    simp only [roles', last]
    split
    · exact hledger.gathered ha'
    · exact hledger.countDown ha'
  · rw [hstate]
    split <;> exact hserved _ rfl
  · rw [hlinks, hphase]
    exact hfamily
  · rw [hlinks, htraversal]
    exact h.record.of_phase hpast
  · refine forall_update₂ (P := fun g r => (roles g).progress ≤ r.progress) ?_ ?_
      fun g => le_refl _
    · simp only [last, ha]
      split <;> simp [Role.progress]
    · simp [hrole, Role.progress]
  · simp [roles', hfa, hrole, Role.progress]
  · refine forall_update₂ (P := fun g r => r.IsOut → (roles g).IsOut ∨ _) ?_ ?_ fun g => Or.inl
    · intro hout
      simp only [last, Role.IsOut] at hout
      split at hout <;> simp at hout
    · simp [Role.IsOut]
  · refine forall_update₂ (P := fun g r => r.InTurn → (roles g).InTurn) ?_ ?_ fun g => id
    · intro hturn
      simp only [last, Role.InTurn] at hturn
      split at hturn <;> simp at hturn
    · simp [Role.InTurn]

end Depot.Listing.Timeline
