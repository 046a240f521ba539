import Depot.Proofs.Listing.Family

/-!
What a listing has taken down. The record is the sequence of levels that came back,
each with the folder it was asked for. The result is what passes the options in
these levels, in their order; every folder they show has a visit, and every visit
but the first is of a folder that an earlier level shows.
-/
namespace Depot.Listing

abbrev Level := String × List Entry

def Shows (folder : String) (e : Entry) : Prop :=
  e.isFolder = true ∧ Path.isUnder e.path folder = true

namespace Options

def passes (o : Options) (e : Entry) : Bool :=
  match o.accepts e with
  | .ok pass => pass
  | .error _ => false

def Total (o : Options) : Prop := ∀ test, o.filter = some test → ∀ e, ∃ pass, test e = .ok pass

theorem Total.accepts {o : Options} (h : o.Total) (e : Entry) : o.accepts e = .ok (o.passes e) := by
  have hanswer : ∃ pass, o.accepts e = .ok pass := by
    unfold Options.accepts
    split
    · cases hfilter : o.filter with
      | none => exact ⟨true, rfl⟩
      | some test => exact h test hfilter e
    · exact ⟨false, rfl⟩
  obtain ⟨pass, hpass⟩ := hanswer
  simp [passes, hpass]

theorem isMatch_of_passes {o : Options} {e : Entry} (h : o.passes e = true) :
    o.isMatch e = true := by
  by_contra hno
  simp [passes, accepts, hno] at h

end Options

namespace Traversal

theorem acceptEach_eq {o : Options} (h : o.Total) (level : List Entry) :
    acceptEach o level = (level.filter o.passes, none) := by
  induction level with
  | nil => rfl
  | cons e rest ih => cases hpass : o.passes e <;> simp [acceptEach, h.accepts, ih, hpass]

theorem discover_spec (folder : String) (level : List Entry) (visited : List String) :
    (discover folder visited level).Nodup ∧
      (∀ f ∈ discover folder visited level, f ∉ visited ∧
        ∃ e ∈ level, Shows folder e ∧ e.path = f) ∧
      ∀ e ∈ level, Shows folder e → e.path ∈ visited ∨ e.path ∈ discover folder visited level := by
  induction level generalizing visited with
  | nil => simp [discover]
  | cons e rest ih =>
    unfold discover
    split
    · rename_i hnew
      simp only [Bool.and_eq_true, Bool.not_eq_true', List.contains_eq_mem,
        decide_eq_false_iff_not] at hnew
      obtain ⟨hnodup, hfound, hall⟩ := ih (e.path :: visited)
      refine ⟨?_, ?_, ?_⟩
      · rw [List.nodup_cons]
        exact ⟨fun hmem => (hfound _ hmem).1 List.mem_cons_self, hnodup⟩
      · intro f hf
        rcases List.mem_cons.mp hf with rfl | hf
        · exact ⟨hnew.1.2, e, List.mem_cons_self, ⟨hnew.1.1, hnew.2⟩, rfl⟩
        · obtain ⟨hnot, d, hd, hshows, hpath⟩ := hfound f hf
          exact ⟨fun hv => hnot (List.mem_cons_of_mem _ hv), d, List.mem_cons_of_mem _ hd,
            hshows, hpath⟩
      · intro d hd hshows
        rcases List.mem_cons.mp hd with rfl | hd
        · exact Or.inr List.mem_cons_self
        · rcases hall d hd hshows with hv | hv
          · rcases List.mem_cons.mp hv with heq | hv
            · exact Or.inr (heq ▸ List.mem_cons_self)
            · exact Or.inl hv
          · exact Or.inr (List.mem_cons_of_mem _ hv)
    · rename_i hold
      obtain ⟨hnodup, hfound, hall⟩ := ih visited
      refine ⟨hnodup, ?_, ?_⟩
      · intro f hf
        obtain ⟨hnot, d, hd, hrest⟩ := hfound f hf
        exact ⟨hnot, d, List.mem_cons_of_mem _ hd, hrest⟩
      · intro d hd hshows
        rcases List.mem_cons.mp hd with rfl | hd
        · refine Or.inl ?_
          by_contra hv
          exact hold (by simp [hshows.1, hshows.2, hv])
        · exact hall d hd hshows

def merged (p : Plan) (t : Traversal) (level : List Entry) : Traversal :=
  { t with result := t.result ++ level.filter p.options.passes }

def found (p : Plan) (t : Traversal) (folder : String) (level : List Entry) : List String :=
  if !p.descends || (t.merged p level).isFull p then [] else discover folder t.visited level

variable {p : Plan} {t : Traversal} {folder : String} {reply : Reply} {level : List Entry}

/-- The new folders of a level are inside the listed one, and all different. -/
theorem found_spec (p : Plan) (t : Traversal) (folder : String) (level : List Entry) :
    (t.found p folder level).Nodup ∧ ∀ f ∈ t.found p folder level, f ∉ t.visited ∧
      ∃ e ∈ level, Shows folder e ∧ e.path = f := by
  have hspec := discover_spec folder level t.visited
  unfold found
  split
  · simp
  · exact ⟨hspec.1, hspec.2.1⟩

/-- No folder inside the listed one is left out as long as there is room. -/
theorem mem_found (hdescends : p.descends = true) (hroom : (t.merged p level).isFull p = false)
    {e : Entry} (he : e ∈ level) (hshows : Shows folder e) :
    e.path ∈ t.visited ++ t.found p folder level := by
  rw [found, if_neg (by simp [hdescends, hroom]), List.mem_append]
  exact (discover_spec folder level t.visited).2.2 e he hshows

theorem absorb_eq (hfilter : p.options.Total) (hreply : levelOf reply = .ok level) :
    t.absorb p folder reply =
      { t with
        inFlight := t.inFlight.erase folder
        result := t.result ++ level.filter p.options.passes
        visited := t.visited ++ t.found p folder level
        waiting := t.waiting ++ t.found p folder level } := by
  simp only [absorb, hreply, acceptEach_eq hfilter, found]
  by_cases hstop : (!p.descends || (t.merged p level).isFull p) = true
  · rw [if_pos hstop]
    refine (if_pos hstop).trans ?_
    simp
  · rw [if_neg hstop]
    exact if_neg hstop

@[simp] theorem visited_launch : (t.launch p folder).visited = t.visited := by
  simp only [launch]
  split <;> rfl

@[simp] theorem result_launch : (t.launch p folder).result = t.result := by
  simp only [launch]
  split <;> rfl

@[simp] theorem failures_launch : (t.launch p folder).failures = t.failures := by
  simp only [launch]
  split <;> rfl

theorem calls_absorb : (t.absorb p folder reply).calls = t.calls := by
  simp only [absorb]
  repeat' split
  all_goals rfl

theorem isFull_append {more : List Entry} (h : t.isFull p = true) {t' : Traversal}
    (hresult : t'.result = t.result ++ more) : t'.isFull p = true := by
  unfold isFull at h ⊢
  cases hlimit : p.options.limit with
  | none => simp [hlimit] at h
  | some k =>
    simp only [hlimit, decide_eq_true_eq, hresult, List.length_append] at h ⊢
    omega

end Traversal

namespace Timeline

def Phase.isPast : Phase → Prop
  | .gathering _ | .gathered | .ended _ => True
  | _ => False

/-- What the traversal holds is what the levels in `log` make of it. -/
structure Record (p : Plan) (phase : String → Phase) (links : List Link) (log : List Level)
    (t : Traversal) : Prop where
  visited : t.visited = links.map Prod.fst
  calm : t.failures = []
  result : t.result = log.flatMap fun l => l.2.filter p.options.passes
  unique : (log.map Prod.fst).Nodup
  past : ∀ f ∈ log.map Prod.fst, (phase f).isPast
  listed : ∀ f, (phase f).isPast → f ∈ log.map Prod.fst ∨ t.isFull p = true
  closed : p.descends = true → ∀ l ∈ log, ∀ e ∈ l.2, Shows l.1 e →
    e.path ∈ t.visited ∨ t.isFull p = true
  found : ∀ f a, (f, some a) ∈ links → ∃ level, (a, level) ∈ log ∧ ∃ e ∈ level,
    Shows a e ∧ e.path = f
  order : ∀ pre l post, log = pre ++ l :: post → l.1 = p.options.folder ∨
    ∃ m ∈ pre, ∃ e ∈ m.2, Shows m.1 e ∧ e.path = l.1
  single : p.descends = false → links.length = 1

namespace Record

variable {p : Plan} {phase phase' : String → Phase} {links : List Link} {log : List Level}
  {t t' : Traversal} {f : String}

theorem start (p : Plan) : Record p (fun f => if f = p.options.folder then .early else .absent)
    [(p.options.folder, none)] [] (.start p) where
  visited := rfl
  calm := rfl
  result := rfl
  unique := List.nodup_nil
  past f hf := by simp at hf
  listed f hf := by
    by_cases hs : f = p.options.folder
    · simp [hs, Phase.isPast] at hf
    · simp [hs, Phase.isPast] at hf
  closed _ l hl := by simp at hl
  found f a hf := by simp at hf
  order pre l post h := by simp at h
  single _ := rfl

/-- Nothing but the queues of the traversal changed. -/
theorem of_eq (h : Record p phase links log t) (hvisited : t'.visited = t.visited)
    (hfailures : t'.failures = t.failures) (hresult : t'.result = t.result) :
    Record p phase links log t' := by
  have hfull : t'.isFull p = t.isFull p := by
    simp only [Traversal.isFull, hresult]
  refine ⟨hvisited.trans h.visited, hfailures.trans h.calm, hresult.trans h.result, h.unique,
    h.past, ?_, ?_, h.found, h.order, h.single⟩
  · rw [hfull]
    exact h.listed
  · rw [hfull, hvisited]
    exact h.closed

/-- Visits that were past their call stay so, and no other comes to be. -/
theorem of_phase (h : Record p phase links log t)
    (hphase : ∀ f, (phase' f).isPast ↔ (phase f).isPast) : Record p phase' links log t where
  visited := h.visited
  calm := h.calm
  result := h.result
  unique := h.unique
  past f hf := (hphase f).mpr (h.past f hf)
  listed f hf := h.listed f ((hphase f).mp hf)
  closed := h.closed
  found := h.found
  order := h.order
  single := h.single

/-- A visit is dropped because the result is full. -/
theorem drop (h : Record p phase links log t) (hfull : t.isFull p = true)
    (hphase : ∀ g, (phase g).isPast → (phase' g).isPast) : Record p phase' links log t where
  visited := h.visited
  calm := h.calm
  result := h.result
  unique := h.unique
  past f hf := hphase f (h.past f hf)
  listed _ _ := Or.inr hfull
  closed := h.closed
  found := h.found
  order := h.order
  single := h.single

/-- A level comes back. -/
theorem extend (h : Record p phase links log t) {above : Option String} (hf : (f, above) ∈ links)
    (hfirst : above = none → f = p.options.folder) (hearly : ¬ (phase f).isPast)
    {level : List Entry}
    (hvisited : t'.visited = t.visited ++ t.found p f level) (hfailures : t'.failures = t.failures)
    (hresult : t'.result = t.result ++ level.filter p.options.passes)
    (hphase : ∀ g, (phase' g).isPast ↔ g = f ∨ (phase g).isPast) :
    Record p phase' (links ++ (t.found p f level).map fun g => (g, some f)) (log ++ [(f, level)])
      t' := by
  have hfull : t.isFull p = true → t'.isFull p = true := fun hf => t.isFull_append hf hresult
  have hfound : ∀ g ∈ t.found p f level, ∃ e ∈ level, Shows f e ∧ e.path = g := fun g hg =>
    ((t.found_spec p f level).2 g hg).2
  refine ⟨?_, hfailures.trans h.calm, ?_, ?_, ?_, ?_, ?_, ?_, ?_, ?_⟩
  · rw [hvisited, h.visited]
    simp [List.map_map, Function.comp_def]
  · rw [hresult, h.result]
    simp
  · rw [List.map_append, List.nodup_append]
    refine ⟨h.unique, by simp, ?_⟩
    intro a ha b hb hab
    obtain rfl : b = f := by simpa using hb
    exact hearly (h.past _ (hab ▸ ha))
  · intro g hg
    rw [List.map_append, List.mem_append] at hg
    rcases hg with hg | hg
    · exact (hphase g).mpr (Or.inr (h.past g hg))
    · exact (hphase g).mpr (Or.inl (by simpa using hg))
  · intro g hg
    rcases (hphase g).mp hg with rfl | hg
    · exact Or.inl (by simp)
    · rcases h.listed g hg with hmem | hf
      · exact Or.inl (by simp [hmem])
      · exact Or.inr (hfull hf)
  · intro hdescends l hl e he hshows
    rcases List.mem_append.mp hl with hl | hl
    · rcases h.closed hdescends l hl e he hshows with hv | hf
      · exact Or.inl (by simp [hvisited, hv])
      · exact Or.inr (hfull hf)
    · obtain rfl : l = (f, level) := by simpa using hl
      cases hstop : (t.merged p level).isFull p with
      | true =>
        refine Or.inr ?_
        simpa [Traversal.isFull, hresult, Traversal.merged] using hstop
      | false => exact Or.inl (hvisited ▸ t.mem_found hdescends hstop he hshows)
  · intro g a hg
    rcases List.mem_append.mp hg with hg | hg
    · obtain ⟨es, hes, hshow⟩ := h.found g a hg
      exact ⟨es, List.mem_append_left _ hes, hshow⟩
    · obtain ⟨b, hb, heq⟩ := List.mem_map.mp hg
      obtain ⟨rfl, hfa⟩ := Prod.mk.inj heq
      obtain rfl : f = a := Option.some.inj hfa
      exact ⟨level, List.mem_append_right _ (by simp), hfound b hb⟩
  · intro pre l post hsplit
    rcases List.eq_nil_or_concat post with rfl | ⟨rest, last, rfl⟩
    · obtain ⟨rfl, hlast⟩ := List.append_inj' hsplit rfl
      obtain rfl : (f, level) = l := by simpa using hlast
      cases above with
      | none => exact Or.inl (hfirst rfl)
      | some a =>
        obtain ⟨es, hes, e, he, hshows, hpath⟩ := h.found f a hf
        exact Or.inr ⟨(a, es), hes, e, he, hshows, hpath⟩
    · rw [List.concat_eq_append, ← List.cons_append, ← List.append_assoc] at hsplit
      obtain ⟨hlog, -⟩ := List.append_inj' hsplit rfl
      exact h.order pre l rest hlog
  · intro hflat
    simp [Traversal.found, hflat, h.single hflat]

end Record

end Timeline

end Depot.Listing
