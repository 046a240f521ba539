import Depot.Proofs.Listing.Breadth

/-!
Listings that are narrowed by a prefix, a filter or a limit, over stores whose calls take
no time. The narrowed walk and the plain one keep abreast until the narrowed result is
full; what it holds then is the beginning of what passes in the plain result.
-/
namespace Depot.Listing

namespace Options

def plain (o : Options) (threads : Nat) (hthreads : 0 < threads) : Options :=
  { o with
    filePrefix := none
    filter := none
    limit := none
    threads := threads
    threads_pos := hthreads }

def Alike (q o : Options) : Prop := q.plain 1 Nat.one_pos = o.plain 1 Nat.one_pos

variable {o : Options} {threads : Nat} {hthreads : 0 < threads}

theorem passes_plain (e : Entry) : (o.plain threads hthreads).passes e = true := by
  simp [passes, accepts, isMatch, plain, prefixPasses]

theorem total_plain : (o.plain threads hthreads).Total := by
  intro test htest
  simp [plain] at htest

/-- What passes is found among what matches. -/
theorem filter_passes (es : List Entry) :
    (es.filter o.isMatch).filter o.passes = es.filter o.passes := by
  rw [List.filter_filter]
  apply List.filter_congr
  intro e _
  cases hpass : o.passes e with
  | false => rfl
  | true => rw [isMatch_of_passes hpass]; rfl

end Options

def upTo (limit : Option Nat) (es : List Entry) : List Entry :=
  match limit with
  | none => es
  | some k => es.take k

namespace Traversal

variable {p q : Plan} {source bare : Source} {t u : Traversal} {folder : String}
  {rest : List String} {level : List Entry}

/-- Entries that do not match are no folders, and so they lead nowhere. -/
theorem discover_filter (o : Options) (folder : String) (visited : List String)
    (level : List Entry) :
    discover folder visited (level.filter o.isMatch) = discover folder visited level := by
  induction level generalizing visited with
  | nil => rfl
  | cons e rest ih =>
    cases hmatch : o.isMatch e with
    | true =>
      rw [List.filter_cons_of_pos hmatch]
      simp only [discover, ih]
    | false =>
      have hfile : e.isFolder = false := by
        simp only [Options.isMatch, Bool.or_eq_false_iff, Bool.not_eq_false', Entry.isFile,
          decide_eq_true_eq] at hmatch
        simp [Entry.isFolder, hmatch.1]
      rw [List.filter_cons_of_neg (by simp [hmatch]), ih]
      simp [discover, hfile]

theorem advance_of_done (hdone : t.waiting = []) : t.advance p source = t := by
  simp [advance, hdone]

/-- Once the result is full it stays as it is. -/
theorem result_advance_of_full (hfull : t.isFull p = true) :
    (t.advance p source).result = t.result := by
  unfold advance
  cases hwaiting : t.waiting with
  | nil => rfl
  | cons folder rest =>
    dsimp only
    rw [if_pos hfull, result_launch]

/-- The next folder is listed and merged. -/
theorem advance_eq (hfilter : p.options.Total) (hwaiting : t.waiting = folder :: rest)
    (hroom : t.isFull p = false) (hreply : levelOf (source.reply folder) = .ok level) :
    (t.advance p source).result = t.result ++ level.filter p.options.passes ∧
      (t.advance p source).visited = t.visited ++ t.found p folder level ∧
      (t.advance p source).waiting = rest ++ t.found p folder level := by
  have hlaunch : (t.launch p folder).waiting = rest := by
    simp only [launch]
    split <;> simp [hwaiting]
  have hadvance : t.advance p source =
      (t.launch p folder).absorb p folder (source.reply folder) := by
    simp only [advance, hwaiting, hroom, Bool.false_eq_true, if_false]
  rw [hadvance, absorb_eq hfilter hreply, found_launch]
  simp only [result_launch, visited_launch, hlaunch, and_self]

/-- A narrowed walk over a store beside a plain one over the bare store: what the store shows
is what the bare store shows, up to entries that do not match. -/
structure Beside (p q : Plan) (source bare : Source) : Prop where
  descends : p.descends = q.descends
  unlimited : q.options.limit = none
  everything : ∀ e, q.options.passes e = true
  total : p.options.Total
  total' : q.options.Total
  calm : ∀ f, Timeline.Calm source f
  calm' : ∀ f, Timeline.Calm bare f
  shows : ∀ f, (source.level f).filter p.options.isMatch = (bare.level f).filter p.options.isMatch

structure Abreast (p : Plan) (t u : Traversal) : Prop where
  visited : u.visited = t.visited
  waiting : u.waiting = t.waiting
  result : u.result = t.result.filter p.options.passes

/-- The narrowed walk goes on beside the plain one, or its result is full. -/
def Follows (p : Plan) (t u : Traversal) : Prop :=
  (Abreast p t u ∧ u.isFull p = false) ∨
    (u.isFull p = true ∧ u.result <+: t.result.filter p.options.passes)

theorem Abreast.follows (h : Abreast p t u) : Follows p t u := by
  cases hfull : u.isFull p with
  | false => exact Or.inl ⟨h, hfull⟩
  | true => exact Or.inr ⟨hfull, h.result ▸ List.prefix_refl _⟩

/-- The plain walk only ever adds to its result. -/
theorem result_advance_grows (hfilter : p.options.Total) (hcalm : ∀ f, Timeline.Calm source f) :
    t.result <+: (t.advance p source).result := by
  cases hfull : t.isFull p with
  | true =>
    rw [result_advance_of_full hfull]
  | false =>
    cases hwaiting : t.waiting with
    | nil => rw [advance_of_done hwaiting]
    | cons folder rest =>
      obtain ⟨level, hreply⟩ := hcalm folder
      rw [(advance_eq hfilter hwaiting hfull hreply).1]
      exact List.prefix_append ..

/-- Both walks list their next folder. -/
theorem Beside.abreast (hbeside : Beside p q source bare) (h : Abreast p t u)
    (hroom : u.isFull p = false) : Follows p (t.advance q bare) (u.advance p source) := by
  have hplain : ∀ t : Traversal, t.isFull q = false :=
      Timeline.isFull_of_unlimited hbeside.unlimited
  cases hwaiting : t.waiting with
  | nil =>
    rw [advance_of_done hwaiting, advance_of_done (h.waiting.trans hwaiting)]
    exact h.follows
  | cons folder rest =>
    obtain ⟨level, hreply⟩ := hbeside.calm folder
    obtain ⟨whole, hreply'⟩ := hbeside.calm' folder
    have hshows : level.filter p.options.isMatch = whole.filter p.options.isMatch := by
      have hshows := hbeside.shows folder
      simpa [Source.level, hreply, hreply'] using hshows
    have hpass : level.filter p.options.passes = whole.filter p.options.passes := by
      rw [← Options.filter_passes, hshows, Options.filter_passes]
    obtain ⟨hresult, hvisited, hqueue⟩ :=
      advance_eq hbeside.total (h.waiting.trans hwaiting) hroom hreply
    obtain ⟨hresult', hvisited', hqueue'⟩ :=
      advance_eq hbeside.total' hwaiting (hplain t) hreply'
    have hall : whole.filter q.options.passes = whole :=
      List.filter_eq_self.mpr fun e _ => hbeside.everything e
    have hmerged : (u.advance p source).result =
        (t.advance q bare).result.filter p.options.passes := by
      rw [hresult, hresult', hall, List.filter_append, h.result, hpass]
    cases hfull : (u.advance p source).isFull p with
    | true => exact Or.inr ⟨hfull, hmerged ▸ List.prefix_refl _⟩
    | false =>
      have hsame : u.found p folder level = t.found q folder whole := by
        have hroom' : (u.merged p level).isFull p = false := by
          simpa [isFull, merged, hresult] using hfull
        simp only [found, hroom', hplain, Bool.or_false, hbeside.descends, h.visited]
        rw [← discover_filter p.options, hshows, discover_filter]
      refine Or.inl ⟨⟨?_, ?_, hmerged⟩, hfull⟩
      · rw [hvisited, hvisited', h.visited, hsame]
      · rw [hqueue, hqueue', hsame]

theorem Beside.follows (hbeside : Beside p q source bare) (h : Follows p t u) :
    Follows p (t.advance q bare) (u.advance p source) := by
  rcases h with ⟨habreast, hroom⟩ | ⟨hfull, hprefix⟩
  · exact hbeside.abreast habreast hroom
  · have hsame : (u.advance p source).result = u.result := result_advance_of_full hfull
    refine Or.inr ⟨?_, ?_⟩
    · simpa [isFull, hsame] using hfull
    · rw [hsame]
      exact hprefix.trans ((result_advance_grows hbeside.total' hbeside.calm').filter _)

theorem Beside.iterate (hbeside : Beside p q source bare) (h : Follows p t u) (n : Nat) :
    Follows p ((advance q bare)^[n] t) ((advance p source)^[n] u) := by
  induction n with
  | zero => exact h
  | succ n ih =>
    rw [Function.iterate_succ_apply', Function.iterate_succ_apply']
    exact hbeside.follows ih

/-- What a walk that follows the plain one would answer. -/
theorem Follows.entries (h : Follows p t u) :
    u.entries p = upTo p.options.limit (t.result.filter p.options.passes) := by
  unfold Traversal.entries upTo
  rcases h with ⟨habreast, hroom⟩ | ⟨hfull, hprefix⟩
  · cases hlimit : p.options.limit with
    | none => exact habreast.result
    | some k => exact congrArg (List.take k) habreast.result
  · cases hlimit : p.options.limit with
    | none => simp [isFull, hlimit] at hfull
    | some k =>
      have hlength : k ≤ u.result.length := by simpa [isFull, hlimit] using hfull
      obtain ⟨more, hmore⟩ := hprefix
      rw [← hmore]
      exact (List.take_append_of_le_length hlength).symm

end Traversal

/-- A store whose calls take no time and fail only for missing folders, and that leaves out at
most files that do not match the prefix it is told. -/
structure Candid (store : Options → Source) : Prop where
  instant : ∀ q, Timeline.Instant (store q)
  answers : ∀ q, (store q).Answers
  shows : ∀ q threads (hthreads : 0 < threads) f, ((store q).level f).filter q.isMatch =
    ((store (q.plain threads hthreads)).level f).filter q.isMatch

def Surveyed (hierarchical : Bool) (o : Options) (store : Options → Source) : Prop :=
  (Plan.ofOptions hierarchical o).descends = true →
    ∀ q : Options, q.Alike o.oneLevel → (store q).Bounded o.folder

/-- However a listing is narrowed, it answers the first entries, as many as the limit allows,
of those that pass in the answer of the plain listing, in their order; and no number of
threads changes an answer. -/
def Narrows (hierarchical : Bool) (o : Options) (store : Options → Source) : Prop :=
  ∃ es, (∀ threads, (hthreads : 0 < threads) →
      (list hierarchical (o.plain threads hthreads) store).answer = .ok es) ∧
    ∀ limit threads, (hthreads : 0 < threads) →
      (list hierarchical { o with limit := limit, threads := threads, threads_pos := hthreads }
        store).answer = .ok (upTo limit (es.filter o.passes))

variable {hierarchical : Bool} {o : Options} {store : Options → Source}

theorem callOptions_plain (threads : Nat) (hthreads : 0 < threads) :
    (Plan.ofOptions hierarchical (o.plain threads hthreads)).callOptions =
      (Plan.ofOptions hierarchical o).callOptions.plain threads hthreads := by
  have hsame : (Plan.ofOptions hierarchical (o.plain threads hthreads)).descends =
      (Plan.ofOptions hierarchical o).descends := rfl
  unfold Plan.callOptions
  rw [hsame]
  split <;> rfl

theorem alike_callOptions (hdescends : (Plan.ofOptions hierarchical o).descends = true) :
    (Plan.ofOptions hierarchical o).callOptions.Alike o.oneLevel := by
  rw [Plan.callOptions, if_pos hdescends]
  rfl

theorem isMatch_callOptions :
    (Plan.ofOptions hierarchical o).callOptions.isMatch = o.isMatch := by
  unfold Plan.callOptions
  split <;> rfl

/-- The narrowed walk over a candid store beside the plain one. -/
theorem Candid.beside (hstore : Candid store) (hfilter : o.Total) (threads : Nat)
    (hthreads : 0 < threads) :
    Traversal.Beside (Plan.ofOptions hierarchical o)
      (Plan.ofOptions hierarchical (o.plain threads hthreads))
      (store (Plan.ofOptions hierarchical o).callOptions)
      (store (Plan.ofOptions hierarchical (o.plain threads hthreads)).callOptions) where
  descends := rfl
  unlimited := rfl
  everything := Options.passes_plain
  total := hfilter
  total' := Options.total_plain
  calm := (hstore.answers _).calm
  calm' := (hstore.answers _).calm
  shows f := by
    have hshows := hstore.shows (Plan.ofOptions hierarchical o).callOptions threads hthreads f
    rw [isMatch_callOptions] at hshows
    rw [callOptions_plain]
    exact hshows

theorem Candid.in_order (hstore : Candid store) (hsurveyed : Surveyed hierarchical o store)
    (hfilter : o.Total) :
    ∃ n t, t = (Traversal.advance (Plan.ofOptions hierarchical o)
        (store (Plan.ofOptions hierarchical o).callOptions))^[n]
          (.start (Plan.ofOptions hierarchical o)) ∧ t.waiting = [] ∧
      (list hierarchical o store).answer = .ok (t.entries (Plan.ofOptions hierarchical o)) := by
  refine list_in_order store hfilter (hstore.answers _).calm (hstore.instant _) ?_
  intro hdescends
  exact hsurveyed hdescends _ (alike_callOptions hdescends)

/-- A narrowed listing against the plain one. -/
theorem Candid.narrowed (hstore : Candid store) (hsurveyed : Surveyed hierarchical o store)
    (hfilter : o.Total) (threads : Nat) (hthreads : 0 < threads) :
    ∃ es, (list hierarchical (o.plain threads hthreads) store).answer = .ok es ∧
      (list hierarchical o store).answer = .ok (upTo o.limit (es.filter o.passes)) := by
  have hsurveyed' : Surveyed hierarchical (o.plain threads hthreads) store := hsurveyed
  obtain ⟨n, u, hu, hdone, hanswer⟩ := hstore.in_order hsurveyed hfilter
  obtain ⟨m, t, ht, hdone', hanswer'⟩ := hstore.in_order hsurveyed' Options.total_plain
  have hbeside : Traversal.Beside (Plan.ofOptions hierarchical o) _ _ _ :=
    hstore.beside hfilter threads hthreads
  have hstart : Traversal.Follows (Plan.ofOptions hierarchical o)
      (.start (Plan.ofOptions hierarchical (o.plain threads hthreads)))
      (.start (Plan.ofOptions hierarchical o)) :=
    Traversal.Abreast.follows ⟨rfl, rfl, rfl⟩
  -- Both walks stand still once nobody waits, so they may be taken equally far.
  have hfollows := hbeside.iterate hstart (n + m)
  rw [Function.iterate_add_apply, ← ht, Function.iterate_fixed (Traversal.advance_of_done hdone'),
    Nat.add_comm, Function.iterate_add_apply, ← hu,
    Function.iterate_fixed (Traversal.advance_of_done hdone)] at hfollows
  exact ⟨t.result, hanswer', hanswer.trans (congrArg Except.ok hfollows.entries)⟩

theorem Candid.narrows (hstore : Candid store) (hsurveyed : Surveyed hierarchical o store)
    (hfilter : o.Total) : Narrows hierarchical o store := by
  obtain ⟨es, hplain, -⟩ := hstore.narrowed hsurveyed hfilter o.threads o.threads_pos
  refine ⟨es, fun threads hthreads => ?_, fun limit threads hthreads => ?_⟩
  · have hsurveyed' : Surveyed hierarchical (o.plain threads hthreads) store := hsurveyed
    obtain ⟨es', hplain', hanswer⟩ :=
      hstore.narrowed hsurveyed' Options.total_plain o.threads o.threads_pos
    obtain rfl : es = es' := Except.ok.inj (hplain.symm.trans hplain')
    rw [hanswer]
    have hall : es.filter (o.plain threads hthreads).passes = es :=
      List.filter_eq_self.mpr fun e _ => Options.passes_plain e
    exact congrArg Except.ok hall
  · let narrowed : Options :=
      { o with limit := limit, threads := threads, threads_pos := hthreads }
    have hsurveyed' : Surveyed hierarchical narrowed store := hsurveyed
    have hfilter' : narrowed.Total := hfilter
    obtain ⟨es', hplain', hanswer⟩ :=
      hstore.narrowed hsurveyed' hfilter' o.threads o.threads_pos
    obtain rfl : es = es' := Except.ok.inj (hplain.symm.trans hplain')
    exact hanswer

end Depot.Listing
