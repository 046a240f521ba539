import Depot.Proofs.Memory.Level
import Depot.Proofs.Storage.Interleaving

/-!
A listing of the in-memory store while others write and delete. Whatever the order, each
folder is looked at once and shows what lies in it at that moment, and a file that nobody
touches is found, for the folders above it are there all the time.
-/
namespace Depot.Storage

def Change.Touches (q : String) : Change → Prop
  | .write path _ _ => Path.normalize (Path.orRoot path) = q
  | .delete paths => ∃ path ∈ paths, Path.normalize (Path.orRoot path) = q ∨
      Path.isUnder q (Path.normalize (Path.orRoot path)) = true
  | .annotate path _ => Path.normalize (Path.orRoot path) = q

namespace Memory

open Listing (Options Plan Timeline Level Shows)

variable {c : Config} {q : String} {f : Stored} {t : Table}

def Table.SameAt (q : String) (t t' : Table) : Prop :=
  t'.files.get? q = t.files.get? q ∧ t'.times.last q = t.times.last q

namespace Table.SameAt

variable {t' t'' : Table}

theorem refl (q : String) (t : Table) : t.SameAt q t := ⟨rfl, rfl⟩

theorem trans (h : SameAt q t t') (h' : SameAt q t' t'') : SameAt q t t'' :=
  ⟨h'.1.trans h.1, h'.2.trans h.2⟩

theorem shown (h : SameAt q t t') (f : Stored) (withMetadata : Bool) :
    t'.shown q f withMetadata = t.shown q f withMetadata := by
  rw [Table.shown, Table.shown, h.2]

theorem put {path : String} (hq : q ≠ path) (content : Bytes) (m : Metadata) :
    SameAt q t (t.put path content m) :=
  ⟨by simp [Table.put, OrderedMap.get?_insert, hq], t.times.last_stamp_ne hq⟩

theorem write (limit : Int) {path : String} (hq : q ≠ path) (data : Bytes) (append : Bool) :
    SameAt q t ((Table.write limit path data append).runFrom t).2 := by
  rw [Table.runFrom_write]
  cases t.checkLayout path with
  | error e => exact refl q t
  | ok _ =>
    cases Table.checkCapacity limit t path (t.written path data append).length with
    | error e => exact refl q t
    | ok _ =>
      cases t.keptMetadata path with
      | error e => exact ⟨rfl, rfl⟩
      | ok metadata => exact put hq _ metadata

theorem setMetadata {path : String} {m : Metadata} (hq : q ≠ path)
    (hset : t.setMetadata path m = .ok t') : SameAt q t t' := by
  obtain ⟨g, -, rfl⟩ := Table.setMetadata_eq_ok hset
  exact ⟨by simp [OrderedMap.get?_insert, hq], rfl⟩

/-- A change leaves alone what it does not touch. -/
theorem apply {change : Change} (hfree : ¬ change.Touches q) {s : State} (h : s.table.Tidy) :
    SameAt q s.table (change.apply (backend c) s).table := by
  cases change with
  | write path data append =>
    rw [Change.apply_write]
    cases hpath : filePath path with
    | error e => exact refl q _
    | ok p =>
      have hne : q ≠ p := fun heq => hfree ((filePath_eq_ok.mp hpath).1.trans heq.symm)
      simp only [Memory.runFrom_write]
      exact write c.limit hne data append
  | annotate path m =>
    rw [Change.apply_annotate]
    cases hpath : filePath path with
    | error e => exact refl q _
    | ok p =>
      have hne : q ≠ p := fun heq => hfree ((filePath_eq_ok.mp hpath).1.trans heq.symm)
      simp only [Memory.runFrom_setMetadata]
      cases hset : s.table.setMetadata p (.ofTexts m) with
      | error e => exact refl q _
      | ok t => exact setMetadata hne hset
  | delete paths =>
    rw [Change.apply_delete, List.foldl_map]
    induction paths generalizing s with
    | nil => exact refl q _
    | cons path rest ih =>
      have hfirst : ¬ (q = Path.normalize (Path.orRoot path) ∨
          Path.isUnder q (Path.normalize (Path.orRoot path)) = true) := fun htouch =>
        hfree ⟨path, List.mem_cons_self, htouch.imp_left Eq.symm⟩
      have hrest : ¬ (Change.delete rest).Touches q := by
        rintro ⟨p, hp, htouch⟩
        exact hfree ⟨p, List.mem_cons_of_mem _ hp, htouch⟩
      rw [List.foldl_cons, runFrom_delete]
      refine SameAt.trans ⟨?_, ?_⟩ (ih (h.delete _) hrest)
      · exact (Table.get?_delete h _ q).trans (if_neg hfirst)
      · exact congrArg (Times.last · q) (times_delete _ _)

end Table.SameAt

variable {o : Options} {first now : State} {past : List (Sight State)} {changes : List Change}
  {s : Timeline} {log : List Level}

/-- What a listing sees of a folder. -/
theorem levelOf_reply {s : State} (o : Options) (folder : String) (h : s.table.Tidy) :
    Listing.Traversal.levelOf (((backend c).source s o).reply folder) =
      .ok (s.table.view (c.hierarchical && o.recurse) folder o) :=
  Table.levelOf_level h

/-- What the levels of a walk show, each at the moment when it was asked for. -/
theorem view_of_takenAt {p : Plan} (hdescends : p.descends = true)
    (h : Interleaved (backend c) p first past changes s now) (hfirst : first.table.Tidy)
    {l : Level} (hl : Timeline.TakenAt (past.map Prod.snd) l) :
    ∃ x ∈ past, l.2 = x.1.table.view false l.1 p.options.oneLevel ∧
      x.2.after.traversal.calls = x.2.before.traversal.calls ++ [l.1] := by
  obtain ⟨m, hm, hreply, hcalls⟩ := hl
  obtain ⟨x, hx, rfl⟩ := List.mem_map.mp hm
  have hsources := h.runs.2
  have hinstant : ∀ m ∈ past.map Prod.snd, Timeline.Instant m.source := by
    intro m hm
    obtain ⟨y, hy, rfl⟩ := List.mem_map.mp hm
    rw [hsources y hy]
    exact fun _ => show ¬ (0 : Float) < 0 by decide
  have htidy := (h.always (P := fun s : State => s.table.Tidy) hfirst
    fun change _ s hs => tidy_apply change hs).1 x hx
  refine ⟨x, hx, ?_, hcalls hinstant⟩
  rw [hsources x hx, levelOf_reply _ _ htidy] at hreply
  simpa [Plan.callOptions, hdescends, Options.oneLevel] using (Except.ok.inj hreply).symm

/-- An entry of a level lies right in its folder. -/
theorem folderPath_of_mem_view {folder : String} (hfolder : Path.normalize folder = folder)
    (h : t.Tidy) {e : Entry} (he : e ∈ t.view false folder o) : e.folderPath = folder := by
  rcases Table.mem_view.mp he with ⟨q, hnormal, -, ⟨hunder, hscope⟩, rfl⟩
      | ⟨k, g, hg, ⟨hunder, hscope⟩, rfl, -⟩
  · have hlength := hscope.resolve_left (by simp)
    rw [← hnormal] at hunder hlength
    exact Path.folderOf_eq hfolder hunder hlength
  · have hlength := hscope.resolve_left (by simp)
    rw [← (h.normal k g hg).1] at hunder hlength
    exact Path.folderOf_eq hfolder hunder hlength

/-- Every folder that is listed stands in normal form. -/
theorem normal_of_account {start : String} (hstart : Path.normalize start = start)
    (h : Timeline.Account start log) {l : Level} (hl : l ∈ log) : Path.normalize l.1 = l.1 := by
  obtain ⟨pre, post, rfl⟩ := List.append_of_mem hl
  rcases h.order pre l post rfl with hfirst | ⟨m, -, e, -, -, hpath⟩
  · rw [hfirst]
    exact hstart
  · rw [← hpath]
    exact e.path_normal

/-- Levels of different folders, whenever they were taken, share no path. -/
theorem nodup_of_views (hunique : (log.map Prod.fst).Nodup)
    (hnormal : ∀ l ∈ log, Path.normalize l.1 = l.1)
    (hviews : ∀ l ∈ log, ∃ t : Table, t.Tidy ∧ l.2 = t.view false l.1 o) (pass : Entry → Bool) :
    ((log.flatMap fun l => l.2.filter pass).map Entry.path).Nodup := by
  have hfolder : ∀ l ∈ log, ∀ e ∈ l.2, e.folderPath = l.1 := by
    intro l hl e he
    obtain ⟨t, ht, hview⟩ := hviews l hl
    exact folderPath_of_mem_view (hnormal l hl) ht (hview ▸ he)
  induction log with
  | nil => simp
  | cons l rest ih =>
    rw [List.map_cons, List.nodup_cons] at hunique
    have htail := ih hunique.2 (fun m hm => hnormal m (List.mem_cons_of_mem _ hm))
      (fun m hm => hviews m (List.mem_cons_of_mem _ hm))
      fun m hm => hfolder m (List.mem_cons_of_mem _ hm)
    obtain ⟨t, ht, hview⟩ := hviews l List.mem_cons_self
    rw [List.flatMap_cons, List.map_append, List.nodup_append]
    refine ⟨?_, htail, ?_⟩
    · rw [hview]
      exact (Table.view_nodup ht).sublist (List.filter_sublist.map Entry.path)
    · intro p hp p' hp' heq
      obtain ⟨e, he, rfl⟩ := List.mem_map.mp hp
      obtain ⟨e', he', rfl⟩ := List.mem_map.mp hp'
      obtain ⟨m, hm, hem⟩ := List.mem_flatMap.mp he'
      have h₁ := hfolder l List.mem_cons_self e (List.mem_of_mem_filter he)
      have h₂ := hfolder m (List.mem_cons_of_mem _ hm) e' (List.mem_of_mem_filter hem)
      apply hunique.1
      rw [← h₁, show e.folderPath = e'.folderPath by rw [Entry.folderPath, heq, Entry.folderPath],
        h₂]
      exact List.mem_map_of_mem hm

/-- The folders on the way to a file that is there all the time are all listed. -/
theorem listed_above {start : String} (hstart : Path.normalize start = start)
    (h : Timeline.Account start log)
    (hviews : ∀ l ∈ log, ∃ t : Table, t.files.get? q = some f ∧ l.2 = t.view false l.1 o)
    (hunder : Path.isUnder q start = true) {n : Nat} (hlow : (Path.segments start).length ≤ n)
    (hhigh : n < (Path.segments q).length) : Path.upTo n q ∈ log.map Prod.fst := by
  induction n, hlow using Nat.le_induction with
  | base =>
    rw [← Path.eq_upTo hstart hunder]
    exact List.mem_of_head? h.first
  | succ n hlow ih =>
    obtain ⟨l, hl, hfolder⟩ := List.mem_map.mp (ih (by omega))
    obtain ⟨t, hq, hview⟩ := hviews l hl
    have hscope : Table.InScope false l.1 (Path.upTo (n + 1) q) := by
      have hlength : (Path.segments l.1).length = n := by
        rw [hfolder, Path.segments_upTo, List.length_take]
        omega
      refine ⟨Path.upTo_isUnder ?_ (by omega), Or.inr ?_⟩
      · rw [hfolder]
        exact Path.isUnder_upTo (by omega)
      · rw [Path.segments_upTo, List.length_take, hlength]
        omega
    have hholds : t.Holds (Path.upTo (n + 1) q) := ⟨q, f, hq, Path.isUnder_upTo hhigh⟩
    have hmem : Entry.plain .folder (Path.upTo (n + 1) q) none ∈ l.2 := by
      rw [hview, Table.mem_view]
      exact Or.inl ⟨Path.upTo (n + 1) q, Path.normalize_upTo, hholds, hscope, rfl⟩
    have hpath : (Entry.plain .folder (Path.upTo (n + 1) q) none).path = Path.upTo (n + 1) q := by
      rw [Entry.plain, Entry.make_path, Path.normalize_upTo]
    rw [← hpath]
    refine h.closed l hl _ hmem ⟨rfl, ?_⟩
    rw [hpath]
    exact hscope.1

theorem filter_eq_singleton {es : List Entry} (hnodup : (es.map Entry.path).Nodup) {e : Entry}
    (he : e ∈ es) : es.filter (fun e' => e'.path = e.path) = [e] := by
  induction es with
  | nil => simp at he
  | cons first rest ih =>
    rw [List.map_cons, List.nodup_cons] at hnodup
    rcases List.mem_cons.mp he with rfl | he
    · have hrest : rest.filter (fun e' => e'.path = e.path) = [] := by
        apply List.filter_eq_nil_iff.mpr
        intro e' he' hpath
        exact hnodup.1 (of_decide_eq_true hpath ▸ List.mem_map_of_mem he')
      simp [hrest]
    · have hne : first.path ≠ e.path := by
        intro hpath
        exact hnodup.1 (hpath ▸ List.mem_map_of_mem he)
      rw [List.filter_cons_of_neg (by simpa using hne)]
      exact ih hnodup.2 he

/-- An entry of a level was there when the level was taken. -/
theorem there_of_mem_view {folder : String} (h : t.Tidy) {e : Entry}
    (he : e ∈ t.view false folder o) :
    (e.isFile = true → t.files.contains e.path = true) ∧
      (e.isFolder = true → t.Holds e.path) := by
  refine ⟨fun hfile => ?_, fun hfolder => ?_⟩
  · rcases Table.mem_view.mp he with ⟨q, -, -, -, rfl⟩ | ⟨k, g, hg, -, rfl, -⟩
    · simp [Entry.isFile, Entry.plain, Entry.make] at hfile
    · rw [Table.path_shown h hg]
      exact OrderedMap.contains_iff.mpr ⟨g, hg⟩
  · rcases Table.mem_view.mp he with ⟨q, hq, hholds, -, rfl⟩ | ⟨k, g, hg, -, rfl, -⟩
    · rw [show (Entry.plain .folder q none).path = q from hq]
      exact hholds
    · simp [Entry.isFolder, Table.shown, Entry.make] at hfolder

/-- A file that is there all the time and passes is shown by some level. -/
theorem exists_shown {start : String} (hstart : Path.normalize start = start)
    (h : Timeline.Account start log)
    (hfile : t.files.get? q = some f)
    (hviews : ∀ l ∈ log, ∃ t', t.SameAt q t' ∧ l.2 = t'.view false l.1 o.oneLevel)
    (hunder : Path.isUnder q start = true)
    (hpass : o.passes (t.shown q f o.withMetadata) = true) :
    ∃ l ∈ log, t.shown q f o.withMetadata ∈ l.2 := by
  have hlength := (Path.isUnder_iff.mp hunder).1
  have hthere : ∀ l ∈ log, ∃ t' : Table, t'.files.get? q = some f ∧
      l.2 = t'.view false l.1 o.oneLevel := fun l hl =>
    let ⟨t', hsame, hview⟩ := hviews l hl
    ⟨t', hsame.1.trans hfile, hview⟩
  obtain ⟨l, hl, hfolder⟩ := List.mem_map.mp (listed_above hstart h hthere hunder
    (n := (Path.segments q).length - 1) (by omega) (by omega))
  obtain ⟨t', hsame, hview⟩ := hviews l hl
  have hscope : Table.InScope false l.1 q := by
    rw [hfolder]
    refine ⟨Path.isUnder_upTo (by omega), Or.inr ?_⟩
    rw [Path.segments_upTo, List.length_take]
    omega
  refine ⟨l, hl, ?_⟩
  rw [hview, ← hsame.shown f o.withMetadata]
  rw [← hsame.shown f o.withMetadata] at hpass
  exact Table.mem_view.mpr
    (Or.inr ⟨q, f, hsame.1.trans hfile, hscope, rfl, Options.isMatch_of_passes hpass⟩)

/-- A walk over the in-memory store while other callers write, delete and annotate. It
never fails and is never stuck. When it ends, no two entries have the same path; each entry
was there, a folder with some file in it, at the moment when the folder above it was listed;
and a file below the start that was there all along and passes is among them once. -/
theorem listing_under_change (c : Config) (times : Times String) (o : Options)
    (hlocal : c.hierarchical = false ∨ o.mode = .localOnly) (hrecurse : o.recurse = true)
    (hlimit : o.limit = none) (hfilter : o.Total) (before : List Change)
    {past : List (Sight State)} {changes : List Change} {s : Timeline} {now : State}
    (hrun : Interleaved (backend c) (Plan.ofOptions c.hierarchical o)
      (after (backend c) (.fresh times) before) past changes s now) :
    (s.ending? = none → ∃ s', Timeline.Move (Plan.ofOptions c.hierarchical o)
      ((backend c).source now (Plan.ofOptions c.hierarchical o).callOptions) s s') ∧
    (s.ending?.isSome → ∃ es, s.outcome (Plan.ofOptions c.hierarchical o) = .ok es ∧
      (es.map Entry.path).Nodup ∧
      (∀ e ∈ es, ∃ x ∈ past,
        x.2.after.traversal.calls = x.2.before.traversal.calls ++ [e.folderPath] ∧
        (e.isFile = true → x.1.table.files.contains e.path = true) ∧
        (e.isFolder = true → x.1.table.Holds e.path)) ∧
      let t := (after (backend c) (.fresh times) before).table
      ∀ q f, Path.isUnder q o.folder = true → t.files.get? q = some f →
        (∀ change ∈ changes, ¬ change.Touches q) →
        o.passes (t.shown q f o.withMetadata) = true →
        es.filter (fun e => e.path = q) = [t.shown q f o.withMetadata]) := by
  have hdescends := Listing.descends_of_local hlocal hrecurse
  have hfirst : (after (backend c) (.fresh times) before).table.Tidy := tidy_after before .empty
  obtain ⟨hruns, hsources⟩ := hrun.runs
  have htidy := (hrun.always (P := fun s : State => s.table.Tidy) hfirst
    fun change _ s hs => tidy_apply change hs).1
  have hcalm : ∀ m ∈ past.map Prod.snd, ∀ folder, Timeline.Calm m.source folder := by
    intro m hm folder
    obtain ⟨x, hx, rfl⟩ := List.mem_map.mp hm
    rw [hsources x hx]
    exact ⟨_, levelOf_reply _ _ (htidy x hx)⟩
  obtain ⟨roles, log, h⟩ := hruns.fair hfilter hcalm
  refine ⟨fun hopen => h.goes_on _ hopen, fun hended => ⟨_, h.outcome hlimit, ?_, ?_, ?_⟩⟩
  all_goals
    have haccount := h.account hdescends hlimit hended
    have hnormal : ∀ l ∈ log, Path.normalize l.1 = l.1 := fun l hl =>
      normal_of_account o.folder_normal haccount hl
    have htaken := fun l hl => view_of_takenAt hdescends hrun hfirst (h.answers l hl)
    have hnodup : ((log.flatMap fun l => l.2.filter o.passes).map Entry.path).Nodup := by
      refine nodup_of_views (o := o.oneLevel) haccount.unique hnormal (fun l hl => ?_) o.passes
      obtain ⟨x, hx, hview, -⟩ := htaken l hl
      exact ⟨x.1.table, htidy x hx, hview⟩
  · exact hnodup
  · intro e he
    obtain ⟨l, hl, hel⟩ := List.mem_flatMap.mp he
    obtain ⟨x, hx, hview, hcalls⟩ := htaken l hl
    have hmem : e ∈ x.1.table.view false l.1 o.oneLevel := hview ▸ List.mem_of_mem_filter hel
    have hfolder := folderPath_of_mem_view (hnormal l hl) (htidy x hx) hmem
    exact ⟨x, hx, hfolder ▸ hcalls, there_of_mem_view (htidy x hx) hmem⟩
  · intro t q f hunder hq hfree hpass
    have hstable := (hrun.always
      (P := fun s : State => s.table.Tidy ∧ t.SameAt q s.table) ⟨hfirst, .refl q t⟩
      fun change hchange s hs =>
        ⟨tidy_apply change hs.1, hs.2.trans (.apply (hfree change hchange) hs.1)⟩).1
    have hviews : ∀ l ∈ log, ∃ t', t.SameAt q t' ∧ l.2 = t'.view false l.1 o.oneLevel := by
      intro l hl
      obtain ⟨x, hx, hview, -⟩ := htaken l hl
      exact ⟨x.1.table, (hstable x hx).2, hview⟩
    obtain ⟨l, hl, hmem⟩ := exists_shown o.folder_normal haccount hq hviews hunder hpass
    have hresult : t.shown q f o.withMetadata ∈
        log.flatMap fun l => l.2.filter o.passes :=
      List.mem_flatMap.mpr ⟨l, hl, List.mem_filter.mpr ⟨hmem, hpass⟩⟩
    have hsingle := filter_eq_singleton hnodup hresult
    rwa [Table.path_shown hfirst hq] at hsingle

/-- A walk whose first level shows no folder is over after its first turn. -/
theorem ending?_of_flat {p : Plan} {source : Listing.Source} {level : List Entry}
    (hfilter : p.options.Total) (hinstant : Timeline.Instant source)
    (hreply : Listing.Traversal.levelOf (source.reply p.options.folder) = .ok level)
    (hflat : ∀ e ∈ level, ¬ Shows p.options.folder e) :
    ({ Timeline.start p with agenda := [] }.handle p source
      (.turn p.options.folder)).ending? = some .done := by
  have hfound : ∀ t : Listing.Traversal, t.found p p.options.folder level = [] := by
    intro t
    unfold Listing.Traversal.found
    split
    · rfl
    · rw [List.eq_nil_iff_forall_not_mem]
      intro g hg
      obtain ⟨-, e, he, hshows, -⟩ :=
        (Listing.Traversal.discover_spec p.options.folder level t.visited).2.1 g hg
      exact hflat e he hshows
  have hthreads : p.options.threads ≠ 0 := Nat.ne_of_gt p.options.threads_pos
  have hvisit : Timeline.visit? { Timeline.start p with agenda := [] } p.options.folder =
      some ⟨p.options.folder, none, .fresh, false⟩ := by
    simp [Timeline.visit?, Timeline.start]
  have hqueue : Timeline.mustQueue { Timeline.start p with agenda := [] } = false := by
    simp [Timeline.mustQueue, Timeline.start, hthreads]
  simp only [Timeline.handle, hvisit, Timeline.turn, hqueue, Bool.false_eq_true, if_false,
    Timeline.enter]
  split
  · simp [Timeline.finish, Timeline.release, Timeline.wakeNext, Timeline.setStage,
      Timeline.update, Timeline.ending?, Timeline.start]
  · rw [if_neg (hinstant _), Timeline.comeBack_eq hfilter hreply]
    simp [hfound, Timeline.back, Timeline.finish, Timeline.release, Timeline.wakeNext,
      Timeline.setStage, Timeline.update, Timeline.ending?, Timeline.start]

/-- A listing of everything that begins between two writes. -/
theorem listing_under_change_write :
    ∃ past changes s now, Interleaved (backend {}) (Plan.ofOptions false Listing.everything)
        (after (backend {}) .fresh [.write (some "a") [1] false]) past changes s now ∧
      changes = [.write (some "b") [2] false] ∧ s.ending?.isSome ∧
      ∃ es, s.outcome (Plan.ofOptions false Listing.everything) = .ok es ∧
        (es.map Entry.path).Nodup ∧
        es.filter (fun e => e.path = "a") =
          [(after (backend {}) .fresh [.write (some "a") [1] false]).table.shown "a" ⟨[1], .empty⟩
            false] := by
  let p := Plan.ofOptions false Listing.everything
  obtain ⟨now, hnow⟩ : ∃ now, now = after (backend {}) .fresh
      [.write (some "a") [1] false, .write (some "b") [2] false] := ⟨_, rfl⟩
  have hstart : Interleaved (backend {}) p (after (backend {}) .fresh [.write (some "a") [1] false])
      [] [.write (some "b") [2] false] (.start p) now := by
    rw [hnow]
    exact .change .start (.write (some "b") [2] false)
  have hrun := hstart.move (.handle (by decide) rfl)
  have htidy : now.table.Tidy := by
    rw [hnow]
    exact tidy_after _ .empty
  have hkeys : now.table.files.keys = ["a", "b"] := by
    rw [hnow]
    decide
  have hreply := levelOf_reply (c := {}) p.callOptions p.options.folder htidy
  have hflat : ∀ e ∈ now.table.view (({} : Config).hierarchical && p.callOptions.recurse)
      p.options.folder p.callOptions, ¬ Shows p.options.folder e := by
    intro e he hshows
    rcases Table.mem_view.mp he with ⟨q, hq, ⟨k, f, hf, hunder⟩, hscope, -⟩ | ⟨k, f, -, -, rfl, -⟩
    · have hk : k = "a" ∨ k = "b" := by
        have hmem := OrderedMap.mem_keys_iff.mpr ⟨f, hf⟩
        simpa [hkeys] using hmem
      have hlong := (Path.isUnder_iff.mp hunder).1
      have hsome := (Path.isUnder_iff.mp hscope.1).1
      have hone : (Path.segments k).length = 1 := by
        rcases hk with rfl | rfl <;> decide
      omega
    · simp [Shows, Entry.isFolder, Table.shown, Entry.make] at hshows
  have hinstant : Timeline.Instant ((backend {}).source now p.callOptions) :=
    fun _ => show ¬ (0 : Float) < 0 by decide
  have hended := ending?_of_flat (p := p) Listing.everything_total hinstant hreply hflat
  have hopen : (Timeline.handle p ((backend {}).source now p.callOptions)
      { Timeline.start p with agenda := [] } (.turn p.options.folder)).ending?.isSome := by
    rw [hended]
    rfl
  refine ⟨_, _, _, _, hrun, rfl, hopen, ?_⟩
  obtain ⟨es, houtcome, hnodup, -, hstable⟩ := (listing_under_change {} .still Listing.everything
    (Or.inl rfl) rfl rfl Listing.everything_total _ hrun).2 hopen
  refine ⟨es, houtcome, hnodup, ?_⟩
  exact hstable "a" ⟨[1], .empty⟩ (by decide) rfl (by simp [Change.Touches]; decide) rfl

end Memory

end Depot.Storage
