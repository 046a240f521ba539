import Depot.Proofs.Listing.Native
import Depot.Proofs.Memory.Interleaving

/-!
Recursive listings of the in-memory store. Whether one call scans the whole subtree or a
walk goes down level by level, the answer is the same: the files under the folder and the
folders in between.
-/
namespace Depot.Storage.Memory

open Listing (Options Plan Mode Level Reached Shows)

namespace Table

variable {t : Table} {o : Options} {e : Entry} {start f q : String}

/-- What a recursive listing is to show: files under the folder, and folders under it that
some file lies in, as far as they pass. -/
def Belongs (t : Table) (o : Options) (e : Entry) : Prop :=
  o.passes e = true ∧
    ((∃ q, Path.normalize q = q ∧ Path.isUnder q o.folder = true ∧ t.Holds q ∧
        e = .plain .folder q none) ∨
      ∃ k f, t.files.get? k = some f ∧ Path.isUnder k o.folder = true ∧
        e = t.shown k f o.withMetadata)

/-- One scan of the whole subtree. -/
theorem mem_whole : e ∈ (t.view true o.folder o).filter o.passes ↔ t.Belongs o e := by
  rw [List.mem_filter, mem_view, Belongs, and_comm]
  refine and_congr_right fun hpass => or_congr ?_ ?_
  · constructor
    · rintro ⟨q, hnormal, hholds, ⟨hunder, -⟩, rfl⟩
      exact ⟨q, hnormal, hunder, hholds, rfl⟩
    · rintro ⟨q, hnormal, hunder, hholds, rfl⟩
      exact ⟨q, hnormal, hholds, ⟨hunder, Or.inl rfl⟩, rfl⟩
  · constructor
    · rintro ⟨k, f, hf, ⟨hunder, -⟩, rfl, -⟩
      exact ⟨k, f, hf, hunder, rfl⟩
    · rintro ⟨k, f, hf, hunder, rfl⟩
      exact ⟨k, f, hf, ⟨hunder, Or.inl rfl⟩, rfl, Options.isMatch_of_passes hpass⟩

def Within (t : Table) (start f : String) : Prop :=
  f = start ∨ (Path.normalize f = f ∧ t.Holds f ∧ Path.isUnder f start = true)

theorem Within.under (hf : t.Within start f) (hq : Path.isUnder q f = true) :
    Path.isUnder q start = true := by
  rcases hf with rfl | ⟨-, -, hunder⟩
  · exact hq
  · exact Path.isUnder_trans hq hunder

theorem Within.normal (hstart : Path.normalize start = start) (hf : t.Within start f) :
    Path.normalize f = f := by
  rcases hf with rfl | ⟨hnormal, -, -⟩
  · exact hstart
  · exact hnormal

/-- What lies deeper lies one level under some folder of the walk. -/
theorem exists_within (hstart : Path.normalize start = start)
    (hunder : Path.isUnder q start = true)
    (hholds : ∀ f, Path.isUnder q f = true → t.Holds f) :
    ∃ f, t.Within start f ∧ InScope false f q := by
  have hlength := (Path.isUnder_iff.mp hunder).1
  have habove : Path.isUnder q (Path.upTo ((Path.segments q).length - 1) q) = true :=
    Path.isUnder_upTo (by omega)
  refine ⟨Path.upTo ((Path.segments q).length - 1) q, ?_, habove, Or.inr ?_⟩
  · by_cases hdirect : (Path.segments start).length = (Path.segments q).length - 1
    · exact Or.inl (by rw [← hdirect]; exact (Path.eq_upTo hstart hunder).symm)
    · exact Or.inr ⟨Path.normalize_upTo, hholds _ habove, Path.upTo_isUnder hunder (by omega)⟩
  · rw [Path.segments_upTo, List.length_take]
    omega

theorem Holds.of_under (hq : t.Holds q) (hunder : Path.isUnder q f = true) : t.Holds f := by
  obtain ⟨k, g, hg, hkq⟩ := hq
  exact ⟨k, g, hg, Path.isUnder_trans hkq hunder⟩

/-- The walk level by level. -/
theorem mem_levels (hstart : Path.normalize start = start) (hfolder : o.folder = start) :
    (∃ f, t.Within start f ∧ e ∈ (t.view false f o).filter o.passes) ↔ t.Belongs o e := by
  subst hfolder
  simp only [List.mem_filter, mem_view, Belongs]
  constructor
  · rintro ⟨f, hf, ⟨q, hnormal, hholds, hscope, rfl⟩ | ⟨k, g, hg, hscope, rfl, -⟩, hpass⟩
    · exact ⟨hpass, Or.inl ⟨q, hnormal, hf.under hscope.1, hholds, rfl⟩⟩
    · exact ⟨hpass, Or.inr ⟨k, g, hg, hf.under hscope.1, rfl⟩⟩
  · rintro ⟨hpass, ⟨q, hnormal, hunder, hholds, rfl⟩ | ⟨k, g, hg, hunder, rfl⟩⟩
    · obtain ⟨f, hf, hscope⟩ := exists_within hstart hunder fun f hq => hholds.of_under hq
      exact ⟨f, hf, Or.inl ⟨q, hnormal, hholds, hscope, rfl⟩, hpass⟩
    · obtain ⟨f, hf, hscope⟩ := exists_within (t := t) hstart hunder fun f hq => ⟨k, g, hg, hq⟩
      exact ⟨f, hf, Or.inr ⟨k, g, hg, hscope, rfl, Options.isMatch_of_passes hpass⟩, hpass⟩

def candidates (t : Table) (start : String) : List String :=
  start :: t.files.keys.flatMap fun k =>
    (List.range (Path.segments k).length).map fun n => Path.upTo n k

theorem candidates_length (t : Table) (start : String) :
    (t.candidates start).length = t.folderBound + 1 := by
  simp [candidates, folderBound, List.length_flatMap, List.sum_eq_foldr, List.foldr_map]

theorem Within.mem_candidates (hf : t.Within start f) : f ∈ t.candidates start := by
  rcases hf with rfl | ⟨hnormal, ⟨k, g, hg, hunder⟩, -⟩
  · exact List.mem_cons_self
  · refine List.mem_cons_of_mem _ (List.mem_flatMap.mpr
      ⟨k, OrderedMap.mem_keys_iff.mpr ⟨g, hg⟩, ?_⟩)
    refine List.mem_map.mpr ⟨(Path.segments f).length, ?_, (Path.eq_upTo hnormal hunder).symm⟩
    exact List.mem_range.mpr (Path.isUnder_iff.mp hunder).1

end Table

variable {c : Config} {s : State} {o : Options}

theorem source_level (h : s.table.Tidy) (o : Options) (folder : String) :
    ((backend c).source s o).level folder =
      s.table.view (c.hierarchical && o.recurse) folder o := by
  rw [Listing.Source.level, levelOf_reply o folder h]

theorem source_calm (h : s.table.Tidy) (o : Options) (folder : String) :
    Listing.Timeline.Calm ((backend c).source s o) folder :=
  ⟨_, levelOf_reply o folder h⟩

theorem source_instant (o : Options) : Listing.Timeline.Instant ((backend c).source s o) :=
  fun _ => show ¬ (0 : Float) < 0 by decide

/-- What a walk comes across. -/
theorem reached_iff (h : s.table.Tidy) (honce : o.recurse = false) {start f : String}
    (hstart : Path.normalize start = start) :
    Reached ((backend c).source s o) start f ↔ s.table.Within start f := by
  constructor
  · intro hf
    induction hf with
    | start => exact Or.inl rfl
    | @down f e _ he hshows ih =>
      rw [source_level h, honce, Bool.and_false] at he
      rcases Table.mem_view.mp he with ⟨q, hnormal, hholds, hscope, rfl⟩ | ⟨k, g, -, -, rfl, -⟩
      · rw [show (Entry.plain .folder q none).path = q from hnormal]
        exact Or.inr ⟨hnormal, hholds, ih.under hscope.1⟩
      · simp [Shows, Entry.isFolder, Table.shown, Entry.make] at hshows
  · intro hf
    induction hlength : (Path.segments f).length using Nat.strong_induction_on generalizing f with
    | h n ih =>
      rcases hf with rfl | ⟨hnormal, hholds, hunder⟩
      · exact .start
      · obtain ⟨g, hg, hscope⟩ := Table.exists_within hstart hunder fun g hq => hholds.of_under hq
        have hshorter := (Path.isUnder_iff.mp hscope.1).1
        have hreached := ih _ (by omega) hg rfl
        have hmem : Entry.plain .folder f none ∈ ((backend c).source s o).level g := by
          rw [source_level h, honce, Bool.and_false, Table.mem_view]
          exact Or.inl ⟨f, hnormal, hholds, hscope, rfl⟩
        have hpath : (Entry.plain .folder f none).path = f := hnormal
        have hnext := hreached.down hmem ⟨rfl, by rw [hpath]; exact hscope.1⟩
        rwa [hpath] at hnext

/-- The levels of all folders of a walk, in whatever order. -/
theorem levels_of_order {t : Table} (h : t.Tidy) {order : List String} (hunique : order.Nodup)
    (horder : ∀ f, f ∈ order ↔ t.Within o.folder f) :
    ((order.flatMap fun f => (t.view false f o).filter o.passes).map Entry.path).Nodup ∧
      ∀ e, e ∈ order.flatMap (fun f => (t.view false f o).filter o.passes) ↔ t.Belongs o e := by
  refine ⟨?_, fun e => ?_⟩
  · have hnodup : (((order.map fun f => (f, t.view false f o)).flatMap
        fun l => l.2.filter o.passes).map Entry.path).Nodup := by
      apply nodup_of_views (o := o)
      · simpa [List.map_map, Function.comp_def] using hunique
      · intro l hl
        obtain ⟨f, hf, rfl⟩ := List.mem_map.mp hl
        exact ((horder f).mp hf).normal o.folder_normal
      · intro l hl
        obtain ⟨f, -, rfl⟩ := List.mem_map.mp hl
        exact ⟨t, h, rfl⟩
    rwa [List.flatMap_map] at hnodup
  · rw [List.mem_flatMap, ← Table.mem_levels o.folder_normal rfl]
    constructor
    · rintro ⟨f, hf, he⟩
      exact ⟨f, (horder f).mp hf, he⟩
    · rintro ⟨f, hf, he⟩
      exact ⟨f, (horder f).mpr hf, he⟩

/-- A walk over one state of the store. -/
theorem listed_by_levels (h : s.table.Tidy)
    (hlocal : c.hierarchical = false ∨ o.mode = .localOnly) (hrecurse : o.recurse = true)
    (hlimit : o.limit = none) (hfilter : o.Total) :
    ∃ es, ((backend c).listReport s o).answer = .ok es ∧ (es.map Entry.path).Nodup ∧
      ∀ e, e ∈ es ↔ s.table.Belongs o e := by
  have hcall : (Plan.ofOptions c.hierarchical o).callOptions = o.oneLevel :=
    if_pos (Listing.descends_of_local hlocal hrecurse)
  have hreached : ∀ f, Reached ((backend c).source s o.oneLevel) o.folder f ↔
      s.table.Within o.folder f := fun f => reached_iff h rfl o.folder_normal
  obtain ⟨order, horder, hanswer⟩ := Listing.list_of_instant ((backend c).source s) hlocal
    hrecurse hlimit hfilter (fun f _ => source_calm h _ f) (source_instant _)
      (s.table.candidates o.folder)
    (by
      rw [hcall]
      exact fun f hf => ((hreached f).mp hf).mem_candidates)
    (s.table.candidates_length o.folder).le
  rw [hcall] at horder hanswer
  have hlevels : (fun f => (((backend c).source s o.oneLevel).level f).filter o.passes) =
      fun f => (s.table.view false f o).filter o.passes := by
    funext f
    rw [source_level h, show o.oneLevel.recurse = false from rfl, Bool.and_false]
    rfl
  rw [hlevels] at hanswer
  obtain ⟨hnodup, hmem⟩ := levels_of_order h (o := o) horder.unique
    fun f => (horder.complete f).trans (hreached f)
  exact ⟨_, hanswer, hnodup, hmem⟩

/-- A listing in a single call. -/
theorem listed_by_scan (h : s.table.Tidy) (hflat : c.hierarchical = true)
    (hmode : o.mode = .remote) (hrecurse : o.recurse = true) (hlimit : o.limit = none)
    (hfilter : o.Total) :
    ∃ es, ((backend c).listReport s o).answer = .ok es ∧ (es.map Entry.path).Nodup ∧
      ∀ e, e ∈ es ↔ s.table.Belongs o e := by
  have hdescends : (Plan.ofOptions c.hierarchical o).descends = false := by
    simp [Plan.ofOptions, hflat, hmode]
  have hcall : (Plan.ofOptions c.hierarchical o).callOptions = o :=
    if_neg (by simp [hdescends])
  have hanswer := Listing.list_of_single ((backend c).source s) hdescends hlimit
    hfilter (fun f _ => source_calm h _ f) (source_instant _)
  have hlevel : ((backend c).source s o).level o.folder = s.table.view true o.folder o := by
    rw [source_level h, hflat, hrecurse]
    rfl
  rw [hcall, hlevel] at hanswer
  refine ⟨_, hanswer, ?_, fun e => Table.mem_whole⟩
  exact (Table.view_nodup h).sublist (List.filter_sublist.map Entry.path)

theorem listed (h : s.table.Tidy) (hrecurse : o.recurse = true) (hlimit : o.limit = none)
    (hfilter : o.Total) :
    ∃ es, ((backend c).listReport s o).answer = .ok es ∧ (es.map Entry.path).Nodup ∧
      ∀ e, e ∈ es ↔ s.table.Belongs o e := by
  cases hflat : c.hierarchical with
  | false => exact listed_by_levels h (Or.inl hflat) hrecurse hlimit hfilter
  | true =>
    cases hmode : o.mode with
    | localOnly => exact listed_by_levels h (Or.inr hmode) hrecurse hlimit hfilter
    | remote => exact listed_by_scan h hflat hmode hrecurse hlimit hfilter

theorem nodup_of_paths {es : List Entry} (h : (es.map Entry.path).Nodup) : es.Nodup :=
  List.Nodup.of_map Entry.path h

/-- However a recursive listing is carried out, in one scan or level by level, by a store
that can list a subtree or by one that cannot, and with however many threads, the entries
are the same: the stored files under the folder and the folders under it that some stored
file lies in, as far as they pass, each once. -/
theorem recursion_agrees (c : Config) (times : Times String) (changes : List Change) (o : Options)
    (hrecurse : o.recurse = true) (hlimit : o.limit = none) (hfilter : o.Total) :
    ∃ es : List Entry, (es.map Entry.key).Nodup ∧
      (∀ e, e ∈ es ↔ (after (backend c) (.fresh times) changes).table.Belongs o e) ∧
      (¬ (after (backend c) (.fresh times) changes).table.Holds o.folder → es = []) ∧
      ∀ hierarchical mode threads, (hthreads : 0 < threads) → ∃ es',
        ((backend { c with hierarchical := hierarchical }).listReport
          (after (backend c) (.fresh times) changes)
          { o with mode := mode, threads := threads, threads_pos := hthreads }).answer = .ok es' ∧
        es'.Perm es := by
  have htidy : (after (backend c) (.fresh times) changes).table.Tidy := tidy_after changes .empty
  obtain ⟨es, -, hnodup, hmem⟩ := listed (c := c) htidy hrecurse hlimit hfilter
  refine ⟨es, ?_, hmem, ?_, ?_⟩
  · apply List.Nodup.of_map Prod.snd
    rw [List.map_map]
    exact hnodup
  · intro hnothing
    rw [List.eq_nil_iff_forall_not_mem]
    intro e he
    obtain ⟨-, ⟨q, -, hunder, hholds, -⟩ | ⟨k, f, hf, hunder, -⟩⟩ := (hmem e).mp he
    · exact hnothing (hholds.of_under hunder)
    · exact hnothing ⟨k, f, hf, hunder⟩
  · intro hierarchical mode threads hthreads
    obtain ⟨es', hanswer, hnodup', hmem'⟩ := listed (c := { c with hierarchical := hierarchical })
      (o := { o with mode := mode, threads := threads, threads_pos := hthreads }) htidy hrecurse
      hlimit hfilter
    refine ⟨es', hanswer, ?_⟩
    rw [List.perm_ext_iff_of_nodup (nodup_of_paths hnodup') (nodup_of_paths hnodup)]
    exact fun e => (hmem' e).trans (hmem e).symm

theorem recursion_agrees_everything :
    ∃ es : List Entry, (es.map Entry.key).Nodup ∧
      (∀ e, e ∈ es ↔ (after (backend {}) .fresh [.write (some "a/b") [1] false]).table.Belongs
        Listing.everything e) ∧
      ∀ hierarchical mode, ∃ es',
        ((backend { hierarchical := hierarchical }).listReport
          (after (backend {}) .fresh [.write (some "a/b") [1] false])
          { Listing.everything with mode := mode }).answer = .ok es' ∧ es'.Perm es := by
  obtain ⟨es, hnodup, hmem, -, hanswers⟩ := recursion_agrees {} .still
      [.write (some "a/b") [1] false]
    Listing.everything rfl rfl Listing.everything_total
  exact ⟨es, hnodup, hmem, fun hierarchical mode =>
    hanswers hierarchical mode Listing.everything.threads Listing.everything.threads_pos⟩

end Depot.Storage.Memory
