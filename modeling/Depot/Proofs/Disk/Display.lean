import Depot.Proofs.Disk.Contents
import Depot.Proofs.Disk.Walk
import Depot.Proofs.Listing.Failures

/-!
Listings of everything that is stored on a file tree. A walk comes across every folder up to
the first on its way that has the name of a sidecar; on such a folder the listing
fails. If there is none it shows the stored files and the folders they lie in.
-/
namespace Depot.Storage.Disk

open Listing (Reached Shows)

variable {t : Tree} {p q : Place} {path f name : String} {content : Bytes} {n : Node}
  {o : Listing.Options} {e : Entry}

theorem length_le_placeSize (p : Place) : p.length ≤ placeSize p := by
  induction p with
  | nil => exact Nat.le_refl 0
  | cons name rest ih =>
    simp only [placeSize, List.map_cons, List.sum_cons, List.length_cons] at ih ⊢
    omega

theorem Proper.length_le (hp : Proper p) : p.length ≤ placeLimit :=
  (length_le_placeSize p).trans (isTooLong_eq_false.mp hp.near)

/-- Every folder but the two that are always there has a stored file below it. -/
theorem Tree.Tended.exists_file (ht : t.Tended) (h : t.Orderly)
    (hfolder : t.nodes.get? p = some .folder) (hroot : p ≠ [])
    (htemporary : p ≠ [temporaryFolder]) :
    ∃ r content, p <+: r ∧ p ≠ r ∧ ¬ IsSidecar r ∧ t.nodes.get? r = some (.file content) := by
  -- Places cannot become ever longer, so going down ends at a file.
  induction hdepth : placeLimit - p.length generalizing p with
  | zero =>
    obtain ⟨name, n, hn⟩ := ht p hfolder hroot htemporary
    have hlong := (h.rooted.proper _ _ hn).length_le
    rw [List.length_append, List.length_singleton] at hlong
    omega
  | succ depth ih =>
    obtain ⟨name, n, hn⟩ := ht p hfolder hroot htemporary
    have hlong := (h.rooted.proper _ _ hn).length_le
    rw [List.length_append, List.length_singleton] at hlong
    cases n with
    | link target => exact absurd hn (h.rooted.free _ target)
    | folder =>
      obtain ⟨r, content, hsub, -, hrest⟩ := ih hn (by simp)
        (fun heq => hroot (by cases p <;> simp_all)) (by simp; omega)
      refine ⟨r, content, (List.prefix_append p [name]).trans hsub, fun heq => ?_, hrest⟩
      have hlength := hsub.length_le
      rw [← heq, List.length_append, List.length_singleton] at hlength
      omega
    | file content =>
      by_cases hname : IsSidecar (p ++ [name])
      · obtain ⟨r, kept, m, hsome, hplace, hr, hfile, -⟩ := h.attached _ _ hname hn
        have hfolder' : p = r.dropLast := by
          rw [← dropLast_sidecar, ← hplace, List.dropLast_concat]
        refine ⟨r, kept, hfolder' ▸ List.dropLast_prefix r, fun heq => ?_, hr, hfile⟩
        rw [← heq, hfolder] at hfile
        simp at hfile
      · exact ⟨p ++ [name], content, List.prefix_append _ _, by simp, hname, hn⟩

/-- A folder that a walk from the root comes across: no folder on its way has the name of a
sidecar. -/
structure Tree.Open (t : Tree) (p : Place) : Prop where
  there : t.nodes.get? p = some .folder
  shown : p ≠ [temporaryFolder]
  way : ∀ q, q <+: p → q ≠ p → ¬ IsSidecar q

namespace Tree.Orderly

theorem root_open (h : t.Orderly) : t.Open [] :=
  ⟨h.root, by simp, fun q hsub hne => absurd (List.prefix_nil.mp hsub) hne⟩

/-- Of the folders that are come across, those with the name of a sidecar are reserved. -/
theorem reserved_iff (h : t.Orderly) (hopen : t.Open (Path.segments path)) :
    Reserved path ↔ IsSidecar (Path.segments path) := by
  refine ⟨fun hreserved => hreserved.resolve_left fun hfirst => ?_, Or.inr⟩
  obtain ⟨first, rest, hsplit⟩ : ∃ first rest, Path.segments path = first :: rest := by
    cases hnames : Path.segments path with
    | nil => simp [hnames] at hfirst
    | cons first rest => exact ⟨first, rest, rfl⟩
  rw [hsplit] at hfirst
  obtain rfl := Option.some.inj hfirst
  have hthere := hopen.there
  have hshown := hopen.shown
  rw [hsplit] at hthere hshown
  cases rest with
  | nil => exact hshown rfl
  | cons name more =>
    obtain ⟨n, hn⟩ := h.rooted.exists_above [temporaryFolder, name] more hthere
    rw [h.swept.bare] at hn
    simp at hn

theorem open_above (h : t.Orderly) (hopen : t.Open (p ++ [name])) : t.Open p ∧ ¬ IsSidecar p := by
  have hout : ∀ q, q <+: p → q ≠ p ++ [name] := by
    rintro q hsub rfl
    have hlength := hsub.length_le
    rw [List.length_append, List.length_singleton] at hlength
    omega
  refine ⟨⟨h.rooted.above _ _ _ hopen.there, ?_, fun q hsub hne => ?_⟩, ?_⟩
  · rintro rfl
    have hthere := hopen.there
    rw [show [temporaryFolder] ++ [name] = [temporaryFolder, name] from rfl, h.swept.bare] at hthere
    simp at hthere
  · exact hopen.way q (hsub.trans (List.prefix_append p [name])) (hout q hsub)
  · exact hopen.way p (List.prefix_append p [name]) (by simp)

theorem open_next (hopen : t.Open p) (hplain : ¬ IsSidecar p)
    (hfolder : t.nodes.get? (p ++ [name]) = some .folder)
    (hshown : p ++ [name] ≠ [temporaryFolder]) : t.Open (p ++ [name]) := by
  refine ⟨hfolder, hshown, fun q hsub hne => ?_⟩
  have hq := (List.prefix_concat_iff.mp hsub).resolve_left hne
  by_cases hlast : q = p
  · rwa [hlast]
  · exact hopen.way q hq hlast

/-- The level of a folder in a walk; one that cannot be listed has nothing in it. -/
theorem source_level (h : t.Orderly) (o : Listing.Options) (f : String) :
    (backend.source t o).level f =
      if ¬ Reserved f ∧ t.nodes.get? (Path.segments f) = some .folder then
        (Mirrors.items t (Path.segments f) o).filter Entry.isFolder ++
          (Mirrors.items t (Path.segments f) o).filter Entry.isFile
      else [] := by
  have hreply : (backend.source t o).reply f = level t f o := rfl
  unfold Listing.Source.level
  rw [hreply]
  by_cases hthere : ¬ Reserved f ∧ t.nodes.get? (Path.segments f) = some .folder
  · rw [if_pos hthere, h.level_eq hthere.1 hthere.2, Listing.Traversal.levelOf]
  · rw [if_neg hthere]
    cases hlevel : level t f o with
    | ok es => exact absurd (h.level_eq_ok_iff.mp ⟨es, hlevel⟩) hthere
    | error e' => cases hmissing : e'.isMissing <;> simp [Listing.Traversal.levelOf, hmissing]

theorem mem_level (h : t.Orderly) :
    e ∈ (backend.source t o).level f ↔
      (¬ Reserved f ∧ t.nodes.get? (Path.segments f) = some .folder) ∧
        e ∈ Mirrors.items t (Path.segments f) o := by
  rw [h.source_level]
  split
  · next hthere => simp only [(split_perm _).mem_iff, hthere, true_and, not_false_eq_true]
  · next hthere => simp only [hthere, false_and, List.not_mem_nil]

theorem level_nodup (h : t.Orderly) (o : Listing.Options) (f : String) :
    (((backend.source t o).level f).map Entry.path).Nodup := by
  rw [h.source_level]
  split
  · exact ((split_perm _).map Entry.path).nodup_iff.mpr (h.items_nodup _ o)
  · exact List.nodup_nil

/-- The folders that a walk from the root comes across. -/
theorem reached_iff (h : t.Orderly) :
    Reached (backend.source t o) Path.root f ↔
      Path.normalize f = f ∧ t.Open (Path.segments f) := by
  constructor
  · intro hreached
    induction hreached with
    | start => exact ⟨by decide, by rw [Path.segments_root]; exact h.root_open⟩
    | @down f e _ he hshows ih =>
      obtain ⟨⟨hfree, hfolder⟩, hitem⟩ := h.mem_level.mp he
      refine ⟨e.path_normal, ?_⟩
      rcases h.mem_items.mp hitem with ⟨name, hnext, hshown, rfl⟩
          | ⟨name, content, m, -, -, -, -, rfl⟩
      · rw [path_folderShown, Path.segments_normalize, segments_pathOf (h.rooted.clean hnext)]
        exact open_next ih.2 (fun hname => hfree (Or.inr hname)) hnext hshown
      · exact absurd hshows.1 (by simp [fileShown, Entry.make, Entry.isFolder])
  · rintro ⟨hnormal, hopen⟩
    rw [← hnormal, ← pathOf_of_segments]
    generalize Path.segments f = p at hopen ⊢
    induction p using List.reverseRecOn with
    | nil => exact .start
    | append_singleton init name ih =>
      obtain ⟨habove, hplain⟩ := h.open_above hopen
      have hinit := segments_pathOf (h.rooted.clean habove.there)
      have hnext := segments_pathOf (h.rooted.clean hopen.there)
      have hfree : ¬ Reserved (pathOf init) := by
        rwa [h.reserved_iff (hinit.symm ▸ habove), hinit]
      have hlevel : folderShown t (pathOf (init ++ [name])) ∈
          (backend.source t o).level (pathOf init) := by
        rw [h.mem_level, hinit]
        exact ⟨⟨hfree, habove.there⟩, h.mem_items.mpr
          (Or.inl ⟨name, hopen.there, hopen.shown, rfl⟩)⟩
      have hunder : Path.isUnder (pathOf (init ++ [name])) (pathOf init) = true := by
        rw [Path.isUnder_iff, hinit, hnext]
        exact ⟨by simp, List.prefix_append _ _⟩
      have hpath := path_folderShown (t := t) (pathOf (init ++ [name]))
      rw [normalize_pathOf] at hpath
      have hshows : Shows (pathOf init) (folderShown t (pathOf (init ++ [name]))) := by
        refine ⟨isFolder_folderShown _, ?_⟩
        rw [hpath]
        exact hunder
      have hdown := Reached.down (ih habove) hlevel hshows
      rwa [hpath] at hdown

/-- The outermost folder with the name of a sidecar is come across. -/
theorem exists_open (h : t.Orderly) (hfolder : t.nodes.get? p = some .folder)
    (hname : IsSidecar p) :
    ∃ q, q <+: p ∧ t.Open q ∧ IsSidecar q := by
  induction hlength : p.length using Nat.strong_induction_on generalizing p with
  | _ length ih =>
    by_cases hfirst : ∃ q, q <+: p ∧ q ≠ p ∧ IsSidecar q
    · obtain ⟨q, hsub, hne, hq⟩ := hfirst
      have hshort : q.length < length :=
        hlength ▸ hsub.length_le.lt_of_ne fun heq => hne (hsub.eq_of_length heq)
      obtain ⟨rest, rfl⟩ := hsub
      have habove := h.rooted.above_append (by simpa using hne) hfolder
      obtain ⟨r, hr, hopen, hname⟩ := ih _ hshort habove hq rfl
      exact ⟨r, hr.trans (List.prefix_append _ _), hopen, hname⟩
    · push Not at hfirst
      refine ⟨p, List.prefix_refl p, ⟨hfolder, ?_, hfirst⟩, hname⟩
      rintro rfl
      exact absurd hname (by decide)

/-- A folder that a listing fails on: one that is come across and whose name is reserved. -/
theorem blamed_iff (h : t.Orderly) (hfolder : o.folder = Path.root) (hfilter : o.filter = none) :
    (∃ e, Listing.Blamed (backend.source t o.oneLevel) o e) ↔
      ∃ p, t.nodes.get? p = some .folder ∧ IsSidecar p := by
  constructor
  · rintro ⟨e, f, hreached, hraises⟩
    rw [hfolder, h.reached_iff] at hreached
    obtain ⟨-, hopen⟩ := hreached
    cases hraises with
    | filter _ _ _ htest => simp [hfilter] at htest
    | call hreply _ =>
      refine ⟨_, hopen.there, (h.reserved_iff hopen).mp ?_⟩
      by_contra hfree
      have hlevel := h.level_eq hfree hopen.there o.oneLevel
      rw [show (backend.source t o.oneLevel).reply f = level t f o.oneLevel from rfl,
        hlevel] at hreply
      simp at hreply
  · rintro ⟨p, hthere, hname⟩
    obtain ⟨q, -, hopen, hq⟩ := h.exists_open hthere hname
    have hplace := segments_pathOf (h.rooted.clean hopen.there)
    refine ⟨_, pathOf q, ?_, .call (e := .invalidPath (some (pathOf q))
      "the name is reserved by the local storage backend") ?_ rfl⟩
    · rw [hfolder, h.reached_iff, hplace]
      exact ⟨normalize_pathOf q, hopen⟩
    · have hreserved : Reserved (pathOf q) := Or.inr (hplace.symm ▸ hq)
      change level t (pathOf q) o.oneLevel = _
      rw [level, place?_reserved hreserved]
      rfl

/-- The listing of everything that is stored: its answer by what the levels lead to. -/
theorem verdict (h : t.Orderly) (hfolder : o.folder = Path.root) (hrecurse : o.recurse = true)
    (hlimit : o.limit = none) :
    Listing.Verdict (backend.source t o.oneLevel) o (backend.listReport t o).answer := by
  have hlocal : backend.hierarchical = false ∨ o.mode = .localOnly := Or.inl rfl
  have hcall : (Listing.Plan.ofOptions backend.hierarchical o).callOptions = o.oneLevel :=
    if_pos (Listing.descends_of_local hlocal hrecurse)
  rw [Backend.listReport, ← hcall]
  refine Listing.list_verdict (backend.source t) hlocal hrecurse hlimit (Mirrors.instant t _)
    (t.nodes.keys.map pathOf) (fun f hf => ?_) ?_
  · rw [hcall, hfolder] at hf
    obtain ⟨hnormal, hopen⟩ := h.reached_iff.mp hf
    refine List.mem_map.mpr ⟨Path.segments f, OrderedMap.mem_keys_iff.mpr ⟨_, hopen.there⟩, ?_⟩
    rw [pathOf_of_segments, hnormal]
  · have hsize : t.nodes.size + 1 ≤ t.folderBound :=
      Nat.le_self_pow (Nat.succ_ne_zero placeLimit) _
    have hkeys : t.nodes.keys.length = t.nodes.size := List.length_map _
    have hfolders : (backend.source t
        (Listing.Plan.ofOptions backend.hierarchical o).callOptions).folders = t.folderBound := by
      simp only [Backend.source, backend]
    rw [hfolders, List.length_map, hkeys]
    omega

end Tree.Orderly

theorem isSidecar_iff_name (hsome : Path.segments path ≠ []) :
    IsSidecar (Path.segments path) ↔ isSidecarName (Path.name path) = true := by
  rw [Path.name, ← List.dropLast_append_getLast hsome, isSidecar_concat, List.getLastD_concat]

/-- The folders that some stored file lies in, seen through the operations of the store. -/
theorem Tree.Orderly.folder_of_ancestor (h : t.Orderly) {folder : String}
    (hholds : backend.holds t path = .ok true) (hfolder : folder ∈ Path.properAncestors path) :
    t.nodes.get? (Path.segments folder) = some .folder ∧ Path.normalize folder = folder ∧
      Path.segments folder ≠ [] ∧ Path.segments folder ≠ [temporaryFolder] := by
  obtain ⟨hfree, content, hfile⟩ := h.rooted.holds_iff.mp hholds
  obtain ⟨k, hpos, hk, rfl⟩ := Path.mem_properAncestors.mp hfolder
  rw [Path.segments_upTo]
  have hsplit := List.take_append_drop k (Path.segments path)
  have hrest : (Path.segments path).drop k ≠ [] := by
    rw [ne_eq, List.drop_eq_nil_iff]
    omega
  have hsome : (Path.segments path).take k ≠ [] := by
    rw [ne_eq, List.take_eq_nil_iff, not_or]
    exact ⟨by omega, h.ne_nil_of_file hfile⟩
  refine ⟨h.rooted.above_append hrest (hsplit.symm ▸ hfile), Path.normalize_upTo,
    hsome, fun heq => ?_⟩
  refine h.first_of_file hfile ?_
  rw [← head?_of_initial (List.take_prefix k _) hsome, heq]
  rfl

theorem Tree.Tended.ancestor_of_folder (ht : t.Tended) (h : t.Orderly)
    (hfolder : t.nodes.get? p = some .folder) (hroot : p ≠ [])
    (htemporary : p ≠ [temporaryFolder]) :
    ∃ file, backend.holds t file = .ok true ∧ pathOf p ∈ Path.properAncestors file := by
  obtain ⟨r, content, hsub, hne, hplain, hfile⟩ := ht.exists_file h hfolder hroot htemporary
  have hplace := segments_pathOf (h.rooted.clean hfolder)
  have hplace' := segments_pathOf (h.rooted.clean hfile)
  rw [← hplace'] at hplain hfile
  refine ⟨pathOf r, h.rooted.holds_iff.mpr ⟨h.free_of_file hfile hplain, content, hfile⟩, ?_⟩
  rw [Path.mem_properAncestors_iff (normalize_pathOf p), Path.isUnder_iff, hplace, hplace']
  · exact ⟨hsub.length_le.lt_of_ne fun heq => hne (hsub.eq_of_length heq), hsub⟩
  · intro heq
    rw [← hplace, heq, Path.segments_root] at hroot
    exact hroot rfl

/-- Some stored file lies in a folder that has the name of a sidecar. -/
theorem sidecar_folder_iff (h : t.Orderly) (ht : t.Tended) :
    (∃ p, t.nodes.get? p = some .folder ∧ IsSidecar p) ↔
      ∃ path folder, backend.holds t path = .ok true ∧ folder ∈ Path.properAncestors path ∧
        isSidecarName (Path.name folder) = true := by
  constructor
  · rintro ⟨p, hthere, hname⟩
    have hroot : p ≠ [] := by
      rintro rfl
      simp [IsSidecar] at hname
    have htemporary : p ≠ [temporaryFolder] := by
      rintro rfl
      exact absurd hname (by decide)
    obtain ⟨file, hholds, hmem⟩ := ht.ancestor_of_folder h hthere hroot htemporary
    have hplace := segments_pathOf (h.rooted.clean hthere)
    refine ⟨file, pathOf p, hholds, hmem, (isSidecar_iff_name ?_).mp ?_⟩
    · rw [hplace]
      exact hroot
    · rw [hplace]
      exact hname
  · rintro ⟨path, folder, hholds, hmem, hname⟩
    obtain ⟨hthere, -, hsome, -⟩ := h.folder_of_ancestor hholds hmem
    exact ⟨_, hthere, (isSidecar_iff_name hsome).mpr hname⟩

namespace Tree.Orderly

variable {order : List String}

/-- When no folder has the name of a sidecar the walk shows every folder, and what is in it. -/
theorem mem_shown (h : t.Orderly) (hfolder : o.folder = Path.root) (hfilter : o.filter = none)
    (hnames : o.filePrefix = none) (hplain : ∀ p, t.nodes.get? p = some .folder → ¬ IsSidecar p)
    (horder : Listing.Enumerates (backend.source t o.oneLevel) o.folder order) :
    e ∈ Listing.passing (backend.source t o.oneLevel) o order ↔
      ∃ p, t.nodes.get? p = some .folder ∧ p ≠ [temporaryFolder] ∧
        e ∈ Mirrors.items t p o.oneLevel := by
  have hpasses : ∀ e, o.passes e = true := by
    intro e
    simp [Listing.Options.passes, Listing.Options.accepts, Listing.Options.isMatch, hfilter, hnames,
      Listing.Options.prefixPasses]
  have hopen : ∀ p, t.nodes.get? p = some .folder → p ≠ [temporaryFolder] → t.Open p := by
    refine fun p hthere hshown => ⟨hthere, hshown, fun q hsub hne => hplain q ?_⟩
    obtain ⟨rest, rfl⟩ := hsub
    exact h.rooted.above_append (by simpa using hne) hthere
  simp only [Listing.passing, List.mem_flatMap, List.mem_filter, hpasses, and_true, horder.complete,
    hfolder, h.reached_iff, h.mem_level]
  constructor
  · rintro ⟨f, ⟨-, hf⟩, -, he⟩
    exact ⟨_, hf.there, hf.shown, he⟩
  · rintro ⟨p, hthere, hshown, he⟩
    have hplace := segments_pathOf (h.rooted.clean hthere)
    have hp := hopen p hthere hshown
    rw [← hplace] at hthere hp he
    refine ⟨pathOf p, ⟨normalize_pathOf p, hp⟩, ⟨?_, hthere⟩, he⟩
    rw [h.reserved_iff hp]
    exact hplain _ hthere

/-- Every path is shown once: an entry tells the folder that it is in. -/
theorem shown_nodup (h : t.Orderly) (hfolder : o.folder = Path.root)
    (horder : Listing.Enumerates (backend.source t o.oneLevel) o.folder order) :
    ((Listing.passing (backend.source t o.oneLevel) o order).map Entry.path).Nodup := by
  have hplace : ∀ f, ∀ e ∈ ((backend.source t o.oneLevel).level f).filter o.passes,
      (Path.segments e.path).dropLast = Path.segments f := by
    intro f e he
    obtain ⟨-, hitem⟩ := h.mem_level.mp (List.mem_of_mem_filter he)
    obtain ⟨name, hname⟩ := h.segments_of_mem_items hitem
    rw [hname, List.dropLast_concat]
  have hnormal : ∀ f ∈ order, Path.normalize f = f := fun f hf => by
    rw [horder.complete, hfolder, h.reached_iff] at hf
    exact hf.1
  rw [Listing.passing, List.map_flatMap, List.nodup_flatMap]
  refine ⟨fun f _ => (h.level_nodup o.oneLevel f).sublist (List.filter_sublist.map _), ?_⟩
  refine horder.unique.imp_of_mem fun {f f'} hf hf' hne x hx hx' => ?_
  obtain ⟨e, he, rfl⟩ := List.mem_map.mp hx
  obtain ⟨e', he', hpath⟩ := List.mem_map.mp hx'
  refine hne (Path.eq_of_segments (hnormal f hf) (hnormal f' hf') ?_)
  rw [← hplace f e he, ← hplace f' e' he', hpath]

/-- What the listing of everything shows, each path once. -/
theorem shown (h : t.Orderly) (hfolder : o.folder = Path.root) (hrecurse : o.recurse = true)
    (hlimit : o.limit = none) (hfilter : o.filter = none) (hnames : o.filePrefix = none)
    (hplain : ∀ p, t.nodes.get? p = some .folder → ¬ IsSidecar p) :
    ∃ es, (backend.listReport t o).answer = .ok es ∧ (es.map Entry.path).Nodup ∧
      ∀ e, e ∈ es ↔ ∃ p, t.nodes.get? p = some .folder ∧ p ≠ [temporaryFolder] ∧
        e ∈ Mirrors.items t p o.oneLevel := by
  have hverdict := h.verdict hfolder hrecurse hlimit
  cases hanswer : (backend.listReport t o).answer with
  | error e =>
    obtain ⟨p, hthere, hname⟩ := (h.blamed_iff hfolder hfilter).mp (hverdict.fails.mp ⟨e, hanswer⟩)
    exact absurd hname (hplain p hthere)
  | ok es =>
    obtain ⟨order, horder, rfl⟩ := hverdict.lists es hanswer
    exact ⟨_, rfl, h.shown_nodup hfolder horder,
      fun e => h.mem_shown hfolder hfilter hnames hplain horder⟩

/-- The stored files are those that some level shows. -/
theorem file_shown_iff (h : t.Orderly) (hnames : o.filePrefix = none) {size : Option Int} :
    (∃ e, (∃ p, t.nodes.get? p = some .folder ∧ p ≠ [temporaryFolder] ∧ e ∈ Mirrors.items t p o) ∧
        e.kind = .file ∧ e.path = path ∧ e.size = size) ↔
      Path.normalize path = path ∧ backend.holds t path = .ok true ∧
        ∃ content, backend.read t path = .ok content ∧ size = some (content.length : Int) := by
  constructor
  · rintro ⟨e, ⟨p, hthere, hshown, he⟩, hkind, rfl, rfl⟩
    refine ⟨e.path_normal, ?_⟩
    rcases h.mem_items.mp he with ⟨name, -, -, rfl⟩ | ⟨name, content, m, hfile, -, hplain, -, rfl⟩
    · exact absurd hkind (by simp [folderShown, Entry.make])
    · have hplace := segments_pathOf (h.rooted.clean hfile)
      rw [path_fileShown, normalize_pathOf]
      rw [← hplace] at hfile hplain
      have hfree := h.free_of_file hfile hplain
      exact ⟨h.rooted.holds_iff.mpr ⟨hfree, content, hfile⟩, content,
        h.rooted.read_of_file hfree hfile, rfl⟩
  · rintro ⟨hnormal, hholds, content, hread, rfl⟩
    obtain ⟨hfree, content', hfile⟩ := h.rooted.holds_iff.mp hholds
    obtain rfl : content' = content := Except.ok.inj
        ((h.rooted.read_of_file hfree hfile).symm.trans hread)
    have hsplit := List.dropLast_append_getLast (h.ne_nil_of_file hfile)
    have hplain := (not_or.mp hfree).2
    rw [← hsplit] at hfile hplain
    obtain ⟨m, hitem⟩ := h.file_mem_items hfile hplain hnames
    refine ⟨_, ⟨_, h.rooted.above _ _ _ hfile, fun heq => ?_, hitem⟩, rfl, ?_, rfl⟩
    · exact head?_dropLast_ne (not_or.mp hfree).1 (by rw [heq]; rfl)
    · rw [path_fileShown, normalize_pathOf, hsplit, pathOf_of_segments, hnormal]

/-- The folders that stored files lie in are those that some level shows. -/
theorem folder_shown_iff (h : t.Orderly) (ht : t.Tended) :
    (∃ e, (∃ p, t.nodes.get? p = some .folder ∧ p ≠ [temporaryFolder] ∧ e ∈ Mirrors.items t p o) ∧
        e.kind = .folder ∧ e.path = path) ↔
      ∃ file, backend.holds t file = .ok true ∧ path ∈ Path.properAncestors file := by
  constructor
  · rintro ⟨e, ⟨p, hthere, hshown, he⟩, hkind, rfl⟩
    rcases h.mem_items.mp he with ⟨name, hnext, htemporary, rfl⟩
        | ⟨name, content, m, -, -, -, -, rfl⟩
    · rw [path_folderShown, normalize_pathOf]
      exact ht.ancestor_of_folder h hnext (by simp) htemporary
    · exact absurd hkind (by simp [fileShown, Entry.make])
  · rintro ⟨file, hholds, hmem⟩
    obtain ⟨hthere, hnormal, hsome, hshown⟩ := h.folder_of_ancestor hholds hmem
    have hsplit := List.dropLast_append_getLast hsome
    rw [← hsplit] at hthere hshown
    refine ⟨_, ⟨_, h.rooted.above _ _ _ hthere, fun heq => ?_,
      h.mem_items.mpr (Or.inl ⟨_, hthere, hshown, rfl⟩)⟩, rfl, ?_⟩
    · rw [heq, show [temporaryFolder] ++ [(Path.segments path).getLast hsome] =
        [temporaryFolder, (Path.segments path).getLast hsome] from rfl, h.swept.bare] at hthere
      simp at hthere
    · rw [path_folderShown, normalize_pathOf, hsplit, pathOf_of_segments, hnormal]

end Tree.Orderly

/-- After any changes with paths that the file system takes, the uncapped listing of everything
fails just when some stored file lies in a folder that has the name of a sidecar. Otherwise it
shows each stored file once, with its size, and each folder that one lies in, and nothing else. -/
theorem everything_shown (hfresh : t.Untouched) (changes : List Change)
    (haccepted : ∀ c ∈ changes, Accepted c) (o : Listing.Options) (hfolder : o.folder = Path.root)
    (hrecurse : o.recurse = true) (hlimit : o.limit = none) (hfilter : o.filter = none)
    (hnames : o.filePrefix = none) :
    let s := after backend (backend.init.runFrom t).2 changes
    ((∃ e, (backend.listReport s o).answer = .error e) ↔
      ∃ path folder, backend.holds s path = .ok true ∧ folder ∈ Path.properAncestors path ∧
        isSidecarName (Path.name folder) = true) ∧
    ∀ es, (backend.listReport s o).answer = .ok es →
      (es.map Entry.path).Nodup ∧
      (∀ path size, (∃ e ∈ es, e.kind = .file ∧ e.path = path ∧ e.size = size) ↔
        Path.normalize path = path ∧ backend.holds s path = .ok true ∧
          ∃ content, backend.read s path = .ok content ∧ size = some (content.length : Int)) ∧
      ∀ path, (∃ e ∈ es, e.kind = .folder ∧ e.path = path) ↔
        ∃ file, backend.holds s file = .ok true ∧ path ∈ Path.properAncestors file := by
  have h := orderly_after hfresh changes
  have ht := tended_after hfresh changes haccepted
  generalize after backend (backend.init.runFrom t).2 changes = s at h ht
  have hverdict := h.verdict hfolder hrecurse hlimit
  have hfails := hverdict.fails.trans (h.blamed_iff hfolder hfilter)
  refine ⟨hfails.trans (sidecar_folder_iff h ht), fun es hanswer => ?_⟩
  have hplain : ∀ p, s.nodes.get? p = some .folder → ¬ IsSidecar p := by
    intro p hthere hname
    obtain ⟨e, he⟩ := hfails.mpr ⟨p, hthere, hname⟩
    rw [hanswer] at he
    simp at he
  obtain ⟨es', hanswer', hnodup, hmem⟩ :=
    h.shown hfolder hrecurse hlimit hfilter hnames hplain
  obtain rfl : es = es' := Except.ok.inj (hanswer.symm.trans hanswer')
  simp only [hmem]
  exact ⟨hnodup, fun path size => h.file_shown_iff hnames, fun path => h.folder_shown_iff ht⟩

def oneFile : List Change := [.write (some "a/b") [1] false]

theorem everything_shown_oneFile :
    let s := after backend (backend.init.runFrom .empty).2 oneFile
    (∀ c ∈ oneFile, Accepted c) ∧
    ∃ es, (backend.listReport s Listing.everything).answer = .ok es ∧
      (∃ e ∈ es, e.kind = .file ∧ e.path = "a/b" ∧ e.size = some 1) ∧
      ∃ e ∈ es, e.kind = .folder ∧ e.path = "a" := by
  intro s
  have haccepted : ∀ c ∈ oneFile, Accepted c := by decide
  have hfree : ¬ Reserved "a/b" := by decide
  have hplace : Path.segments "a/b" = ["a", "b"] := by decide
  have hpath : filePath (some "a/b") = .ok "a/b" := by decide
  obtain ⟨h, hread⟩ : s.Orderly ∧ ∀ p, s.nodes.get? p = _ :=
    first_write untouched_empty hpath hfree (by decide) [1] (by decide) false
  rw [hplace] at hread
  have hfile : s.nodes.get? (Path.segments "a/b") = some (.file [1]) := by
    rw [hplace, hread, if_pos rfl]
  have hholds : backend.holds s "a/b" = .ok true := h.rooted.holds_iff.mpr ⟨hfree, [1], hfile⟩
  have hcontent : backend.read s "a/b" = .ok [1] := h.rooted.read_of_file hfree hfile
  obtain ⟨hfails, hshows⟩ := everything_shown untouched_empty oneFile haccepted Listing.everything
    rfl rfl rfl rfl rfl
  cases hanswer : (backend.listReport s Listing.everything).answer with
  | error e =>
    obtain ⟨path, folder, hholds', hmem, hname⟩ := hfails.mp ⟨e, hanswer⟩
    obtain ⟨-, content, hfile'⟩ := h.rooted.holds_iff.mp hholds'
    have hpath : Path.segments path = ["a", "b"] := by
      by_contra hother
      have hnode := hread (Path.segments path)
      rw [if_neg hother] at hnode
      have hnode := hnode.symm.trans hfile'
      split at hnode <;> simp at hnode
    have hfolder : folder = "a" := by
      rw [Path.properAncestors, hpath] at hmem
      exact List.mem_singleton.mp hmem
    rw [hfolder] at hname
    exact absurd hname (by decide)
  | ok es =>
    obtain ⟨-, hfiles, hfolders⟩ := hshows es hanswer
    exact ⟨haccepted, es, rfl, (hfiles "a/b" (some 1)).mpr ⟨by decide, hholds, [1], hcontent, rfl⟩,
      (hfolders "a").mpr ⟨"a/b", hholds, by decide⟩⟩

/-- Only the last name of a path is looked at: a file is stored in a folder with the name of a
sidecar, and nothing can be listed from then on. -/
theorem nothing_shown :
    let s := after backend (backend.init.runFrom .empty).2 [.write (some "d.attr/x") [1] false]
    Accepted (.write (some "d.attr/x") [1] false) ∧ backend.holds s "d.attr/x" = .ok true ∧
      ∃ e, (backend.listReport s Listing.everything).answer = .error e := by
  intro s
  have hfree : ¬ Reserved "d.attr/x" := by decide
  have hplace : Path.segments "d.attr/x" = ["d.attr", "x"] := by decide
  have hpath : filePath (some "d.attr/x") = .ok "d.attr/x" := by decide
  obtain ⟨h, hread⟩ : s.Orderly ∧ ∀ p, s.nodes.get? p = _ :=
    first_write untouched_empty hpath hfree (by decide) [1] (by decide) false
  rw [hplace] at hread
  have hfile : s.nodes.get? (Path.segments "d.attr/x") = some (.file [1]) := by
    rw [hplace, hread, if_pos rfl]
  have hfolder : s.nodes.get? ["d.attr"] = some .folder := by
    rw [hread, if_neg (by decide), if_pos (Or.inl ⟨["x"], rfl⟩)]
  have hverdict := h.verdict (o := Listing.everything) rfl rfl rfl
  exact ⟨by decide, h.rooted.holds_iff.mpr ⟨hfree, [1], hfile⟩,
    hverdict.fails.mpr ((h.blamed_iff rfl rfl).mpr ⟨["d.attr"], hfolder, by decide⟩)⟩

end Depot.Storage.Disk
