import Depot.Proofs.Disk.Level
import Depot.Proofs.Disk.Upkeep

/-!
What a tree in order answers. A stored file is there and can be read, a folder has a level
unless its name is reserved, and metadata are always read back. The folder of temporary files
and the sidecars are not shown.
-/
namespace Depot.Storage.Disk

open Memory (Stored)

variable {t t' : Tree} {p q : Place} {path name : String} {content : Bytes} {n : Node}
  {o : Listing.Options} {e : Entry} {withMetadata : Bool}

/-- The place of the path of a place is this place. -/
theorem segments_pathOf (hclean : Clean p) : Path.segments (pathOf p) = p := by
  rw [pathOf, Path.segments_normalize, Path.segments_join hclean]

theorem pathOf_of_segments (path : String) : pathOf (Path.segments path) = Path.normalize path :=
  Path.normalize_normalize path

theorem normalize_pathOf (p : Place) : Path.normalize (pathOf p) = pathOf p :=
  Path.normalize_normalize _

theorem path_folderShown (q : String) : (folderShown t q).path = Path.normalize q := rfl

theorem isFolder_folderShown (q : String) : (folderShown t q).isFolder = true := rfl

theorem path_fileShown (k : String) (f : Stored) (withMetadata : Bool) :
    (fileShown t k f withMetadata).path = Path.normalize k := rfl

theorem isSidecar_concat : IsSidecar (p ++ [name]) ↔ isSidecarName name = true := by
  simp [IsSidecar]

theorem Tree.Rooted.modified_eq (h : t.Rooted) (hn : t.nodes.get? p = some n) :
    modified t p = t.times.last p := by
  have hlocate : t.locate .target p = .ok p := h.locate_of_node hn
  rw [modified, hlocate]

theorem Tree.Rooted.clean (h : t.Rooted) (hn : t.nodes.get? p = some n) : Clean p :=
  (h.proper p n hn).clean

namespace Tree.Rooted

theorem holds_iff (h : t.Rooted) :
    holds t path = .ok true ↔
      ¬ Reserved path ∧ ∃ content, t.nodes.get? (Path.segments path) = some (.file content) := by
  unfold holds
  by_cases hfree : Reserved path
  · rw [place?_reserved hfree]
    simp [hfree]
  · rw [place?_free hfree, ok_bind, ← h.isFile_iff (clean_segments path)]
    cases t.isFile (Path.segments path) <;> simp [Except.mapError, hfree]

theorem read_of_file (h : t.Rooted) (hfree : ¬ Reserved path)
    (hfile : t.nodes.get? (Path.segments path) = some (.file content)) :
    read t path = .ok content := by
  unfold read
  rw [place?_free hfree, ok_bind, h.isFile_eq_true hfile]
  simp only [Except.mapError, ok_bind, if_true, h.stat_of_node hfile]
  rfl

theorem read_iff (h : t.Rooted) :
    read t path = .ok content ↔
      ¬ Reserved path ∧ t.nodes.get? (Path.segments path) = some (.file content) := by
  refine ⟨fun hread => ?_, fun ⟨hfree, hfile⟩ => h.read_of_file hfree hfile⟩
  by_cases hfree : Reserved path
  · simp [read, place?_reserved hfree] at hread
  · cases hask : t.isFile (Path.segments path) with
    | error e => simp [read, place?_free hfree, hask, Except.mapError] at hread
    | ok there =>
      cases there with
      | false => simp [read, place?_free hfree, hask, Except.mapError] at hread
      | true =>
        obtain ⟨content', hfile⟩ := (h.isFile_iff (clean_segments path)).mp hask
        rw [h.read_of_file hfree hfile] at hread
        exact ⟨hfree, Except.ok.inj hread ▸ hfile⟩

/-- A file without a sidecar has no metadata. -/
theorem readMetadata_of_none (h : t.Rooted) (hclean : Clean p) (hsome : p ≠ [])
    (hnone : ∀ content, t.nodes.get? (sidecar p) ≠ some (.file content)) :
    readMetadata t p = .ok .empty := by
  unfold readMetadata
  cases hstat : t.stat (sidecar p) with
  | error e => rfl
  | ok n =>
    have hn := (h.stat_eq_ok (clean_sidecar hclean hsome)).mp hstat
    cases n with
    | folder => rfl
    | link target => rfl
    | file content => exact absurd hn (hnone content)

/-- Two trees with the same sidecar of a file have the same metadata of it. -/
theorem readMetadata_congr (h : t.Rooted) (h' : t'.Rooted) (hclean : Clean p) (hsome : p ≠ [])
    (hsame : ∀ content, t'.nodes.get? (sidecar p) = some (.file content) ↔
      t.nodes.get? (sidecar p) = some (.file content)) :
    readMetadata t' p = readMetadata t p := by
  by_cases hfile : ∃ content, t.nodes.get? (sidecar p) = some (.file content)
  · obtain ⟨content, hfile⟩ := hfile
    unfold readMetadata
    rw [h.stat_of_node hfile, h'.stat_of_node ((hsame content).mpr hfile)]
  · push Not at hfile
    have hfile' : ∀ content, t'.nodes.get? (sidecar p) ≠ some (.file content) :=
      fun content hthere => hfile content ((hsame content).mp hthere)
    rw [h.readMetadata_of_none hclean hsome hfile, h'.readMetadata_of_none hclean hsome hfile']

theorem entryOf_file (h : t.Rooted) (hfile : t.nodes.get? p = some (.file content))
    (withMetadata : Bool) :
    entryOf t p withMetadata =
      (if withMetadata then readMetadata t p else .ok .empty).map fun m =>
        fileShown t (pathOf p) ⟨content, m⟩ withMetadata := by
  have hplace := segments_pathOf (h.clean hfile)
  unfold entryOf fileShown
  simp only [h.stat_of_node hfile, hplace]
  cases withMetadata with
  | false => rfl
  | true =>
    simp only [if_true]
    cases readMetadata t p <;> rfl

theorem entry?_of_file (h : t.Rooted) (hfree : ¬ Reserved path)
    (hfile : t.nodes.get? (Path.segments path) = some (.file content)) :
    entry? t path = (readMetadata t (Path.segments path)).map fun m =>
      some (fileShown t (Path.normalize path) ⟨content, m⟩ true) := by
  have hentry := h.entryOf_file hfile true
  rw [pathOf_of_segments, if_pos rfl] at hentry
  unfold entry?
  rw [place?_free hfree, ok_bind, h.isFile_eq_true hfile]
  simp only [Except.mapError, ok_bind, if_true, hentry]
  cases readMetadata t (Path.segments path) <;> rfl

/-- The entry that is answered for a path. -/
theorem entry?_iff (h : t.Rooted) :
    entry? t path = .ok (some e) ↔ ¬ Reserved path ∧ ∃ content kept,
      t.nodes.get? (Path.segments path) = some (.file content) ∧
      readMetadata t (Path.segments path) = .ok kept ∧
      e = fileShown t (Path.normalize path) ⟨content, kept⟩ true := by
  constructor
  · intro hentry
    by_cases hfree : Reserved path
    · simp [ entry?, place?_reserved hfree] at hentry
    refine ⟨hfree, ?_⟩
    cases hask : t.isFile (Path.segments path) with
    | error e => simp [ entry?, place?_free hfree, hask, Except.mapError] at hentry
    | ok there =>
      cases there with
      | false =>
        simp [ entry?, place?_free hfree, hask, Except.mapError, pure, Except.pure] at hentry
      | true =>
        obtain ⟨content, hfile⟩ := (h.isFile_iff (clean_segments path)).mp hask
        rw [h.entry?_of_file hfree hfile] at hentry
        cases hkept : readMetadata t (Path.segments path) with
        | error e => simp [hkept, Except.map] at hentry
        | ok kept =>
          rw [hkept] at hentry
          exact ⟨content, kept, hfile, rfl, (Option.some.inj (Except.ok.inj hentry)).symm⟩
  · rintro ⟨hfree, content, kept, hfile, hkept, rfl⟩
    rw [h.entry?_of_file hfree hfile, hkept]
    rfl

end Tree.Rooted

namespace Tree.Orderly

/-- Whatever stands in place of a sidecar, metadata are read. -/
theorem readMetadata_eq_ok (h : t.Orderly) (hclean : Clean p) (hsome : p ≠ []) :
    ∃ m, readMetadata t p = .ok m := by
  unfold readMetadata
  cases hstat : t.stat (sidecar p) with
  | error e => exact ⟨_, rfl⟩
  | ok n =>
    cases n with
    | folder => exact ⟨_, rfl⟩
    | link target => exact ⟨_, rfl⟩
    | file content =>
      have hfile := (h.rooted.stat_eq_ok (clean_sidecar hclean hsome)).mp hstat
      obtain ⟨r, kept, m, -, -, -, -, rfl⟩ := h.attached _ _ (isSidecar_sidecar p) hfile
      have hdecode : Text.Codec.utf8.decode? (Bytes.utf8 (Json.ofTexts m).render) =
          some (Json.ofTexts m).render := Text.Codec.decodeUtf8?_utf8 _
      exact ⟨Json.ofTexts m, by simp only [hdecode, Option.map_some, Json.read_ofTexts]⟩

theorem entryOf_file (h : t.Orderly) (hfile : t.nodes.get? p = some (.file content))
    (withMetadata : Bool) :
    ∃ m, (withMetadata = true → readMetadata t p = .ok m) ∧
      entryOf t p withMetadata = .ok (fileShown t (pathOf p) ⟨content, m⟩ withMetadata) := by
  obtain ⟨m, hm⟩ := h.readMetadata_eq_ok (h.rooted.clean hfile) (h.ne_nil_of_file hfile)
  refine ⟨m, fun _ => hm, ?_⟩
  rw [h.rooted.entryOf_file hfile]
  cases withMetadata with
  | false => rfl
  | true =>
    rw [if_pos rfl, hm]
    rfl

theorem entryOf_folder (h : t.Orderly) (hfolder : t.nodes.get? p = some .folder) :
    entryOf t p false = .ok (folderShown t (pathOf p)) := by
  have hplace := segments_pathOf (h.rooted.clean hfolder)
  unfold entryOf folderShown
  simp only [h.rooted.stat_of_node hfolder, hplace]
  rfl

theorem entry?_of_file (h : t.Orderly) (hfree : ¬ Reserved path)
    (hfile : t.nodes.get? (Path.segments path) = some (.file content)) :
    ∃ m, readMetadata t (Path.segments path) = .ok m ∧
      entry? t path = .ok (some (fileShown t (Path.normalize path) ⟨content, m⟩ true)) := by
  obtain ⟨m, hm⟩ := h.readMetadata_eq_ok (clean_segments path) (h.ne_nil_of_file hfile)
  refine ⟨m, hm, ?_⟩
  rw [h.rooted.entry?_of_file hfree hfile, hm]
  rfl

theorem levelItem_folder (h : t.Orderly) (hfolder : t.nodes.get? (p ++ [name]) = some .folder) :
    levelItem t p o name =
      .ok (if p ++ [name] = [temporaryFolder] then none
        else some (folderShown t (pathOf (p ++ [name])))) := by
  have hplace : (p = [] ∧ name = temporaryFolder) ↔ p ++ [name] = [temporaryFolder] := by
    cases p <;> simp
  unfold levelItem
  simp only [h.rooted.stat_of_node hfolder, hplace, h.entryOf_folder hfolder]
  split <;> rfl

theorem levelItem_file (h : t.Orderly) (hfile : t.nodes.get? (p ++ [name]) = some (.file content)) :
    ∃ m, levelItem t p o name =
      .ok (if isSidecarName name = false ∧ Listing.Options.prefixPasses o.filePrefix name then
        some (fileShown t (pathOf (p ++ [name])) ⟨content, m⟩ o.withMetadata) else none) := by
  obtain ⟨m, -, hentry⟩ := h.entryOf_file hfile o.withMetadata
  refine ⟨m, ?_⟩
  unfold levelItem
  simp only [h.rooted.stat_of_node hfile, hentry]
  cases isSidecarName name with
  | true => simp
  | false =>
    simp only [Bool.false_eq_true, if_false, true_and]
    split <;> rfl

/-- No name of a folder makes its level fail. -/
theorem levelItem_eq_ok (h : t.Orderly) (hn : t.nodes.get? (p ++ [name]) = some n) :
    levelItem t p o name = .ok (levelItem t p o name).toOption.join := by
  cases n with
  | link target => exact absurd hn (h.rooted.free _ target)
  | folder =>
    rw [h.levelItem_folder hn]
    rfl
  | file content =>
    obtain ⟨m, hitem⟩ := h.levelItem_file (o := o) hn
    rw [hitem]
    rfl

/-- A folder has a level unless its name is reserved. -/
theorem level_eq (h : t.Orderly) (hfree : ¬ Reserved path)
    (hfolder : t.nodes.get? (Path.segments path) = some .folder) (o : Listing.Options) :
    level t path o = .ok ((Mirrors.items t (Path.segments path) o).filter Entry.isFolder ++
      (Mirrors.items t (Path.segments path) o).filter Entry.isFile) := by
  have hproper := h.rooted.proper _ _ hfolder
  have hitems : (t.children (Path.segments path)).mapM (levelItem t (Path.segments path) o) =
      .ok ((t.children (Path.segments path)).map fun name =>
        (levelItem t (Path.segments path) o name).toOption.join) := by
    apply mapM_eq_ok
    intro name hname
    obtain ⟨n, hn⟩ := Tree.mem_children.mp hname
    exact h.levelItem_eq_ok hn
  unfold level
  simp only [place?_free hfree, ok_bind, h.rooted.isFolder_eq hproper, hfolder, decide_true,
    Except.mapError, if_true, h.rooted.namesIn_eq hfolder, hitems, List.filterMap_map]
  rfl

theorem level_eq_ok_iff (h : t.Orderly) :
    (∃ es, level t path o = .ok es) ↔
      ¬ Reserved path ∧ t.nodes.get? (Path.segments path) = some .folder := by
  refine ⟨fun ⟨es, hlevel⟩ => ?_, fun ⟨hfree, hfolder⟩ => ⟨_, h.level_eq hfree hfolder o⟩⟩
  by_cases hfree : Reserved path
  · simp [level, place?_reserved hfree] at hlevel
  · refine ⟨hfree, ?_⟩
    rw [← h.rooted.isFolder_iff (clean_segments path)]
    simp only [level, place?_free hfree, ok_bind] at hlevel
    cases hask : t.isFolder (Path.segments path) with
    | error e => simp [hask, Except.mapError] at hlevel
    | ok there =>
      cases there with
      | true => rfl
      | false => simp [hask, Except.mapError] at hlevel

/-- What a level shows of a folder: the folders in it, and its files that are no sidecars. -/
theorem mem_items (h : t.Orderly) :
    e ∈ Mirrors.items t p o ↔
      (∃ name, t.nodes.get? (p ++ [name]) = some .folder ∧ p ++ [name] ≠ [temporaryFolder] ∧
        e = folderShown t (pathOf (p ++ [name]))) ∨
      ∃ name content m, t.nodes.get? (p ++ [name]) = some (.file content) ∧
        levelItem t p o name = .ok (some e) ∧ ¬ IsSidecar (p ++ [name]) ∧
        Listing.Options.prefixPasses o.filePrefix name = true ∧
        e = fileShown t (pathOf (p ++ [name])) ⟨content, m⟩ o.withMetadata := by
  simp only [Mirrors.items, List.mem_filterMap, Tree.mem_children]
  constructor
  · rintro ⟨name, ⟨n, hn⟩, hitem⟩
    cases n with
    | link target => exact absurd hn (h.rooted.free _ target)
    | folder =>
      rw [h.levelItem_folder hn] at hitem
      by_cases htemporary : p ++ [name] = [temporaryFolder]
      · simp [htemporary, Except.toOption] at hitem
      · rw [if_neg htemporary] at hitem
        exact Or.inl ⟨name, hn, htemporary, (Option.some.inj hitem).symm⟩
    | file content =>
      obtain ⟨m, hlevel⟩ := h.levelItem_file (o := o) hn
      rw [hlevel] at hitem
      split at hitem
      · next hshown =>
        obtain rfl := Option.some.inj hitem
        rw [if_pos hshown] at hlevel
        exact Or.inr ⟨name, content, m, hn, hlevel,
          by simp [isSidecar_concat, hshown.1], hshown.2, rfl⟩
      · simp [Except.toOption] at hitem
  · rintro (⟨name, hn, htemporary, rfl⟩ | ⟨name, content, m, hn, hlevel, -, -, -⟩)
    · refine ⟨name, ⟨_, hn⟩, ?_⟩
      rw [h.levelItem_folder hn, if_neg htemporary]
      rfl
    · refine ⟨name, ⟨_, hn⟩, ?_⟩
      rw [hlevel]
      rfl

theorem file_mem_items (h : t.Orderly) (hfile : t.nodes.get? (p ++ [name]) = some (.file content))
    (hplain : ¬ IsSidecar (p ++ [name])) (hnames : o.filePrefix = none) :
    ∃ m, fileShown t (pathOf (p ++ [name])) ⟨content, m⟩ o.withMetadata ∈ Mirrors.items t p o := by
  have hpasses : Listing.Options.prefixPasses o.filePrefix name = true := by
    rw [hnames]
    rfl
  obtain ⟨m, hlevel⟩ := h.levelItem_file (o := o) hfile
  rw [isSidecar_concat, Bool.not_eq_true] at hplain
  rw [if_pos ⟨hplain, hpasses⟩] at hlevel
  refine ⟨m, h.mem_items.mpr (Or.inr ⟨name, content, m, hfile, hlevel, ?_, hpasses, rfl⟩)⟩
  rw [isSidecar_concat, hplain]
  simp

/-- There is nothing to show but the folder of temporary files, which is not shown. -/
theorem items_of_bare (h : t.Orderly) (hbare : t.Bare) : Mirrors.items t p o = [] := by
  refine List.eq_nil_iff_forall_not_mem.mpr fun e he => ?_
  rcases h.mem_items.mp he with ⟨name, hn, hshown, -⟩ | ⟨name, content, m, hn, -⟩
  all_goals
    rw [hbare] at hn
    split at hn
  · next hroot => simp [hshown] at hroot
  · simp at hn
  · simp at hn
  · simp at hn

/-- Entries of a level lie right in its folder. -/
theorem segments_of_item (h : t.Orderly) (hn : t.nodes.get? (p ++ [name]) = some n)
    (hitem : (levelItem t p o name).toOption.join = some e) :
    Path.segments e.path = p ++ [name] := by
  have hclean := h.rooted.clean hn
  cases n with
  | link target => exact absurd hn (h.rooted.free _ target)
  | folder =>
    rw [h.levelItem_folder hn] at hitem
    by_cases htemporary : p ++ [name] = [temporaryFolder]
    · simp [htemporary, Except.toOption] at hitem
    · rw [if_neg htemporary] at hitem
      obtain rfl := Option.some.inj hitem
      rw [path_folderShown, Path.segments_normalize, segments_pathOf hclean]
  | file content =>
    obtain ⟨m, hlevel⟩ := h.levelItem_file (o := o) hn
    rw [hlevel] at hitem
    split at hitem
    · obtain rfl := Option.some.inj hitem
      rw [path_fileShown, Path.segments_normalize, segments_pathOf hclean]
    · simp [Except.toOption] at hitem

theorem segments_of_mem_items (h : t.Orderly) (he : e ∈ Mirrors.items t p o) :
    ∃ name, Path.segments e.path = p ++ [name] := by
  simp only [Mirrors.items, List.mem_filterMap, Tree.mem_children] at he
  obtain ⟨name, ⟨n, hn⟩, hitem⟩ := he
  exact ⟨name, h.segments_of_item hn hitem⟩

theorem items_nodup (h : t.Orderly) (p : Place) (o : Listing.Options) :
    ((Mirrors.items t p o).map Entry.path).Nodup := by
  have hname : ∀ name ∈ t.children p, ∀ e, (levelItem t p o name).toOption.join = some e →
      Path.name e.path = name := by
    intro name hname e hitem
    obtain ⟨n, hn⟩ := Tree.mem_children.mp hname
    rw [Path.name, h.segments_of_item hn hitem, List.getLastD_concat]
  apply List.Nodup.of_map Path.name
  rw [List.map_map]
  refine List.Nodup.sublist (filterMap_sublist hname) ?_
  exact (List.mergeSort_perm _ _).nodup_iff.mpr (Tree.names_nodup t _)

end Tree.Orderly

end Depot.Storage.Disk
