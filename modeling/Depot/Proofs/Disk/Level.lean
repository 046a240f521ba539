import Depot.Proofs.Disk.Change
import Depot.Proofs.Json.Written
import Depot.Proofs.Memory.Level
import Depot.Proofs.Storage.Operation

/-!
What a tree that mirrors a table shows of a folder. Sidecars and the folder of temporary
files stay hidden, so that a level has the same entries as one of the table.
-/
namespace Depot.Storage.Disk

open Memory (Table Stored)

variable {tree : Tree} {table : Table} {path k q name : String} {f : Stored} {n : Node}
  {o : Listing.Options} {e : Entry}

def accessed : Texts := OrderedMap.empty.insert "last_access_utc" someTime

def folderShown (t : Tree) (q : String) : Entry :=
  .make .folder q none true accessed .empty (modified t (Path.segments q))

def fileShown (t : Tree) (k : String) (f : Stored) (withMetadata : Bool) : Entry :=
  .make .file k (some f.content.length) true (accessed.insert "is_read_only" "False")
    (if withMetadata then f.metadata else .empty) (modified t (Path.segments k))

theorem timeless_folderShown (t t' : Tree) (q : String) :
    (folderShown t' q).timeless = (folderShown t q).timeless := by
  simp only [folderShown, Entry.timeless_make]

theorem timeless_fileShown (t t' : Tree) (k : String) (f : Stored) (withMetadata : Bool) :
    (fileShown t' k f withMetadata).timeless = (fileShown t k f withMetadata).timeless := by
  simp only [fileShown, Entry.timeless_make]

theorem traits_folderShown (tree : Tree) (q : String) :
    (folderShown tree q).traits = (Entry.plain .folder q none).traits := rfl

theorem traits_fileShown (tree : Tree) (table : Table) (k : String) (f : Stored)
    (withMetadata : Bool) :
    (fileShown tree k f withMetadata).traits = (table.shown k f withMetadata).traits := rfl

theorem inScope_of_concat (hq : Path.segments q = Path.segments path ++ [name]) :
    Table.InScope false path q := by
  have hlength := congrArg List.length hq
  rw [List.length_append, List.length_singleton] at hlength
  refine ⟨Path.isUnder_iff.mpr ⟨by omega, ?_⟩, Or.inr hlength⟩
  rw [hq]
  exact List.prefix_append _ _

theorem concat_of_inScope (hscope : Table.InScope false path q) :
    Path.segments q = Path.segments path ++ [Path.name q] := by
  obtain ⟨hunder, hscope⟩ := hscope
  have hlength := hscope.resolve_left (by simp)
  obtain ⟨rest, hrest⟩ := (Path.isUnder_iff.mp hunder).2
  rw [← hrest, List.length_append] at hlength
  obtain ⟨last, rfl⟩ := List.length_eq_one_iff.mp (by omega : rest.length = 1)
  rw [Path.name, ← hrest, List.getLastD_concat]

/-- What is made of names one by one, each named after its own, comes in their order. -/
theorem filterMap_sublist {names : List String} {item : String → Option Entry}
    (hitem : ∀ name ∈ names, ∀ e, item name = some e → Path.name e.path = name) :
    ((names.filterMap item).map fun e => Path.name e.path).Sublist names := by
  induction names with
  | nil => simp
  | cons name rest ih =>
    have hrest := ih fun other hother => hitem other (List.mem_cons_of_mem name hother)
    rw [List.filterMap_cons]
    cases he : item name with
    | none => exact hrest.trans (List.sublist_cons_self name rest)
    | some e =>
      rw [List.map_cons, hitem name List.mem_cons_self e he]
      exact hrest.cons_cons name

namespace Mirrors

/-- The metadata of a file are read back from its sidecar. -/
theorem readMetadata (h : Mirrors tree table []) (hf : table.files.get? k = some f) :
    readMetadata tree (Path.segments k) = .ok f.metadata := by
  have hsome := h.segments_ne_nil hf
  have hproper := (h.admissible k f hf).proper_sidecar hsome
  obtain ⟨m, hm⟩ := h.tidy.texts k f hf
  unfold Disk.readMetadata
  rcases h.sidecars k f hf with hthere | ⟨habsent, hempty⟩
  · have hread : Json.read Json.usualDepth f.metadata.render = .ok f.metadata := by
      rw [hm]
      exact Json.read_ofTexts m
    have hdecode : Text.Codec.utf8.decode? (Bytes.utf8 f.metadata.render) =
        some f.metadata.render :=
      Text.Codec.decodeUtf8?_utf8 _
    rw [h.rooted.stat_of_node hthere]
    simp only [hdecode, Option.map_some, hread]
  · rw [hempty]
    rcases h.rooted.stat_of_none hproper habsent with hstat | ⟨-, hstat⟩
    · rw [hstat]
    · rw [hstat]

theorem entryOf_file (h : Mirrors tree table []) (hf : table.files.get? k = some f)
    (withMetadata : Bool) :
    entryOf tree (Path.segments k) withMetadata = .ok (fileShown tree k f withMetadata) := by
  have hstat := h.rooted.stat_of_node (h.files k f hf)
  have hpath := pathOf_segments (h.tidy.normal k f hf).1
  unfold entryOf
  simp only [hstat, hpath]
  cases withMetadata with
  | false => rfl
  | true =>
    simp only [if_true, h.readMetadata hf]
    rfl

theorem entryOf_folder (h : Mirrors tree table []) (hq : Path.normalize q = q)
    (hholds : table.Holds q) : entryOf tree (Path.segments q) false = .ok (folderShown tree q) := by
  have hstat := h.rooted.stat_of_node (h.folder_of_holds hholds)
  have hpath := pathOf_segments hq
  unfold entryOf
  simp only [hstat, hpath]
  rfl

theorem levelItem_folder (h : Mirrors tree table []) (hq : Path.normalize q = q)
    (hholds : table.Holds q) (hplace : Path.segments q = Path.segments path ++ [name]) :
    levelItem tree (Path.segments path) o name = .ok (some (folderShown tree q)) := by
  have hstat := h.rooted.stat_of_node (h.folder_of_holds hholds)
  have hother : ¬ (Path.segments path = [] ∧ name = temporaryFolder) := by
    rintro ⟨hpath, rfl⟩
    apply (h.admissible_of_holds hholds).first
    rw [hplace, hpath]
    rfl
  unfold levelItem
  rw [← hplace]
  simp only [hstat, hother, if_false, h.entryOf_folder hq hholds]
  rfl

theorem levelItem_file (h : Mirrors tree table []) (hf : table.files.get? k = some f)
    (hplace : Path.segments k = Path.segments path ++ [name]) :
    levelItem tree (Path.segments path) o name =
      .ok (if Listing.Options.prefixPasses o.filePrefix name then
        some (fileShown tree k f o.withMetadata) else none) := by
  have hstat := h.rooted.stat_of_node (h.files k f hf)
  have hplain : isSidecarName name = false :=
    (h.admissible k f hf).plain name (by rw [hplace]; simp)
  unfold levelItem
  rw [← hplace]
  simp only [hstat, hplain, Bool.false_eq_true, if_false, h.entryOf_file hf]
  split
  · rfl
  · rfl

/-- The folder of temporary files is not shown. -/
theorem levelItem_temporary (h : Mirrors tree table [])
    (hplace : Path.segments path ++ [name] = [temporaryFolder]) :
    levelItem tree (Path.segments path) o name = .ok none := by
  have hstat := h.rooted.stat_of_node h.swept.there
  have hnames : Path.segments path = [] ∧ name = temporaryFolder := by
    cases hpath : Path.segments path with
    | nil => simpa [hpath] using hplace
    | cons first rest => simp [hpath] at hplace
  unfold levelItem
  rw [hplace]
  simp only [hstat, hnames, and_self, if_true]

/-- A sidecar is not shown. -/
theorem levelItem_sidecar (h : Mirrors tree table []) (hf : table.files.get? k = some f)
    (hplace : Path.segments path ++ [name] = sidecar (Path.segments k))
    (hn : tree.nodes.get? (Path.segments path ++ [name]) = some n) :
    levelItem tree (Path.segments path) o name = .ok none := by
  have hstat := h.rooted.stat_of_node hn
  have hextended : isSidecarName name = true := by
    have hlast := congrArg List.getLast? hplace
    rw [List.getLast?_concat, sidecar, List.getLast?_concat] at hlast
    rw [Option.some.inj hlast]
    exact isSidecarName_extended _
  obtain ⟨content, rfl⟩ : ∃ content, n = .file content := by
    rcases h.sidecars k f hf with hthere | ⟨habsent, -⟩
    · rw [← hplace, hn] at hthere
      exact ⟨_, Option.some.inj hthere⟩
    · rw [← hplace, hn] at habsent
      simp at habsent
  unfold levelItem
  simp only [hstat, hextended, if_true]

/-- What one name of a folder adds to its level. -/
theorem levelItem_spec (h : Mirrors tree table [])
    (hn : tree.nodes.get? (Path.segments path ++ [name]) = some n) :
    (∃ q, Path.normalize q = q ∧ table.Holds q ∧ Path.segments q = Path.segments path ++ [name] ∧
      levelItem tree (Path.segments path) o name = .ok (some (folderShown tree q))) ∨
    (∃ k f, table.files.get? k = some f ∧ Path.segments k = Path.segments path ++ [name] ∧
      levelItem tree (Path.segments path) o name =
        .ok (if Listing.Options.prefixPasses o.filePrefix name then
          some (fileShown tree k f o.withMetadata) else none)) ∨
    levelItem tree (Path.segments path) o name = .ok none := by
  rcases h.only _ n hn with hbare | htemporary | ⟨k, f, hf, hplace | hsidecar⟩
      | ⟨q, hq, hholds, hplace⟩
  · simp at hbare
  · exact Or.inr (Or.inr (h.levelItem_temporary htemporary))
  · exact Or.inr (Or.inl ⟨k, f, hf, hplace.symm, h.levelItem_file hf hplace.symm⟩)
  · exact Or.inr (Or.inr (h.levelItem_sidecar hf hsidecar hn))
  · exact Or.inl ⟨q, hq, hholds, hplace.symm, h.levelItem_folder hq hholds hplace.symm⟩

def items (tree : Tree) (p : Place) (o : Listing.Options) : List Entry :=
  (tree.children p).filterMap fun name => (levelItem tree p o name).toOption.join

theorem level_eq (h : Mirrors tree table []) (hpath : Path.normalize path = path)
    (hadmissible : Admissible path) :
    level tree path o =
      if table.folderExists path then
        .ok ((items tree (Path.segments path) o).filter Entry.isFolder ++
          (items tree (Path.segments path) o).filter Entry.isFile)
      else .error (.notFound path none) := by
  unfold level
  simp only [hadmissible.place?, ok_bind, h.isFolder_eq hpath hadmissible, Except.mapError]
  cases hfolder : table.folderExists path with
  | false => rfl
  | true =>
    have hnode := (h.folder_iff hpath hadmissible).mpr
      ((Memory.Table.folderExists_iff hpath).mp hfolder)
    have hitems : (tree.children (Path.segments path)).mapM
        (levelItem tree (Path.segments path) o) =
        .ok ((tree.children (Path.segments path)).map fun name =>
          (levelItem tree (Path.segments path) o name).toOption.join) := by
      apply mapM_eq_ok
      intro name hname
      obtain ⟨n, hn⟩ := Tree.mem_children.mp hname
      rcases h.levelItem_spec (o := o) hn with ⟨q, -, -, -, hitem⟩ | ⟨k, f, -, -, hitem⟩ | hitem
      · rw [hitem]
        rfl
      · rw [hitem]
        rfl
      · rw [hitem]
        rfl
    simp only [if_true, h.rooted.namesIn_eq hnode, hitems, ok_bind, List.filterMap_map]
    rfl

theorem mem_items (h : Mirrors tree table []) :
    e ∈ items tree (Path.segments path) o ↔
      (∃ q, Path.normalize q = q ∧ table.Holds q ∧ Table.InScope false path q ∧
        e = folderShown tree q) ∨
      ∃ k f, table.files.get? k = some f ∧ Table.InScope false path k ∧
        Listing.Options.prefixPasses o.filePrefix (Path.name k) = true ∧
        e = fileShown tree k f o.withMetadata := by
  simp only [items, List.mem_filterMap, Tree.mem_children]
  constructor
  · rintro ⟨name, ⟨n, hn⟩, hitem⟩
    rcases h.levelItem_spec (o := o) hn with ⟨q, hq, hholds, hplace, hlevel⟩ |
      ⟨k, f, hf, hplace, hlevel⟩ | hlevel
    · rw [hlevel] at hitem
      exact Or.inl ⟨q, hq, hholds, inScope_of_concat hplace, (Option.some.inj hitem).symm⟩
    · rw [hlevel] at hitem
      have hname : Path.name k = name := by rw [Path.name, hplace, List.getLastD_concat]
      split at hitem
      · next hpasses =>
        exact Or.inr ⟨k, f, hf, inScope_of_concat hplace, hname ▸ hpasses,
          (Option.some.inj hitem).symm⟩
      · simp [Except.toOption] at hitem
    · rw [hlevel] at hitem
      simp [Except.toOption] at hitem
  · rintro (⟨q, hq, hholds, hscope, rfl⟩ | ⟨k, f, hf, hscope, hpasses, rfl⟩)
    · have hplace := concat_of_inScope hscope
      have hn := h.folder_of_holds hholds
      rw [hplace] at hn
      refine ⟨Path.name q, ⟨_, hn⟩, ?_⟩
      rw [h.levelItem_folder hq hholds hplace]
      rfl
    · have hplace := concat_of_inScope hscope
      have hn := h.files k f hf
      rw [hplace] at hn
      refine ⟨Path.name k, ⟨_, hn⟩, ?_⟩
      rw [h.levelItem_file hf hplace, if_pos hpasses]
      rfl

theorem items_nodup (h : Mirrors tree table []) :
    ((items tree (Path.segments path) o).map Entry.path).Nodup := by
  have hnames : ∀ name ∈ tree.children (Path.segments path), ∀ e,
      (levelItem tree (Path.segments path) o name).toOption.join = some e →
      Path.name e.path = name := by
    intro name hname e hitem
    obtain ⟨n, hn⟩ := Tree.mem_children.mp hname
    rcases h.levelItem_spec (o := o) hn with ⟨q, hq, -, hplace, hlevel⟩ |
      ⟨k, f, hf, hplace, hlevel⟩ | hlevel
    · rw [hlevel] at hitem
      rw [← Option.some.inj hitem]
      change Path.name (Path.normalize q) = name
      rw [hq, Path.name, hplace, List.getLastD_concat]
    · rw [hlevel] at hitem
      split at hitem
      · rw [← Option.some.inj hitem]
        change Path.name (Path.normalize k) = name
        rw [(h.tidy.normal k f hf).1, Path.name, hplace, List.getLastD_concat]
      · simp [Except.toOption] at hitem
    · rw [hlevel] at hitem
      simp [Except.toOption] at hitem
  have hsub := filterMap_sublist hnames
  apply List.Nodup.of_map Path.name
  rw [List.map_map]
  refine List.Nodup.sublist hsub ?_
  exact (List.mergeSort_perm _ _).nodup_iff.mpr (Tree.names_nodup tree _)

/-- A level has the entries that the table has, however they are sorted. -/
theorem items_perm (h : Mirrors tree table []) :
    ((items tree (Path.segments path) o).map Entry.traits).Perm
      ((table.view false path o).map Entry.traits) := by
  have htraits : ∀ es : List Entry, (es.map Entry.path).Nodup → (es.map Entry.traits).Nodup := by
    intro es hes
    apply List.Nodup.of_map fun x : Entry.Kind × String × Option Int × Metadata => x.2.1
    rw [List.map_map]
    exact hes
  have hmatch : ∀ k f, table.files.get? k = some f →
      (o.isMatch (table.shown k f o.withMetadata) = true ↔
        Listing.Options.prefixPasses o.filePrefix (Path.name k) = true) := by
    intro k f hf
    have hname : (table.shown k f o.withMetadata).name = Path.name k := by
      rw [Entry.name, Table.path_shown h.tidy hf]
    have hfile : (table.shown k f o.withMetadata).isFile = true := rfl
    simp only [Listing.Options.isMatch, hfile, hname]
    simp
  rw [List.perm_ext_iff_of_nodup (htraits _ h.items_nodup) (htraits _ (Table.view_nodup h.tidy))]
  intro x
  simp only [List.mem_map, h.mem_items, Table.mem_view]
  constructor
  · rintro ⟨e, ⟨q, hq, hholds, hscope, rfl⟩ | ⟨k, f, hf, hscope, hpasses, rfl⟩, rfl⟩
    · exact ⟨_, Or.inl ⟨q, hq, hholds, hscope, rfl⟩, (traits_folderShown tree q).symm⟩
    · exact ⟨_, Or.inr ⟨k, f, hf, hscope, rfl, (hmatch k f hf).mpr hpasses⟩,
        (traits_fileShown tree table k f _).symm⟩
  · rintro ⟨e, ⟨q, hq, hholds, hscope, rfl⟩ | ⟨k, f, hf, hscope, rfl, hpasses⟩, rfl⟩
    · exact ⟨_, Or.inl ⟨q, hq, hholds, hscope, rfl⟩, traits_folderShown tree q⟩
    · exact ⟨_, Or.inr ⟨k, f, hf, hscope, (hmatch k f hf).mp hpasses, rfl⟩,
        traits_fileShown tree table k f _⟩

end Mirrors

end Depot.Storage.Disk
