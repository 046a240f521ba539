import Depot.Proofs.Memory.BulkDeletion
import Depot.Proofs.Memory.Level
import Mathlib.Data.String.Basic

/-!
One level of the in-memory store. Whatever was done to a store, its keys are paths in normal
form, so what it shows of a folder are the folders and the files right in it, each once of its
kind. A path stands in the answer twice just when a file has others under it, which only a
snapshot that is loaded over files can bring about.
-/
namespace Depot.Storage.Memory

namespace Table

variable {t t' : Table} {limit : Int} {path k q : String} {f : Stored} {o : Listing.Options}
  {e : Entry}

/-- What is left of a tidy table when files may lie under each other. -/
structure Legible (t : Table) : Prop where
  normal : ∀ k f, t.files.get? k = some f → Path.normalize k = k ∧ k ≠ Path.root
  texted : t.Texted

namespace Legible

theorem empty {times : Times String} : (Table.empty times).Legible := ⟨Tidy.empty.normal, .empty⟩

theorem of_sub (h : t.Legible)
    (hsub : ∀ k f, t'.files.get? k = some f → t.files.get? k = some f) : t'.Legible where
  normal k f hf := h.normal k f (hsub k f hf)
  texted k f hf := h.texted k f (hsub k f hf)

theorem insert (h : t.Legible) (hpath : Path.normalize path = path) (hroot : path ≠ Path.root)
    (m : Texts) (hf : f.metadata = .ofTexts m) (hfiles : t'.files = t.files.insert path f) :
    t'.Legible where
  normal k g hg := by
    rw [hfiles, OrderedMap.get?_insert] at hg
    split at hg
    · next hk => exact hk ▸ ⟨hpath, hroot⟩
    · exact h.normal k g hg
  texted := texts_insert h.texted m hf hfiles

theorem write (h : t.Legible) (hpath : Path.normalize path = path) (hroot : path ≠ Path.root)
    (limit : Int) (data : Bytes) (append : Bool) :
    ((Table.write limit path data append).runFrom t).2.Legible := by
  rcases write_cases h.texted limit path data append with hsame | ⟨-, m, hput⟩
  · exact hsame.symm ▸ h
  · rw [hput]
    exact h.insert hpath hroot m rfl rfl

theorem setMetadata (h : t.Legible) (m : Texts)
    (hset : t.setMetadata path (.ofTexts m) = .ok t') : t'.Legible := by
  obtain ⟨f, hf, rfl⟩ := setMetadata_eq_ok hset
  obtain ⟨hpath, hroot⟩ := h.normal path f hf
  exact h.insert hpath hroot m rfl rfl

/-- A snapshot brings its keys along, wherever it is loaded. -/
theorem load {file : SnapshotFile} (h : t.Legible) (hfile : Saved Legible file) :
    (t.load file).Legible := by
  rcases hfile with rfl | ⟨t', ht', rfl⟩
  · exact h
  · rw [load_toRows ht'.texted]
    refine ⟨fun k f hf => ?_, fun k f hf => ?_⟩
    · exact (OrderedMap.get?_update_cases hf).elim (h.normal k f) (ht'.normal k f)
    · exact (OrderedMap.get?_update_cases hf).elim (h.texted k f) (ht'.texted k f)

end Legible

theorem durable_legible (limit : Int) : Durable limit Legible where
  empty _ := .empty
  texts _ h := h.texted
  restored _ _ h := h.of_sub fun _ _ hf => hf
  write _ _ data append h hpath hroot := h.write hpath hroot limit data append
  delete _ _ h := h.of_sub fun _ _ hf => get?_of_delete hf
  setMetadata _ _ _ m h hset := h.setMetadata m hset

/-- Whatever happens to a store. -/
theorem legible_lived (c : Config) (times : Times String) (life : List Event) :
    (lived c times life).table.Legible :=
  (Kept.lived_always (durable_legible c.limit) life fun _ _ _ _ h hfile => h.load hfile).table

theorem sortedKeys_sorted (t : Table) : t.sortedKeys.Pairwise (· < ·) := by
  have hle : t.sortedKeys.Pairwise fun a b => decide (a ≤ b) = true :=
    List.pairwise_mergeSort
      (fun a b c hab hbc => by simpa using le_trans (of_decide_eq_true hab) (of_decide_eq_true hbc))
      (fun a b => by simpa using le_total a b) _
  have hnodup : t.sortedKeys.Nodup := (List.mergeSort_perm _ _).nodup_iff.mpr t.files.nodup
  exact (hle.and hnodup).imp fun ⟨h, hne⟩ => lt_of_le_of_ne (of_decide_eq_true h) hne

theorem inside_sorted (t : Table) (path : String) : (t.inside path).Pairwise (· < ·) :=
  (sortedKeys_sorted t).filter _

def HasFolder (t : Table) (path q : String) : Prop :=
  Path.normalize q = q ∧ (Path.segments q).length = (Path.segments path).length + 1 ∧
    ∃ k f, t.files.get? k = some f ∧ Path.isUnder k path = true ∧ Path.isUnder k q = true

def HasFile (t : Table) (path : String) (filePrefix : Option String) (k : String) (f : Stored) :
    Prop :=
  t.files.get? k = some f ∧ Path.parent? k = some path ∧
    Listing.Options.prefixPasses filePrefix (Path.name k) = true

theorem mem_folders_iff : q ∈ foldersIn false t path ↔ t.HasFolder path q := by
  rw [mem_foldersIn, InScope, HasFolder]
  refine and_congr_right fun hq => ?_
  constructor
  · rintro ⟨⟨k, f, hf, hkq⟩, hqpath, hscope⟩
    have hlength := hscope.resolve_left Bool.false_ne_true
    exact ⟨hlength, k, f, hf, Path.isUnder_trans hkq hqpath, hkq⟩
  · rintro ⟨hlength, k, f, hf, hkpath, hkq⟩
    refine ⟨⟨k, f, hf, hkq⟩, ?_, Or.inr hlength⟩
    exact Path.isUnder_of_longer hq hkq hkpath (by omega)

/-- Under a path in normal form one level deep is what the path holds. -/
theorem inScope_iff (hpath : Path.normalize path = path) :
    InScope false path k ↔ Path.parent? k = some path := by
  simp [InScope, Path.parent?_eq_some_iff hpath]

theorem isMatch_shown (hk : Path.normalize k = k) :
    o.isMatch (t.shown k f o.withMetadata) =
      Listing.Options.prefixPasses o.filePrefix (Path.name k) := by
  have hname : (t.shown k f o.withMetadata).name = Path.name k := congrArg Path.name hk
  rw [Listing.Options.isMatch, hname]
  rfl

namespace Legible

variable (h : t.Legible)
include h

theorem mem_files_iff (hpath : Path.normalize path = path) :
    e ∈ ((filesIn false t path).map fun e => t.shown e.1 e.2 o.withMetadata).filter o.isMatch ↔
      ∃ k f, t.HasFile path o.filePrefix k f ∧ e = t.shown k f o.withMetadata := by
  simp only [List.mem_filter, List.mem_map, Prod.exists, mem_filesIn, inScope_iff hpath, HasFile]
  constructor
  · rintro ⟨⟨k, f, ⟨hf, hparent⟩, rfl⟩, hmatch⟩
    rw [isMatch_shown (h.normal k f hf).1] at hmatch
    exact ⟨k, f, ⟨hf, hparent, hmatch⟩, rfl⟩
  · rintro ⟨k, f, ⟨hf, hparent, hmatch⟩, rfl⟩
    refine ⟨⟨k, f, ⟨hf, hparent⟩, rfl⟩, ?_⟩
    rwa [isMatch_shown (h.normal k f hf).1]

/-- Files have no path twice, nor folders; a file and a folder may have the same one. -/
theorem view_nodup_iff (hpath : Path.normalize path = path) :
    ((t.view false path o).map Entry.path).Nodup ↔
      ∀ k f, t.HasFile path o.filePrefix k f → ¬ t.Holds k := by
  have hsub := paths_filesIn false path o fun k f hf =>
    (h.normal k f hf).1
  rw [view, List.map_append, paths_foldersIn, List.nodup_append]
  constructor
  · rintro ⟨-, -, hapart⟩ k f hfile ⟨k', f', hf', hunder⟩
    have hk := (h.normal k f hfile.1).1
    obtain ⟨hkpath, hlength⟩ := (Path.parent?_eq_some_iff hpath).mp hfile.2.1
    have hfolder : t.HasFolder path k :=
      ⟨hk, hlength, k', f', hf', Path.isUnder_trans hunder hkpath, hunder⟩
    have hmem := (h.mem_files_iff hpath).mpr ⟨k, f, hfile, rfl⟩
    exact hapart k (mem_folders_iff.mpr hfolder) k (List.mem_map.mpr ⟨_, hmem, hk⟩) rfl
  · refine fun hfree => ⟨nodup_eraseDups _, filesIn_nodup.sublist hsub, ?_⟩
    rintro q hq p hp rfl
    obtain ⟨e, he, heq⟩ := List.mem_map.mp hp
    obtain ⟨k, f, hfile, rfl⟩ := (h.mem_files_iff hpath).mp he
    obtain ⟨-, -, k', f', hf', -, hunder⟩ := mem_folders_iff.mp hq
    have hk : q = k := heq.symm.trans (h.normal k f hfile.1).1
    exact hfree k f hfile ⟨k', f', hf', hk ▸ hunder⟩

end Legible

end Table

/-- Some folders and some files are what a table holds right in a folder: the folders once
each, the files in the order of their paths. -/
structure Children (t : Table) (path : String) (o : Listing.Options) (folders files : List Entry) :
    Prop where
  folders_nodup : (folders.map Entry.path).Nodup
  mem_folders : ∀ e, e ∈ folders ↔ ∃ q, t.HasFolder path q ∧ e = .plain .folder q none
  files_sorted : (files.map Entry.path).Pairwise (· < ·)
  mem_files : ∀ e, e ∈ files ↔
    ∃ k f, t.HasFile path o.filePrefix k f ∧ e = t.shown k f o.withMetadata
  folderPath_eq : ∀ e ∈ folders ++ files, e.folderPath = path

variable {c : Config} {s : State} {t : Table} {path : String} {o : Listing.Options}

/-- What one level shows falls into folders and files. -/
theorem Table.Legible.children_view (h : t.Legible) (hpath : Path.normalize path = path) :
    ∃ folders files, t.view false path o = folders ++ files ∧ Children t path o folders files := by
  refine ⟨_, _, rfl, ?_⟩
  have hfolders : ∀ e, e ∈ (Table.foldersIn false t path).map
      (fun p => Entry.plain .folder p none) ↔
      ∃ q, t.HasFolder path q ∧ e = .plain .folder q none := by
    intro e
    simp only [List.mem_map, Table.mem_folders_iff, eq_comm (a := e)]
  refine ⟨?_, hfolders, ?_, fun _ => h.mem_files_iff hpath, fun e he => ?_⟩
  · rw [Table.paths_foldersIn]
    exact nodup_eraseDups _
  · have hsub := Table.paths_filesIn false path o fun k f hf =>
      (h.normal k f hf).1
    exact (Table.inside_sorted t path).sublist (hsub.trans Table.filesIn_sublist)
  · rcases List.mem_append.mp he with he | he
    · obtain ⟨q, ⟨hq, hlength, k, f, -, hkpath, hkq⟩, rfl⟩ := (hfolders e).mp he
      change Path.folderOf (Path.normalize q) = path
      rw [hq]
      exact Path.folderOf_eq hpath (Path.isUnder_of_longer hq hkq hkpath (by omega)) hlength
    · obtain ⟨k, f, hfile, rfl⟩ := (h.mem_files_iff hpath).mp he
      change Path.folderOf (Path.normalize k) = path
      rw [(h.normal k f hfile.1).1, Path.folderOf, hfile.2.1]
      rfl

/-- One level of any state of a store, of any path in normal form. The only error is that the
path is not there, and it comes just when the path is not the root and no file lies under it.
Otherwise the answer is the folders and then the files that are right in the path. No path
stands in it twice as long as no file that it shows has others under it, and this is so
whenever no snapshot was loaded into a store that was open already. -/
theorem level_children (c : Config) (times : Times String) (life : List Event)
    (hpath : Path.normalize path = path)
    (hlevel : (c.hierarchical && o.recurse) = false) :
    let s := lived c times life
    (∀ e, (backend c).level s path o = .error e ↔
      e = .notFound path none ∧ path ≠ Path.root ∧ ¬ s.table.Holds path) ∧
    (path = Path.root ∨ s.table.Holds path → ∃ folders files,
      (backend c).level s path o = .ok (folders ++ files) ∧
      Children s.table path o folders files ∧
      (((folders ++ files).map Entry.path).Nodup ↔
        ∀ k f, s.table.HasFile path o.filePrefix k f → ¬ s.table.Holds k) ∧
      (c.persistence = .none ∨ .init ∉ life → ((folders ++ files).map Entry.path).Nodup)) := by
  intro s
  have hlegible : s.table.Legible := Table.legible_lived c times life
  have hanswer : (backend c).level s path o =
      if s.table.folderExists path then .ok (s.table.view false path o)
      else .error (.notFound path none) := by
    rw [← hlevel]
    exact Table.level_of_texted hlegible.texted
  refine ⟨fun e => ?_, fun hthere => ?_⟩
  · have hexists := Table.folderExists_iff (t := s.table) hpath
    rw [hanswer]
    cases hfolder : s.table.folderExists path with
    | true =>
      rw [hfolder] at hexists
      refine iff_of_false (by simp) ?_
      rintro ⟨-, hroot, hnone⟩
      exact (hexists.mp rfl).elim hroot hnone
    | false =>
      rw [hfolder] at hexists
      have hnot : path ≠ Path.root ∧ ¬ s.table.Holds path := by
        rw [← not_or, ← hexists]
        exact Bool.false_ne_true
      rw [if_neg Bool.false_ne_true, Except.error.injEq]
      exact ⟨fun heq => ⟨heq.symm, hnot⟩, fun heq => heq.1.symm⟩
  · rw [if_pos ((Table.folderExists_iff hpath).mpr hthere)] at hanswer
    have honce := hlegible.view_nodup_iff (o := o) hpath
    obtain ⟨folders, files, hview, hchildren⟩ := hlegible.children_view (o := o) hpath
    rw [hview] at hanswer honce
    refine ⟨folders, files, hanswer, hchildren, honce, fun hnew => honce.mpr ?_⟩
    -- Without such a load the table is tidy, and then no file has others under it.
    have hsound : Table.Sound c.limit s.table :=
      (Kept.lived_new (durable_sound c.limit) life hnew).table
    exact fun k f hfile => hsound.tidy.apart k f hfile.1

def interleaved : List Event :=
  [.change (.write (some "a/x") [1] false), .change (.write (some "ab") [2] false),
    .change (.write (some "a-b/x/y") [3] false), .change (.write (some "a/b/c") [4] false)]

theorem level_children_interleaved :
    Path.normalize "" = "" ∧ ((false && Listing.Options.default.recurse) = false) ∧
      ∃ folders files,
        (backend {}).level (lived {} .still interleaved) "" .default = .ok (folders ++ files) ∧
        Entry.plain .folder "a-b" none ∈ folders ∧ Entry.plain .folder "a" none ∈ folders ∧
        (∃ e ∈ files, e.path = "ab") ∧ ((folders ++ files).map Entry.path).Nodup := by
  have hpath : Path.normalize "" = "" := by decide
  obtain ⟨-, hthere⟩ :=
    level_children (o := .default) {} .still interleaved hpath (by decide)
  obtain ⟨folders, files, hanswer, hchildren, -, hnodup⟩ := hthere (Or.inl rfl)
  refine ⟨hpath, rfl, folders, files, hanswer, ?_, ?_, ?_, hnodup (Or.inl rfl)⟩
  · refine (hchildren.mem_folders _).mpr ⟨"a-b", ⟨by decide, by decide, ?_⟩, rfl⟩
    exact ⟨"a-b/x/y", ⟨[3], .ofTexts .empty⟩, by rfl, by decide, by decide⟩
  · refine (hchildren.mem_folders _).mpr ⟨"a", ⟨by decide, by decide, ?_⟩, rfl⟩
    exact ⟨"a/x", ⟨[1], .ofTexts .empty⟩, by rfl, by decide, by decide⟩
  · refine ⟨_, (hchildren.mem_files _).mpr ⟨"ab", ⟨[2], .ofTexts .empty⟩, ?_, rfl⟩, by decide⟩
    exact ⟨by rfl, by decide, rfl⟩

/-- A snapshot that is loaded over the file of a store can make it a folder as well, and the
level of its folder then shows the path as both. -/
theorem level_twice :
    ((backend fiveBytesSaved).level loadedOver Path.root .default).map (·.map Entry.key) =
      .ok [(.folder, "a"), (.file, "a")] := by
  have hsorted : loadedOver.table.sortedKeys = ["a", "a/b"] := by
    have hkeys : loadedOver.table.files.keys = ["a/b", "a"] := by rfl
    rw [Table.sortedKeys, hkeys]
    simp [List.mergeSort]
  have hlevel : (backend fiveBytesSaved).level loadedOver Path.root .default =
      loadedOver.table.level false Path.root .default := rfl
  rw [hlevel, Table.level, hsorted]
  rfl

end Depot.Storage.Memory
