import Depot.Proofs.Disk.Level

/-!
The operations of a store on a tree that mirrors a table. Each answers what the table
answers, and the tree mirrors the table again afterwards. A write or a delete that has to
be refused is refused before anything has changed.
-/
namespace Depot.Storage.Disk

open Memory (Table Stored)

variable {tree : Tree} {table table' : Table} {path k : String} {f : Stored} {limit : Int}
  {answer : Except Fault Unit}

namespace Mirrors

theorem read_eq (h : Mirrors tree table []) (hpath : Path.normalize path = path)
    (hadmissible : Admissible path) : read tree path = table.read path := by
  unfold read Table.read
  rw [hadmissible.place?, ok_bind, h.isFile_eq hpath hadmissible]
  cases hf : table.files.get? path with
  | none =>
    simp only [OrderedMap.contains, hf]
    rfl
  | some f =>
    have hstat := h.rooted.stat_of_node (h.files path f hf)
    simp only [OrderedMap.contains, hf, hstat]
    rfl

theorem entry?_eq (h : Mirrors tree table []) (hpath : Path.normalize path = path)
    (hadmissible : Admissible path) :
    entry? tree path = .ok ((table.files.get? path).map fun f => fileShown tree path f true) := by
  unfold entry?
  rw [hadmissible.place?, ok_bind, h.isFile_eq hpath hadmissible]
  cases hf : table.files.get? path with
  | none =>
    simp only [OrderedMap.contains, hf]
    rfl
  | some f =>
    simp only [OrderedMap.contains, hf, h.entryOf_file hf]
    rfl

/-- No file stands on the way to a path that may be written, nor does a folder at it. -/
theorem way_free (h : Mirrors tree table []) (hadmissible : Admissible path)
    (habove : ∀ k f, table.files.get? k = some f → Path.isUnder path k = false) :
    ¬ tree.Blocked (Path.segments path) := by
  rw [h.blocked_iff hadmissible]
  rintro ⟨k, f, hf, hunder⟩
  rw [habove k f hf] at hunder
  simp at hunder

/-- The folder of a path that may be written is made, with the folders above it. -/
theorem folder_made (h : Mirrors tree table []) (hpath : Path.normalize path = path)
    (hroot : path ≠ Path.root) (hadmissible : Admissible path)
    (habove : ∀ k f, table.files.get? k = some f → Path.isUnder path k = false) :
    ∃ tree', (makeFolders (Path.segments path).dropLast).runFrom tree = (.ok (), tree') ∧
      tree'.Seated (Path.segments path) ∧
      Mirrors tree' table (Path.segments path).dropLast := by
  have hsome := Path.segments_ne_nil hpath hroot
  have hfolder : Admissible (Path.folderOf path) := hadmissible.of_initial <| by
    rw [Path.segments_folderOf]
    exact List.dropLast_prefix _
  have hclear : tree.Clear (Path.segments (Path.folderOf path)) := by
    intro p content hp hfile
    rw [Path.segments_folderOf] at hp
    obtain ⟨rest, hrest⟩ := hp.trans (List.dropLast_prefix _)
    refine h.way_free hadmissible habove ⟨p, rest, content, ?_, hrest.symm, hfile⟩
    intro hnil
    have hlength := hp.length_le
    have hpos := List.length_pos_iff.mpr hsome
    rw [← hrest, hnil, List.append_nil, List.length_dropLast] at hlength
    rw [← hrest, hnil, List.append_nil] at hpos
    omega
  obtain ⟨tree', hrun, hpaved⟩ := makeFolders_spec h.rooted hfolder.proper hclear
  have hmirrors := h.paved hfolder hclear hpaved
  have hthere := hpaved.folder
  rw [Path.segments_folderOf] at hrun hmirrors hthere
  exact ⟨tree', hrun, fun _ => hthere, hmirrors⟩

/-- No folder stands at a path that may be written. -/
theorem not_folder (h : Mirrors tree table (Path.segments path).dropLast)
    (hpath : Path.normalize path = path) (hroot : path ≠ Path.root)
    (hadmissible : Admissible path) (hbelow : ¬ table.Holds path) :
    tree.nodes.get? (Path.segments path) ≠ some .folder := by
  intro hfolder
  rcases h.node_cases hpath hadmissible hfolder with ⟨f, -, hfile⟩ | ⟨-, hholds | hbare⟩
  · simp at hfile
  · exact hbelow hholds
  · exact not_prefix_dropLast (Path.segments_ne_nil hpath hroot) hbare

/-- What an append finds at the place of a path is what the table has there. -/
theorem contentAt_append (h : Mirrors tree table (Path.segments path).dropLast)
    (hpath : Path.normalize path = path) (hroot : path ≠ Path.root)
    (hadmissible : Admissible path) (hbelow : ¬ table.Holds path) (data : Bytes) :
    tree.contentAt (Path.segments path) ++ data = table.written path data true := by
  unfold Tree.contentAt Table.written
  cases hf : table.files.get? path with
  | some f =>
    rw [h.files path f hf]
    rfl
  | none =>
    cases hn : tree.nodes.get? (Path.segments path) with
    | none => rfl
    | some n =>
      rcases h.node_cases hpath hadmissible hn with ⟨f, hsome, -⟩ | ⟨rfl, -⟩
      · rw [hf] at hsome
        simp at hsome
      · exact absurd hn (h.not_folder hpath hroot hadmissible hbelow)

/-- What is written stands at the place of the path, and nothing else has changed. -/
theorem filled (h : Mirrors tree table (Path.segments path).dropLast)
    (hpath : Path.normalize path = path) (hroot : path ≠ Path.root)
    (hadmissible : Admissible path) (hbelow : ¬ table.Holds path)
    (hseat : tree.Seated (Path.segments path)) (data : Bytes) (append : Bool)
    (hsmall : append = false → data.length ≤ writeLimit) :
    ∃ tree', (if append then Os.perform (.extend (Path.segments path) data)
        else overwrite (Path.segments path) data).runFrom tree = (.ok (), tree') ∧
      tree'.Rooted ∧ ∀ p, tree'.nodes.get? p =
        if p = Path.segments path then some (.file (table.written path data append))
        else tree.nodes.get? p := by
  have hplain := h.not_folder hpath hroot hadmissible hbelow
  cases append with
  | true =>
    rw [← h.contentAt_append hpath hroot hadmissible hbelow]
    refine ⟨_, ?_, h.rooted.put hadmissible.proper hseat hplain (by simp), fun p =>
      Tree.get?_put ..⟩
    rw [if_pos rfl, Os.runFrom_perform, h.rooted.exec_extend hadmissible.proper hseat hplain]
  | false =>
    have hwritten : table.written path data false = data := by
      unfold Table.written
      cases table.files.get? path <;> rfl
    have hspec := overwrite_spec h.rooted h.swept hadmissible.proper hseat hplain
        hadmissible.first data
    rw [stored_of_le (hsmall rfl)] at hspec
    rw [hwritten]
    exact hspec

/-- A write that finds no folder at its path and no file above it. -/
theorem runFrom_write (h : Mirrors tree table []) (hpath : Path.normalize path = path)
    (hroot : path ≠ Path.root) (hadmissible : Admissible path)
    (habove : ∀ k f, table.files.get? k = some f → Path.isUnder path k = false)
    (hbelow : ¬ table.Holds path) (data : Bytes) (append : Bool) {tree₁ : Tree}
    (hmade : (makeFolders (Path.segments path).dropLast).runFrom tree = (.ok (), tree₁)) :
    (write path data append).runFrom tree =
      ((if append then Os.perform (.extend (Path.segments path) data)
        else overwrite (Path.segments path) data).act).runFrom tree₁ := by
  have hfolder := h.isFolder_eq hpath hadmissible
  have hnofolder : table.folderExists path = false := by
    rw [← Bool.not_eq_true, Table.folderExists_iff hpath, not_or]
    exact ⟨hroot, hbelow⟩
  have hnoroot : Path.isRoot path = false := by
    rw [← Bool.not_eq_true, Path.isRoot_iff hpath]
    exact hroot
  have hfile : fileAbove tree (Path.segments path) = .ok none := by
    rcases fileAbove_spec h.rooted (hadmissible.proper.sublist (List.dropLast_sublist _))
      (by simp [h.root]) with ⟨hfile, -⟩ | ⟨hblocked, -⟩
    · exact hfile
    · exact absurd hblocked (h.way_free hadmissible habove)
  unfold write
  simp only [hnoroot, Bool.false_eq_true, if_false, Action.runFrom_bind, Action.runFrom_ask,
    hadmissible.place?, Os.runFrom_act, Os.runFrom_ask, hfolder, hnofolder, hfile,
    Except.mapError, hmade]
  cases append <;> rfl

/-- A write that the layout of the table allows. -/
theorem write_ok (h : Mirrors tree table []) (hpath : Path.normalize path = path)
    (hroot : path ≠ Path.root) (hadmissible : Admissible path) (data : Bytes) (append : Bool)
    (hsmall : append = false → data.length ≤ writeLimit)
    (hlayout : table.checkLayout path = .ok ()) {metadata : Metadata}
    (hmetadata : table.keptMetadata path = .ok metadata) :
    ∃ tree', (write path data append).runFrom tree = (.ok (), tree') ∧
      Mirrors tree' (table.put path (table.written path data append) metadata) [] := by
  obtain ⟨habove, hbelow⟩ := (Table.checkLayout_eq_ok h.tidy hpath hroot).mp hlayout
  obtain ⟨m, hm, hsame⟩ := Table.keptMetadata_eq h.tidy path
  obtain rfl : metadata = .ofTexts m := Except.ok.inj (hmetadata.symm.trans hm)
  obtain ⟨tree₁, hmade, hseat, h₁⟩ := h.folder_made hpath hroot hadmissible habove
  obtain ⟨tree', hrun, hrooted, hread⟩ :=
    h₁.filled hpath hroot hadmissible hbelow hseat data append hsmall
  refine ⟨tree', ?_, h₁.put (f := ⟨table.written path data append, .ofTexts m⟩) hpath hroot
    hadmissible hrooted hread ?_ ?_ ?_⟩
  · rw [h.runFrom_write hpath hroot hadmissible habove hbelow data append hmade, Os.runFrom_act,
      hrun]
    rfl
  · exact h.tidy.insert (f := ⟨_, .ofTexts m⟩) hpath hroot habove hbelow ⟨m, rfl⟩ rfl
  · intro k
    exact OrderedMap.get?_insert ..
  · cases hf : table.files.get? path with
    | some g => exact Or.inl ⟨g, rfl, hsame g hf⟩
    | none =>
      refine Or.inr ⟨rfl, ?_⟩
      rw [Table.keptMetadata, hf] at hm
      exact (Except.ok.inj hm).symm

end Mirrors

end Depot.Storage.Disk
