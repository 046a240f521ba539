import Depot.Proofs.Disk.Call
import Depot.Proofs.Disk.Place
import Depot.Proofs.Memory.Layout

/-!
A tree that holds the same files as a table. Each file stands at its place, with its
metadata in a sidecar unless they are empty; the folders are those that some file lies in.
While an operation is under way there may also be folders on the way to one place that no
file lies in yet, or any more.
-/
namespace Depot.Storage.Disk

open Memory (Table Stored)

/-- The folders on the way to `bare` may have nothing in them. -/
structure Mirrors (tree : Tree) (table : Table) (bare : Place) : Prop where
  rooted : tree.Rooted
  tidy : table.Tidy
  swept : tree.Swept
  admissible : ∀ k f, table.files.get? k = some f → Admissible k
  chain : ∀ p, p <+: bare → tree.nodes.get? p = some .folder
  files : ∀ k f, table.files.get? k = some f →
    tree.nodes.get? (Path.segments k) = some (.file f.content)
  sidecars : ∀ k f, table.files.get? k = some f →
    tree.nodes.get? (sidecar (Path.segments k)) = some (.file (Bytes.utf8 f.metadata.render)) ∨
      (tree.nodes.get? (sidecar (Path.segments k)) = none ∧ f.metadata = .empty)
  only : ∀ p n, tree.nodes.get? p = some n → p <+: bare ∨ p = [temporaryFolder] ∨
    (∃ k f, table.files.get? k = some f ∧
      (p = Path.segments k ∨ p = sidecar (Path.segments k))) ∨
    ∃ q, Path.normalize q = q ∧ table.Holds q ∧ p = Path.segments q

variable {tree tree' : Tree} {table table' : Table} {bare p : Place} {path k q : String}
  {f : Stored} {n : Node}

namespace Mirrors

theorem segments_ne_nil (h : Mirrors tree table bare) (hf : table.files.get? k = some f) :
    Path.segments k ≠ [] :=
  Path.segments_ne_nil (h.tidy.normal k f hf).1 (h.tidy.normal k f hf).2

theorem root (h : Mirrors tree table bare) : tree.nodes.get? [] = some .folder :=
  h.chain [] List.nil_prefix

/-- A folder that some file lies in is there. -/
theorem folder_of_holds (h : Mirrors tree table bare) (hholds : table.Holds q) :
    tree.nodes.get? (Path.segments q) = some .folder := by
  obtain ⟨k, f, hf, hunder⟩ := hholds
  obtain ⟨hlength, rest, hrest⟩ := Path.isUnder_iff.mp hunder
  have hsome : rest ≠ [] := by
    intro hnil
    rw [← hrest, hnil, List.append_nil] at hlength
    omega
  have hfile := h.files k f hf
  rw [← hrest] at hfile
  exact h.rooted.above_append hsome hfile

theorem admissible_of_holds (h : Mirrors tree table bare) (hholds : table.Holds q) :
    Admissible q := by
  obtain ⟨k, f, hf, hunder⟩ := hholds
  exact (h.admissible k f hf).of_initial (Path.isUnder_iff.mp hunder).2

/-- What stands at an admissible place: the file of that path or a folder. -/
theorem node_cases (h : Mirrors tree table bare) (hpath : Path.normalize path = path)
    (hadmissible : Admissible path) (hn : tree.nodes.get? (Path.segments path) = some n) :
    (∃ f, table.files.get? path = some f ∧ n = .file f.content) ∨
      (n = .folder ∧ (table.Holds path ∨ Path.segments path <+: bare)) := by
  rcases h.only _ n hn with hbare | htemporary | ⟨k, f, hf, hplace | hsidecar⟩
      | ⟨q, hq, hholds, hplace⟩
  · have hfolder := h.chain _ hbare
    rw [hn] at hfolder
    exact Or.inr ⟨Option.some.inj hfolder, Or.inr hbare⟩
  · have hfirst := hadmissible.first
    rw [htemporary] at hfirst
    exact absurd rfl hfirst
  · obtain rfl := Path.eq_of_segments hpath (h.tidy.normal k f hf).1 hplace
    have hfile := h.files _ f hf
    rw [hn] at hfile
    exact Or.inl ⟨f, hf, Option.some.inj hfile⟩
  · refine absurd ?_ (hadmissible.not_sidecar (h.segments_ne_nil hf))
    rw [hsidecar]
  · obtain rfl := Path.eq_of_segments hpath hq hplace
    have hfolder := h.folder_of_holds hholds
    rw [hn] at hfolder
    exact Or.inr ⟨Option.some.inj hfolder, Or.inl hholds⟩

theorem folder_iff (h : Mirrors tree table []) (hpath : Path.normalize path = path)
    (hadmissible : Admissible path) :
    tree.nodes.get? (Path.segments path) = some .folder ↔
      path = Path.root ∨ table.Holds path := by
  constructor
  · intro hfolder
    rcases h.node_cases hpath hadmissible hfolder with ⟨f, -, hfile⟩ | ⟨-, hholds | hbare⟩
    · simp at hfile
    · exact Or.inr hholds
    · left
      have hnil := List.prefix_nil.mp hbare
      exact Path.eq_of_segments hpath (by decide) (by rw [hnil, Path.segments_root])
  · rintro (rfl | hholds)
    · rw [Path.segments_root]
      exact h.root
    · exact h.folder_of_holds hholds

theorem file_iff (h : Mirrors tree table bare) (hpath : Path.normalize path = path)
    (hadmissible : Admissible path) {content : Bytes} :
    tree.nodes.get? (Path.segments path) = some (.file content) ↔
      ∃ f, table.files.get? path = some f ∧ f.content = content := by
  constructor
  · intro hfile
    rcases h.node_cases hpath hadmissible hfile with ⟨f, hf, hcontent⟩ | ⟨hfolder, -⟩
    · exact ⟨f, hf, (Node.file.inj hcontent).symm⟩
    · simp at hfolder
  · rintro ⟨f, hf, rfl⟩
    exact h.files path f hf

theorem isFolder_eq (h : Mirrors tree table []) (hpath : Path.normalize path = path)
    (hadmissible : Admissible path) :
    tree.isFolder (Path.segments path) = .ok (table.folderExists path) := by
  rw [h.rooted.isFolder_eq hadmissible.proper, Except.ok.injEq, Bool.eq_iff_iff,
    decide_eq_true_iff, h.folder_iff hpath hadmissible, Memory.Table.folderExists_iff hpath]

theorem isFile_eq (h : Mirrors tree table bare) (hpath : Path.normalize path = path)
    (hadmissible : Admissible path) :
    tree.isFile (Path.segments path) = .ok (table.files.contains path) := by
  cases hcontains : table.files.contains path with
  | true =>
    obtain ⟨f, hf⟩ := OrderedMap.contains_iff.mp hcontains
    exact h.rooted.isFile_eq_true (h.files path f hf)
  | false =>
    refine h.rooted.isFile_eq_false hadmissible.proper fun content hfile => ?_
    obtain ⟨f, hf, -⟩ := (h.file_iff hpath hadmissible).mp hfile
    rw [OrderedMap.contains_iff.mpr ⟨f, hf⟩] at hcontains
    simp at hcontains

/-- A file stands on the way to a place just when the path lies under a stored file. -/
theorem blocked_iff (h : Mirrors tree table bare) (hadmissible : Admissible path) :
    tree.Blocked (Path.segments path) ↔
      ∃ k f, table.files.get? k = some f ∧ Path.isUnder path k = true := by
  constructor
  · rintro ⟨p, rest, content, hrest, hsplit, hfile⟩
    have hclean : ∀ name ∈ p, Path.Clean name := fun name hname =>
      Path.clean_of_mem_segments (p := path) (by simp [hsplit, hname])
    have hsegments := Path.segments_join hclean
    have hsub : Path.segments (Path.join p) <+: Path.segments path := by
      rw [hsegments, hsplit]
      exact List.prefix_append p rest
    rw [← hsegments] at hfile
    have hnormal : Path.normalize (Path.join p) = Path.join p := by
      rw [Path.normalize, hsegments]
    obtain ⟨f, hf, -⟩ := (h.file_iff hnormal (hadmissible.of_initial hsub)).mp hfile
    refine ⟨Path.join p, f, hf, Path.isUnder_iff.mpr ⟨?_, hsub⟩⟩
    have hlong := List.length_pos_iff.mpr hrest
    rw [hsegments, hsplit, List.length_append]
    omega
  · rintro ⟨k, f, hf, hunder⟩
    obtain ⟨hlength, rest, hrest⟩ := Path.isUnder_iff.mp hunder
    refine ⟨_, rest, _, ?_, hrest.symm, h.files k f hf⟩
    intro hnil
    rw [← hrest, hnil, List.append_nil] at hlength
    omega

/-- Nothing but the root and the folder of temporary files. -/
theorem of_bare (hrooted : tree.Rooted) (hroot : tree.nodes.get? [] = some .folder)
    (hthere : tree.nodes.get? [temporaryFolder] = some .folder)
    (honly : ∀ p n, tree.nodes.get? p = some n → p = [] ∨ p = [temporaryFolder])
    (htidy : table.Tidy) (hnone : ∀ k, table.files.get? k = none) : Mirrors tree table [] := by
  have hempty : ∀ k f, table.files.get? k ≠ some f := by
    intro k f hf
    simp [hnone] at hf
  refine ⟨hrooted, htidy, ⟨hthere, fun name => ?_⟩, fun k f hf => absurd hf (hempty k f),
    fun p hp => ?_, fun k f hf => absurd hf (hempty k f), fun k f hf => absurd hf (hempty k f),
    fun p n hn => ?_⟩
  · cases hn : tree.nodes.get? [temporaryFolder, name] with
    | none => rfl
    | some n => simpa using honly _ n hn
  · rw [List.prefix_nil.mp hp, hroot]
  · rcases honly p n hn with rfl | rfl
    · exact Or.inl (List.prefix_refl _)
    · exact Or.inr (Or.inl rfl)

/-- What is in the tree is still accounted for when the table has more files. -/
theorem only_of_keys (h : Mirrors tree table bare)
    (hkeys : ∀ k f, table.files.get? k = some f → ∃ f', table'.files.get? k = some f')
    (hn : tree.nodes.get? p = some n) :
    p <+: bare ∨ p = [temporaryFolder] ∨
      (∃ k f, table'.files.get? k = some f ∧
        (p = Path.segments k ∨ p = sidecar (Path.segments k))) ∨
      ∃ q, Path.normalize q = q ∧ table'.Holds q ∧ p = Path.segments q := by
  rcases h.only p n hn with hbare | htemporary | ⟨k, f, hf, hplace⟩
      | ⟨q, hq, ⟨k, f, hf, hunder⟩, hplace⟩
  · exact Or.inl hbare
  · exact Or.inr (Or.inl htemporary)
  · obtain ⟨f', hf'⟩ := hkeys k f hf
    exact Or.inr (Or.inr (Or.inl ⟨k, f', hf', hplace⟩))
  · obtain ⟨f', hf'⟩ := hkeys k f hf
    exact Or.inr (Or.inr (Or.inr ⟨q, hq, ⟨k, f', hf', hunder⟩, hplace⟩))

end Mirrors

end Depot.Storage.Disk
