import Depot.Proofs.Disk.Tree
import Depot.Proofs.Path
import Depot.Storage.Disk.Backend
import Mathlib.Algebra.GroupWithZero.Nat

/-!
Paths that any store takes, and their places. None of their names is reserved, and the
file system refuses no place that is made for them. A place tells its path, and a sidecar
tells whose it is.
-/
namespace Depot.Storage.Disk

/-- A path without reserved names, whose place and sidecar the file system does not refuse. -/
structure Admissible (path : String) : Prop where
  first : (Path.segments path).head? ≠ some temporaryFolder
  plain : ∀ name ∈ Path.segments path, isSidecarName name = false
  noNul : ∀ name ∈ Path.segments path, '\x00' ∉ name.toList
  short : ∀ name ∈ Path.segments path, (name ++ sidecarExtension).utf8ByteSize ≤ nameLimit
  near : Tree.isTooLong (sidecar (Path.segments path)) = false

variable {path other q : String} {p : Place} {name : String}

theorem admissible_iff :
    Admissible path ↔ (Path.segments path).head? ≠ some temporaryFolder ∧
      (∀ name ∈ Path.segments path, isSidecarName name = false) ∧
      (∀ name ∈ Path.segments path, '\x00' ∉ name.toList) ∧
      (∀ name ∈ Path.segments path, (name ++ sidecarExtension).utf8ByteSize ≤ nameLimit) ∧
      Tree.isTooLong (sidecar (Path.segments path)) = false :=
  ⟨fun h => ⟨h.first, h.plain, h.noNul, h.short, h.near⟩,
    fun ⟨first, plain, noNul, short, near⟩ => ⟨first, plain, noNul, short, near⟩⟩

instance : Decidable (Admissible path) := decidable_of_iff _ admissible_iff.symm

theorem size_extended (name : String) :
    (name ++ sidecarExtension).utf8ByteSize = name.utf8ByteSize + 5 := by
  rw [String.utf8ByteSize_append]
  rfl

theorem sidecar_concat (p : Place) (name : String) :
    sidecar (p ++ [name]) = p ++ [name ++ sidecarExtension] := by
  simp [sidecar]

theorem isSidecarName_extended (name : String) :
    isSidecarName (name ++ sidecarExtension) = true := by
  simp [isSidecarName, List.isSuffixOf_iff_suffix]

def placeSize (p : Place) : Nat := (p.map fun name => name.utf8ByteSize + 1).sum

theorem isTooLong_eq_false : Tree.isTooLong p = false ↔ placeSize p ≤ placeLimit := by
  simp [Tree.isTooLong, placeSize, List.sum_eq_foldr, List.foldr_map]

theorem placeSize_sidecar (hsome : p ≠ []) : placeSize (sidecar p) = placeSize p + 5 := by
  obtain ⟨init, name, rfl⟩ := List.eq_nil_or_concat p |>.resolve_left hsome
  rw [List.concat_eq_append, sidecar_concat]
  simp only [placeSize, List.map_append, List.sum_append, List.map_cons, List.map_nil,
    List.sum_cons, List.sum_nil, size_extended]
  omega

theorem placeSize_of_initial {q : Place} (hq : q <+: p) : placeSize q ≤ placeSize p := by
  obtain ⟨rest, rfl⟩ := hq
  simp only [placeSize, List.map_append, List.sum_append]
  omega

/-- The folders on the way to an admissible path are admissible. -/
theorem Admissible.of_initial (h : Admissible path)
    (hq : Path.segments q <+: Path.segments path) : Admissible q := by
  have hsub : ∀ name ∈ Path.segments q, name ∈ Path.segments path := fun name hname =>
    hq.subset hname
  refine ⟨?_, fun name hname => h.plain name (hsub name hname),
    fun name hname => h.noNul name (hsub name hname),
    fun name hname => h.short name (hsub name hname), ?_⟩
  · cases hnames : Path.segments q with
    | nil => simp
    | cons first rest =>
      obtain ⟨more, hmore⟩ := hq
      have hfirst := h.first
      rw [← hmore, hnames] at hfirst
      exact hfirst
  · cases hnames : Path.segments q with
    | nil => decide
    | cons first rest =>
      have hpath : Path.segments path ≠ [] := by
        intro hnil
        rw [hnil, hnames] at hq
        simp at hq
      have hsize := placeSize_of_initial hq
      have hlimit := isTooLong_eq_false.mp h.near
      rw [placeSize_sidecar hpath] at hlimit
      rw [isTooLong_eq_false, ← hnames, placeSize_sidecar (by simp [hnames])]
      omega

theorem Admissible.normalize (h : Admissible path) : Admissible (Path.normalize path) :=
  h.of_initial (by rw [Path.segments_normalize])

theorem Admissible.proper (h : Admissible path) : Proper (Path.segments path) where
  clean name hname := Path.clean_of_mem_segments hname
  short name hname := by
    have hshort := h.short name hname
    rw [size_extended] at hshort
    omega
  noNul := h.noNul
  near := by
    have hlimit := isTooLong_eq_false.mp h.near
    rw [isTooLong_eq_false]
    cases hnames : Path.segments path with
    | nil => decide
    | cons first rest =>
      rw [placeSize_sidecar (by simp [hnames]), hnames] at hlimit
      omega

theorem clean_extended (hclean : Path.Clean name) : Path.Clean (name ++ sidecarExtension) := by
  obtain ⟨-, hfree, -, -⟩ := hclean
  have hlong : ∀ s : String, s.utf8ByteSize < 5 → name ++ sidecarExtension ≠ s := by
    intro s hs heq
    have hsize := congrArg String.utf8ByteSize heq
    rw [size_extended] at hsize
    omega
  refine ⟨hlong _ (by decide), ?_, hlong _ (by decide), hlong _ (by decide)⟩
  rw [String.toList_append, List.mem_append, not_or]
  exact ⟨hfree, by decide⟩

theorem Admissible.proper_sidecar (h : Admissible path) (hsome : Path.segments path ≠ []) :
    Proper (sidecar (Path.segments path)) := by
  have hplace := h.proper
  obtain ⟨init, name, hnames⟩ := List.eq_nil_or_concat (Path.segments path) |>.resolve_left hsome
  rw [List.concat_eq_append] at hnames
  have hname : name ∈ Path.segments path := by simp [hnames]
  refine ⟨?_, ?_, ?_, h.near⟩
  all_goals
    intro part hpart
    rw [hnames, sidecar_concat, List.mem_append, List.mem_singleton] at hpart
    have hinit : part ∈ init → part ∈ Path.segments path := by
      intro hmem
      simp [hnames, hmem]
  · rcases hpart with hpart | rfl
    · exact hplace.clean part (hinit hpart)
    · exact clean_extended (hplace.clean name hname)
  · rcases hpart with hpart | rfl
    · exact hplace.short part (hinit hpart)
    · exact h.short name hname
  · rcases hpart with hpart | rfl
    · exact hplace.noNul part (hinit hpart)
    · rw [String.toList_append, List.mem_append, not_or]
      exact ⟨h.noNul name hname, by decide⟩

theorem Admissible.place? (h : Admissible path) : place? path = .ok (Path.segments path) := by
  have hlast : (Path.segments path).getLast?.any isSidecarName = false := by
    cases hlast : (Path.segments path).getLast? with
    | none => rfl
    | some name => simp [h.plain name (List.mem_of_getLast? hlast)]
  unfold Disk.place?
  rw [if_neg (by simp [h.first, hlast])]

/-- The path of a place is the one it was made for. -/
theorem pathOf_segments (hpath : Path.normalize path = path) :
    pathOf (Path.segments path) = path := by
  change Path.normalize (Path.normalize path) = path
  rw [hpath, hpath]

/-- No admissible place goes through a sidecar. -/
theorem Admissible.not_sidecar (h : Admissible path) (hp : p ≠ []) :
    ¬ sidecar p <+: Path.segments path := by
  intro hsub
  obtain ⟨init, name, rfl⟩ := List.eq_nil_or_concat p |>.resolve_left hp
  rw [List.concat_eq_append, sidecar_concat] at hsub
  have hmem : name ++ sidecarExtension ∈ Path.segments path := hsub.subset (by simp)
  have hplain := h.plain _ hmem
  rw [isSidecarName_extended] at hplain
  simp at hplain

theorem sidecar_injective {q : Place} (hp : p ≠ []) (hq : q ≠ []) (heq : sidecar p = sidecar q) :
    p = q := by
  obtain ⟨init, name, rfl⟩ := List.eq_nil_or_concat p |>.resolve_left hp
  obtain ⟨init', name', rfl⟩ := List.eq_nil_or_concat q |>.resolve_left hq
  simp only [List.concat_eq_append, sidecar_concat] at heq ⊢
  obtain ⟨rfl, hlast⟩ := List.append_inj' heq rfl
  have hname : name = name' := by
    have htext := congrArg String.toList (List.cons.inj hlast).1
    rw [String.toList_append, String.toList_append] at htext
    exact String.toList_inj.mp (List.append_cancel_right htext)
  rw [hname]

theorem sidecar_ne_temporary (hp : p ≠ []) : sidecar p ≠ [temporaryFolder] := by
  intro heq
  obtain ⟨init, name, rfl⟩ := List.eq_nil_or_concat p |>.resolve_left hp
  rw [List.concat_eq_append, sidecar_concat, ← List.nil_append [temporaryFolder]] at heq
  obtain ⟨-, hlast⟩ := List.append_inj' heq rfl
  have hname := isSidecarName_extended name
  rw [(List.cons.inj hlast).1] at hname
  exact absurd hname (by decide)

theorem dropLast_sidecar (p : Place) : (sidecar p).dropLast = p.dropLast := by
  simp [sidecar]

end Depot.Storage.Disk
