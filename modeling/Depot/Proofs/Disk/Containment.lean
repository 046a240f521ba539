import Depot.Proofs.Disk.Contents

/-!
Where a store on a file tree puts its files. The place of a path lies below the root of the
store however the path is written, and it is none of the places that the store keeps for
itself. Paths with one normal form share a place, and the place tells this form.
-/
namespace Depot.Storage.Disk

variable {p : Place} {path : String}

def descend (root : Place) (names : List String) : Place :=
  names.foldl (fun here name =>
    if name = "" ∨ name = "." then here
    else if name = ".." then here.dropLast
    else here ++ [name]) root

/-- Names that stand for themselves lead only downwards. -/
theorem descend_of_clean (hclean : Clean p) (root : Place) : descend root p = root ++ p := by
  induction p generalizing root with
  | nil => simp [descend]
  | cons name rest ih =>
    obtain ⟨hfull, -, hdot, hdots⟩ := hclean name List.mem_cons_self
    have hstep : descend root (name :: rest) = descend (root ++ [name]) rest := by
      simp [descend, hfull, hdot, hdots]
    rw [hstep, ih fun part hpart => hclean part (List.mem_cons_of_mem _ hpart), List.append_assoc]
    rfl

theorem place?_eq_ok : place? path = .ok p ↔ ¬ Reserved path ∧ p = Path.segments path := by
  by_cases hfree : Reserved path
  · simp [place?_reserved hfree, hfree]
  · simp [place?_free hfree, hfree, eq_comm]

theorem place?_eq_error {e : Fault} :
    place? path = .error e ↔ Reserved path ∧
      e = .invalidPath (some path) "the name is reserved by the local storage backend" := by
  by_cases hfree : Reserved path
  · simp [place?_reserved hfree, hfree, eq_comm]
  · simp [place?_free hfree, hfree]

theorem isSidecar_iff_suffix :
    IsSidecar p ↔ ∃ name, p.getLast? = some name ∧ sidecarExtension.toList <:+ name.toList := by
  simp [IsSidecar, isSidecarName, Option.any_eq_true, List.isSuffixOf_iff_suffix]

/-- Nothing that is stored is among the temporary files. -/
theorem not_temporary_of_free (hfree : ¬ Reserved path) :
    ¬ [temporaryFolder] <+: Path.segments path := fun hsub =>
  (not_or.mp hfree).1 (head?_of_initial hsub (by simp)).symm

/-- No stored file is the sidecar of another place. -/
theorem ne_sidecar_of_free (hfree : ¬ Reserved path) (q : Place) :
    Path.segments path ≠ sidecar q := fun heq =>
  (not_or.mp hfree).2 (heq ▸ isSidecar_sidecar q)

/-- A path is refused just when its first name is that of the folder of temporary files or its
last one has the ending of a sidecar. The place of any other path is the list of its segments.
From whatever folder the store has for its root these names lead to a place below it, a tree
without links has nothing else there, and no other kind of file of the store can be meant. Two
paths have one place just when they have one normal form, which can be told from the place. -/
theorem place_contained (path : String) :
    ((∃ e, place? path = .error e) ↔
      (Path.segments path).head? = some temporaryFolder ∨
        ∃ name, (Path.segments path).getLast? = some name ∧
          sidecarExtension.toList <:+ name.toList) ∧
    (∀ e, place? path = .error e → e.kind = .invalidPath) ∧
    ∀ p, place? path = .ok p →
      p = Path.segments path ∧ (∀ root, descend root p = root ++ p) ∧
      (∀ (t : Tree) goal q, t.Rooted → t.locate goal p = .ok q → q = p) ∧
      ¬ [temporaryFolder] <+: p ∧ pathOf p = Path.normalize path ∧
      ∀ other q, place? other = .ok q →
        p ≠ sidecar q ∧ (p = q ↔ Path.normalize path = Path.normalize other) := by
  have hclean := clean_segments path
  refine ⟨?_, fun e he => ?_, fun p hp => ?_⟩
  · rw [← isSidecar_iff_suffix]
    simp only [place?_eq_error, exists_and_left, exists_eq, and_true]
    rfl
  · rw [(place?_eq_error.mp he).2]
    rfl
  · obtain ⟨hfree, rfl⟩ := place?_eq_ok.mp hp
    refine ⟨rfl, descend_of_clean hclean, fun t goal q ht hlocate => ?_,
      not_temporary_of_free hfree, pathOf_of_segments path, fun other q hq => ?_⟩
    · exact (ht.locate_eq_ok hclean hlocate).1
    · obtain ⟨-, rfl⟩ := place?_eq_ok.mp hq
      exact ⟨ne_sidecar_of_free hfree _, Path.normalize_eq_iff.symm⟩

/-- A path that would lead far above the root if it were followed as it is written. -/
theorem place_contained_upwards :
    place? "../../a/.//b/../c/" = .ok ["a", "c"] ∧ place? "a/c" = .ok ["a", "c"] ∧
      descend ["srv", "files"] ["a", "c"] = ["srv", "files", "a", "c"] ∧
      pathOf ["a", "c"] = Path.normalize "../../a/.//b/../c/" ∧
      Path.normalize "../../a/.//b/../c/" = Path.normalize "a/c" := by
  have hup : place? "../../a/.//b/../c/" = .ok ["a", "c"] := by decide
  have hplain : place? "a/c" = .ok ["a", "c"] := by decide
  obtain ⟨-, -, hplaced⟩ := place_contained "../../a/.//b/../c/"
  obtain ⟨-, hbelow, -, -, hpath, hshared⟩ := hplaced _ hup
  exact ⟨hup, hplain, hbelow ["srv", "files"], hpath, (hshared _ _ hplain).2.mp rfl⟩

end Depot.Storage.Disk
