import Depot.Proofs.Disk.Mirror

/-!
What changes do to a tree that mirrors a table. A write makes folders and then the file, a
delete takes files away and then the folders that are left empty; in between some folders
on the way have nothing in them.
-/
namespace Depot.Storage.Disk

open Memory (Table Stored)

variable {tree tree' : Tree} {table table' : Table} {bare p : Place} {path k q : String}
  {f : Stored} {n : Node}

theorem prefix_dropLast {p r : Place} (hsub : p <+: r) (hlength : p.length < r.length) :
    p <+: r.dropLast := by
  rw [List.dropLast_eq_take, List.prefix_take_iff]
  exact ⟨hsub, by omega⟩

theorem not_prefix_dropLast {p : Place} (hsome : p ≠ []) : ¬ p <+: p.dropLast := by
  intro hsub
  have hlength := hsub.length_le
  have hpos := List.length_pos_iff.mpr hsome
  rw [List.length_dropLast] at hlength
  omega

theorem dropLast_ne {p : Place} (hsome : p ≠ []) : p.dropLast ≠ p := fun heq =>
  not_prefix_dropLast hsome (heq.symm ▸ List.prefix_refl _)

theorem head?_dropLast_ne (hp : p.head? ≠ some temporaryFolder) :
    p.dropLast.head? ≠ some temporaryFolder := by
  cases hinit : p.dropLast with
  | nil => simp
  | cons first rest =>
    rw [← hinit, head?_of_initial (List.dropLast_prefix p) (by simp [hinit])]
    exact hp

namespace Mirrors

/-- Folders that are made on the way to a path. -/
theorem paved (h : Mirrors tree table []) (hpath : Admissible path)
    (hclear : tree.Clear (Path.segments path)) (hpaved : tree.Paved tree' (Path.segments path)) :
    Mirrors tree' table (Path.segments path) := by
  have hother : ∀ p, ¬ p <+: Path.segments path → tree'.nodes.get? p = tree.nodes.get? p := by
    intro p hp
    rw [hpaved.2, if_neg hp]
  have htemporary : ∀ rest, ¬ temporaryFolder :: rest <+: Path.segments path := by
    intro rest hsub
    apply hpath.first
    rw [← head?_of_initial hsub (by simp)]
    rfl
  refine ⟨hpaved.1, h.tidy, ⟨?_, fun name => ?_⟩, h.admissible, fun p hp => ?_, fun k f hf => ?_,
    fun k f hf => ?_, fun p n hn => ?_⟩
  · rw [hother _ (htemporary []), h.swept.there]
  · rw [hother _ (htemporary [name]), h.swept.bare]
  · rw [hpaved.2, if_pos hp]
  · have hfile := h.files k f hf
    rw [hother _ fun hsub => hclear _ _ hsub hfile, hfile]
  · rw [hother _ (hpath.not_sidecar (h.segments_ne_nil hf))]
    exact h.sidecars k f hf
  · by_cases hp : p <+: Path.segments path
    · exact Or.inl hp
    · rw [hother p hp] at hn
      rcases h.only p n hn with hbare | hrest
      · exact absurd ((List.prefix_nil.mp hbare) ▸ List.nil_prefix) hp
      · exact Or.inr hrest

/-- Where no file is there is no sidecar. -/
theorem no_orphan (h : Mirrors tree table bare) (hadmissible : Admissible path)
    (hpath : Path.normalize path = path) (hbare : bare <+: Path.segments path)
    (hsome : Path.segments path ≠ []) (hnone : table.files.get? path = none) :
    tree.nodes.get? (sidecar (Path.segments path)) = none := by
  have hfree : ∀ q, Admissible q → sidecar (Path.segments path) ≠ Path.segments q :=
    fun q hq heq => hq.not_sidecar hsome (heq ▸ List.prefix_refl _)
  cases hn : tree.nodes.get? (sidecar (Path.segments path)) with
  | none => rfl
  | some n =>
    exfalso
    rcases h.only _ n hn with hp | htemporary | ⟨k, f, hf, hplace | hsidecar⟩
        | ⟨q, -, hholds, hplace⟩
    · exact hadmissible.not_sidecar hsome (hp.trans hbare)
    · exact sidecar_ne_temporary hsome htemporary
    · exact hfree k (h.admissible k f hf) hplace
    · have hsegments := sidecar_injective hsome (h.segments_ne_nil hf) hsidecar
      obtain rfl := Path.eq_of_segments hpath (h.tidy.normal k f hf).1 hsegments
      rw [hnone] at hf
      simp at hf
    · exact hfree q (h.admissible_of_holds hholds) hplace

/-- A file that is put in its folder. -/
theorem put (h : Mirrors tree table (Path.segments path).dropLast)
    (hpath : Path.normalize path = path) (hroot : path ≠ Path.root)
    (hadmissible : Admissible path) (hrooted : tree'.Rooted)
    (hread : ∀ p, tree'.nodes.get? p =
      if p = Path.segments path then some (.file f.content) else tree.nodes.get? p)
    (htidy : table'.Tidy)
    (hget : ∀ k, table'.files.get? k = if k = path then some f else table.files.get? k)
    (hkept : (∃ g, table.files.get? path = some g ∧ g.metadata = f.metadata) ∨
      (table.files.get? path = none ∧ f.metadata = .empty)) :
    Mirrors tree' table' [] := by
  have hsome := Path.segments_ne_nil hpath hroot
  have hfirst : ∀ rest, temporaryFolder :: rest ≠ Path.segments path := by
    intro rest heq
    apply hadmissible.first
    rw [← heq]
    rfl
  have hplace : ∀ k f, table.files.get? k = some f → k ≠ path →
      Path.segments k ≠ Path.segments path := fun k f hf hne heq =>
    hne (Path.eq_of_segments (h.tidy.normal k f hf).1 hpath heq)
  have hsidecar : ∀ k, Path.segments k ≠ [] → sidecar (Path.segments k) ≠ Path.segments path :=
    fun k hk heq => hadmissible.not_sidecar hk (heq ▸ List.prefix_refl _)
  have hnew : table'.files.get? path = some f := by rw [hget, if_pos rfl]
  have hkeys : ∀ k g, table.files.get? k = some g → ∃ g', table'.files.get? k = some g' := by
    intro k g hg
    rw [hget]
    split
    · exact ⟨f, rfl⟩
    · exact ⟨g, hg⟩
  refine ⟨hrooted, htidy, ⟨?_, fun name => ?_⟩, fun k g hg => ?_, fun p hp => ?_, fun k g hg => ?_,
    fun k g hg => ?_, fun p n hn => ?_⟩
  · rw [hread, if_neg (hfirst []), h.swept.there]
  · rw [hread, if_neg (hfirst [name]), h.swept.bare]
  · rw [hget] at hg
    split at hg
    · next hk => exact hk ▸ hadmissible
    · exact h.admissible k g hg
  · rw [List.prefix_nil.mp hp, hread, if_neg (Ne.symm hsome), h.root]
  · rw [hget] at hg
    split at hg
    · next hk => rw [hk, hread, if_pos rfl, Option.some.inj hg]
    · next hk => rw [hread, if_neg (hplace k g hg hk), h.files k g hg]
  · rw [hget] at hg
    split at hg
    · next hk =>
      rw [hk, hread, if_neg (hsidecar path hsome), ← Option.some.inj hg]
      rcases hkept with ⟨g, hold, hmetadata⟩ | ⟨hnone, hempty⟩
      · rw [← hmetadata]
        exact h.sidecars path g hold
      · exact Or.inr ⟨h.no_orphan hadmissible hpath (List.dropLast_prefix _) hsome hnone, hempty⟩
    · next hk =>
      rw [hread, if_neg (hsidecar k (h.segments_ne_nil hg))]
      exact h.sidecars k g hg
  · rw [hread] at hn
    by_cases hp : p = Path.segments path
    · exact Or.inr (Or.inr (Or.inl ⟨path, f, hnew, Or.inl hp⟩))
    · rw [if_neg hp] at hn
      rcases h.only_of_keys hkeys hn with hbare | hrest
      · obtain ⟨q, hq, hunder, hplace⟩ := Path.exists_upTo hbare hsome
        exact Or.inr (Or.inr (Or.inr ⟨q, hq, ⟨path, f, hnew, hunder⟩, hplace⟩))
      · exact Or.inr hrest

/-- What does not go along when a path is taken away. -/
theorem stays (h : Mirrors tree table bare) (hpath : Path.normalize path = path)
    (hadmissible : Admissible path) (hroot : path ≠ Path.root)
    (hf : table.files.get? k = some f) (hk : ¬ (k = path ∨ Path.isUnder k path = true)) :
    ¬ Path.segments path <+: Path.segments k ∧
      ¬ Path.segments path <+: sidecar (Path.segments k) ∧
      Path.segments k ≠ sidecar (Path.segments path) ∧
      sidecar (Path.segments k) ≠ sidecar (Path.segments path) := by
  have hsome := Path.segments_ne_nil hpath hroot
  have hnormal := (h.tidy.normal k f hf).1
  have hout : ¬ Path.segments path <+: Path.segments k := by
    intro hsub
    by_cases hlength : (Path.segments path).length < (Path.segments k).length
    · exact hk (Or.inr (Path.isUnder_iff.mpr ⟨hlength, hsub⟩))
    · have heq := hsub.eq_of_length_le (by omega)
      exact hk (Or.inl (Path.eq_of_segments hnormal hpath heq.symm))
  refine ⟨hout, fun hsub => ?_, fun heq => ?_, fun heq => ?_⟩
  · rw [sidecar, List.prefix_concat_iff, ← sidecar] at hsub
    rcases hsub with heq | hsub
    · exact hadmissible.not_sidecar (h.segments_ne_nil hf) (heq ▸ List.prefix_refl _)
    · exact hout (hsub.trans (List.dropLast_prefix _))
  · exact (h.admissible k f hf).not_sidecar hsome (heq ▸ List.prefix_refl _)
  · have hsegments := sidecar_injective (h.segments_ne_nil hf) hsome heq
    exact hk (Or.inl (Path.eq_of_segments hnormal hpath hsegments))

/-- The folders on the way to a path are not taken away with it. -/
theorem on_way (h : Mirrors tree table []) (hadmissible : Admissible path)
    (hsome : Path.segments path ≠ []) (hn : tree.nodes.get? (Path.segments path) = some n)
    (hp : p <+: (Path.segments path).dropLast) :
    tree.nodes.get? p = some .folder ∧
      ¬ (Path.segments path <+: p ∨ p = sidecar (Path.segments path)) := by
  obtain ⟨rest, hrest⟩ := hp.trans (List.dropLast_prefix _)
  have hshort := hp.length_le
  have hlength := List.length_pos_iff.mpr hsome
  rw [List.length_dropLast] at hshort
  have hmore : rest ≠ [] := by
    intro hnil
    rw [hnil, List.append_nil] at hrest
    rw [hrest] at hshort
    omega
  rw [← hrest] at hn
  refine ⟨h.rooted.above_append hmore hn, ?_⟩
  rintro (hsub | heq)
  · have hle := hsub.length_le
    omega
  · exact hadmissible.not_sidecar hsome (heq ▸ ⟨rest, hrest⟩)

/-- What is left after a path has been taken away. -/
theorem left_over (h : Mirrors tree table []) (hp : tree.nodes.get? p = some n)
    (hout : ¬ Path.segments path <+: p) (hne : p ≠ sidecar (Path.segments path)) :
    p <+: (Path.segments path).dropLast ∨ p = [temporaryFolder] ∨
      (∃ k f, (table.delete path).files.get? k = some f ∧
        (p = Path.segments k ∨ p = sidecar (Path.segments k))) ∨
      ∃ q, Path.normalize q = q ∧ (table.delete path).Holds q ∧ p = Path.segments q := by
  have hget := Memory.Table.get?_delete h.tidy path
  rcases h.only p n hp with hbare | htemporary | ⟨k, f, hf, hplace⟩
      | ⟨q, hq, ⟨k, f, hf, hunder⟩, rfl⟩
  · exact Or.inl (List.prefix_nil.mp hbare ▸ List.nil_prefix)
  · exact Or.inr (Or.inl htemporary)
  · refine Or.inr (Or.inr (Or.inl ⟨k, f, ?_, hplace⟩))
    rw [hget, if_neg, hf]
    rintro (rfl | hunder)
    · rcases hplace with rfl | rfl
      · exact hout (List.prefix_refl _)
      · exact hne rfl
    · have hsub := Path.isUnder_iff.mp hunder
      rcases hplace with rfl | rfl
      · exact hout hsub.2
      · exact hout ((prefix_dropLast hsub.2 hsub.1).trans (List.prefix_append _ _))
  · by_cases hk : k = path ∨ Path.isUnder k path = true
    · have hsub : Path.segments path <+: Path.segments k := by
        rcases hk with rfl | hk
        · exact List.prefix_refl _
        · exact (Path.isUnder_iff.mp hk).2
      have hsub' := (Path.isUnder_iff.mp hunder).2
      by_cases hlength : (Path.segments q).length < (Path.segments path).length
      · left
        exact prefix_dropLast (List.prefix_of_prefix_length_le hsub' hsub (by omega)) hlength
      · exact absurd (List.prefix_of_prefix_length_le hsub hsub' (by omega)) hout
    · exact Or.inr (Or.inr (Or.inr ⟨q, hq, ⟨k, f, by rw [hget, if_neg hk, hf], hunder⟩, rfl⟩))

/-- A path that is taken away with all that lies under it. The folders on the way stay. -/
theorem cut (h : Mirrors tree table []) (hpath : Path.normalize path = path)
    (hroot : path ≠ Path.root) (hadmissible : Admissible path)
    (hn : tree.nodes.get? (Path.segments path) = some n) (hrooted : tree'.Rooted)
    (hread : ∀ p, tree'.nodes.get? p =
      if Path.segments path <+: p ∨ p = sidecar (Path.segments path) then none
      else tree.nodes.get? p) :
    Mirrors tree' (table.delete path) (Path.segments path).dropLast := by
  have hsome := Path.segments_ne_nil hpath hroot
  have hget := Memory.Table.get?_delete h.tidy path
  have hold : ∀ {k f}, (table.delete path).files.get? k = some f →
      table.files.get? k = some f ∧ ¬ (k = path ∨ Path.isUnder k path = true) := by
    intro k f hf
    rw [hget] at hf
    split at hf
    · simp at hf
    · next hk => exact ⟨hf, hk⟩
  have hfirst : ∀ rest, ¬ Path.segments path <+: temporaryFolder :: rest := by
    intro rest hsub
    apply hadmissible.first
    rw [head?_of_initial hsub hsome]
    rfl
  refine ⟨hrooted, h.tidy.delete path, ⟨?_, fun name => ?_⟩, fun k f hf => ?_, fun p hp => ?_,
    fun k f hf => ?_, fun k f hf => ?_, fun p n hp => ?_⟩
  · rw [hread, if_neg, h.swept.there]
    rintro (hsub | heq)
    · exact hfirst [] hsub
    · exact sidecar_ne_temporary hsome heq.symm
  · rw [hread, h.swept.bare]
    simp
  · exact h.admissible k f (hold hf).1
  · obtain ⟨hfolder, hkept⟩ := h.on_way hadmissible hsome hn hp
    rw [hread, if_neg hkept, hfolder]
  · obtain ⟨hf, hk⟩ := hold hf
    obtain ⟨hout, -, hne, -⟩ := h.stays hpath hadmissible hroot hf hk
    rw [hread, if_neg (not_or.mpr ⟨hout, hne⟩), h.files k f hf]
  · obtain ⟨hf, hk⟩ := hold hf
    obtain ⟨-, hout, -, hne⟩ := h.stays hpath hadmissible hroot hf hk
    rw [hread, if_neg (not_or.mpr ⟨hout, hne⟩)]
    exact h.sidecars k f hf
  · rw [hread] at hp
    split at hp
    · simp at hp
    · next hkept =>
      obtain ⟨hout, hne⟩ := not_or.mp hkept
      exact h.left_over hp hout hne

/-- No folder is left empty once some file lies in the last of them. -/
theorem settled (h : Mirrors tree table p) (hf : table.files.get? k = some f)
    (hp : p <+: (Path.segments k).dropLast) : Mirrors tree table [] := by
  refine ⟨h.rooted, h.tidy, h.swept, h.admissible, fun q hq => ?_, h.files, h.sidecars,
    fun q n hn => ?_⟩
  · rw [List.prefix_nil.mp hq]
    exact h.root
  · rcases h.only q n hn with hsub | hrest
    · obtain ⟨q', hq', hunder, hplace⟩ := Path.exists_upTo (hsub.trans hp) (h.segments_ne_nil hf)
      exact Or.inr (Or.inr (Or.inr ⟨q', hq', ⟨k, f, hf, hunder⟩, hplace⟩))
    · exact Or.inr hrest

/-- A folder that is not empty has some file in it. -/
theorem exists_file (h : Mirrors tree table p) (hsome : p ≠ []) {name : String}
    (hn : tree.nodes.get? (p ++ [name]) = some n) :
    ∃ k f, table.files.get? k = some f ∧ p <+: (Path.segments k).dropLast := by
  have hlength : (p ++ [name]).length = p.length + 1 := by simp
  rcases h.only _ n hn with hsub | htemporary | ⟨k, f, hf, hplace | hsidecar⟩ |
    ⟨q, -, ⟨k, f, hf, hunder⟩, hplace⟩
  · have hle := hsub.length_le
    omega
  · rw [htemporary, List.length_singleton] at hlength
    have hpos := List.length_pos_iff.mpr hsome
    omega
  · refine ⟨k, f, hf, ?_⟩
    rw [← hplace, List.dropLast_concat]
  · refine ⟨k, f, hf, ?_⟩
    rw [← dropLast_sidecar, ← hsidecar, List.dropLast_concat]
  · obtain ⟨hshort, hsub⟩ := Path.isUnder_iff.mp hunder
    rw [← hplace] at hshort hsub
    exact ⟨k, f, hf, prefix_dropLast ((List.prefix_append p [name]).trans hsub) (by omega)⟩

/-- The last of the folders on the way is taken away when it is empty. -/
theorem unpave {name : String} (h : Mirrors tree table (p ++ [name]))
    (hfirst : (p ++ [name]).head? ≠ some temporaryFolder)
    (hempty : ∀ child, tree.nodes.get? (p ++ [name] ++ [child]) = none) :
    Mirrors (tree.remove (p ++ [name])) table p := by
  have hfolder := h.chain _ (List.prefix_refl _)
  have htemporary : ∀ rest, temporaryFolder :: rest ≠ p ++ [name] := by
    intro rest heq
    apply hfirst
    rw [← heq]
    rfl
  refine ⟨h.rooted.remove hempty, h.tidy, ⟨?_, fun child => ?_⟩, h.admissible, fun q hq => ?_,
    fun k f hf => ?_, fun k f hf => ?_, fun q n hq => ?_⟩
  · rw [Tree.get?_remove, if_neg (htemporary []), h.swept.there]
  · rw [Tree.get?_remove, if_neg (htemporary [child]), h.swept.bare]
  · have hshort := hq.length_le
    rw [Tree.get?_remove, if_neg, h.chain q (hq.trans (List.prefix_append p [name]))]
    intro heq
    rw [heq, List.length_append, List.length_singleton] at hshort
    omega
  · have hfile := h.files k f hf
    rw [Tree.get?_remove, if_neg, hfile]
    intro heq
    rw [heq, hfolder] at hfile
    simp at hfile
  · have hsidecar := h.sidecars k f hf
    rw [Tree.get?_remove, if_neg]
    · exact hsidecar
    · intro heq
      rw [heq, hfolder] at hsidecar
      simp at hsidecar
  · rw [Tree.get?_remove] at hq
    split at hq
    · simp at hq
    · next hne =>
      rcases h.only q n hq with hsub | hrest
      · exact Or.inl ((List.prefix_concat_iff.mp hsub).resolve_left hne)
      · exact Or.inr hrest

/-- Folders that are left empty are taken away, and no others. -/
theorem prune (h : Mirrors tree table p) (hfirst : p.head? ≠ some temporaryFolder) :
    ∃ tree', (prune p.reverse).runFrom tree = (.ok (), tree') ∧ Mirrors tree' table [] := by
  induction p using List.reverseRecOn generalizing tree with
  | nil => exact ⟨tree, rfl, h⟩
  | append_singleton init name ih =>
    have hfolder := h.chain _ (List.prefix_refl _)
    have hexec := h.rooted.exec_removeFolder hfolder
    rw [List.reverse_concat, Disk.prune, Os.runFrom_tryCatch, Os.runFrom_bind,
      List.reverse_cons, List.reverse_reverse, Os.runFrom_perform, hexec]
    by_cases hempty : tree.children (init ++ [name]) = []
    · have hinit : init.head? ≠ some temporaryFolder := by
        cases init with
        | nil => simp
        | cons first rest => exact hfirst
      obtain ⟨tree', hrun, h'⟩ := ih (h.unpave hfirst (Tree.children_eq_nil.mp hempty)) hinit
      rw [if_pos hempty]
      exact ⟨tree', by simp only [hrun], h'⟩
    · rw [if_neg hempty]
      obtain ⟨child, hchild⟩ := List.exists_mem_of_ne_nil _ hempty
      obtain ⟨n, hn⟩ := Tree.mem_children.mp hchild
      obtain ⟨k, f, hf, hsub⟩ := h.exists_file (by simp) hn
      exact ⟨tree, rfl, h.settled hf hsub⟩

/-- The place of a path that is no file has no sidecar. -/
theorem no_sidecar (h : Mirrors tree table []) (hpath : Path.normalize path = path)
    (hroot : path ≠ Path.root) (hadmissible : Admissible path)
    (hnone : table.files.get? path = none) :
    tree.nodes.get? (sidecar (Path.segments path)) = none :=
  h.no_orphan hadmissible hpath List.nil_prefix (Path.segments_ne_nil hpath hroot) hnone

theorem remove_folder (h : Mirrors tree table []) (hpath : Path.normalize path = path)
    (hroot : path ≠ Path.root) (hadmissible : Admissible path)
    (hfolder : tree.nodes.get? (Path.segments path) = some .folder) :
    ∃ tree', (removePlace (Path.segments path)).runFrom tree = (.ok (), tree') ∧
      Mirrors tree' (table.delete path) [] := by
  have hsome := Path.segments_ne_nil hpath hroot
  have hnone : table.files.get? path = none := by
    cases hf : table.files.get? path with
    | none => rfl
    | some f =>
      have hfile := h.files path f hf
      rw [hfolder] at hfile
      simp at hfile
  have hsidecar := h.no_sidecar hpath hroot hadmissible hnone
  have hcut := h.cut hpath hroot hadmissible hfolder (h.rooted.removeBelow (Path.segments path))
    fun p => by
    rw [Tree.get?_removeBelow]
    by_cases hp : p = sidecar (Path.segments path)
    · simp [hp, hsidecar]
    · simp [hp]
  have hfirst : (Path.segments path).dropLast.head? ≠ some temporaryFolder :=
    head?_dropLast_ne hadmissible.first
  obtain ⟨tree', hrun, h'⟩ := hcut.prune hfirst
  refine ⟨tree', ?_, h'⟩
  have hask := h.rooted.isFolder_eq hadmissible.proper
  unfold removePlace
  rw [Os.runFrom_bind, Os.runFrom_ask, hask, hfolder]
  simp only [decide_true, if_true, if_neg hsome]
  rw [Os.runFrom_bind, Os.runFrom_perform, h.rooted.exec_removeTree hfolder]
  exact hrun

/-- The sidecar of a file goes after the file; there may be none. -/
theorem sidecar_removed (h : Mirrors tree table []) (hpath : Path.normalize path = path)
    (hroot : path ≠ Path.root) (hadmissible : Admissible path)
    (hf : table.files.get? path = some f) :
    ∃ tree', (Os.allowing (· = .noEntry)
        (Os.perform (.unlink (sidecar (Path.segments path))))).runFrom
        (tree.remove (Path.segments path)) = (.ok (), tree') ∧ tree'.Rooted ∧
      ∀ p, tree'.nodes.get? p = if p = sidecar (Path.segments path) then none
        else (tree.remove (Path.segments path)).nodes.get? p := by
  have hsome := Path.segments_ne_nil hpath hroot
  have hfile := h.files path f hf
  have hrooted := h.rooted.remove (h.rooted.leaf_of_file hfile)
  have hne : sidecar (Path.segments path) ≠ Path.segments path := fun heq =>
    hadmissible.not_sidecar hsome ⟨[], by rw [List.append_nil, heq]⟩
  have hsame : (tree.remove (Path.segments path)).nodes.get? (sidecar (Path.segments path)) =
      tree.nodes.get? (sidecar (Path.segments path)) := by
    rw [Tree.get?_remove, if_neg hne]
  unfold Os.allowing
  rw [Os.runFrom_tryCatch, Os.runFrom_perform]
  rcases h.sidecars path f hf with hthere | ⟨habsent, -⟩
  · rw [← hsame] at hthere
    rw [hrooted.exec_unlink hthere]
    exact ⟨_, rfl, hrooted.remove (hrooted.leaf_of_file hthere), fun p => Tree.get?_remove⟩
  · rw [← hsame] at habsent
    have hseat : (tree.remove (Path.segments path)).nodes.get?
        (sidecar (Path.segments path)).dropLast = some .folder := by
      rw [dropLast_sidecar, Tree.get?_remove, if_neg (dropLast_ne hsome),
        h.rooted.above_dropLast hfile hsome]
    rw [hrooted.exec_unlink_absent (hadmissible.proper_sidecar hsome) habsent
      (hrooted.not_blocked_of_folder hseat)]
    refine ⟨_, rfl, hrooted, fun p => ?_⟩
    split
    · next hp => rw [hp, habsent]
    · rfl

theorem remove_file (h : Mirrors tree table []) (hpath : Path.normalize path = path)
    (hroot : path ≠ Path.root) (hadmissible : Admissible path)
    (hf : table.files.get? path = some f) :
    ∃ tree', (removePlace (Path.segments path)).runFrom tree = (.ok (), tree') ∧
      Mirrors tree' (table.delete path) [] := by
  have hfile := h.files path f hf
  have hbelow : ∀ p, Path.segments path <+: p → p ≠ Path.segments path →
      tree.nodes.get? p = none := fun p hsub hne => h.rooted.none_below hfile hsub hne
  obtain ⟨tree₂, hrun₂, hrooted₂, hread₂⟩ := h.sidecar_removed hpath hroot hadmissible hf
  have hcut := h.cut hpath hroot hadmissible hfile hrooted₂ fun p => by
    rw [hread₂, Tree.get?_remove]
    by_cases hp : p = sidecar (Path.segments path)
    · simp [hp]
    · by_cases hp' : p = Path.segments path
      · simp [hp']
      · by_cases hsub : Path.segments path <+: p
        · simp [hp, hp', hbelow p hsub hp']
        · simp [hp, hp', hsub]
  obtain ⟨tree', hrun, h'⟩ := hcut.prune (head?_dropLast_ne hadmissible.first)
  refine ⟨tree', ?_, h'⟩
  have hask := h.rooted.isFolder_eq hadmissible.proper
  unfold removePlace
  rw [Os.runFrom_bind, Os.runFrom_ask, hask, hfile]
  simp only [Option.some.injEq, reduceCtorEq, decide_false, Bool.false_eq_true, if_false]
  rw [Os.runFrom_bind, Os.runFrom_get]
  simp only [h.rooted.exec_unlink hfile]
  rw [Os.runFrom_bind, Os.runFrom_set]
  dsimp only
  rw [Os.runFrom_bind, hrun₂]
  exact hrun

theorem remove_nothing (h : Mirrors tree table []) (hadmissible : Admissible path)
    (hnone : tree.nodes.get? (Path.segments path) = none)
    (hfree : ¬ tree.Blocked (Path.segments path)) :
    (removePlace (Path.segments path)).runFrom tree = (.ok (), tree) ∧
      Mirrors tree (table.delete path) [] := by
  have hask := h.rooted.isFolder_eq hadmissible.proper
  constructor
  · unfold removePlace
    rw [Os.runFrom_bind, Os.runFrom_ask, hask, hnone]
    simp only [reduceCtorEq, decide_false, Bool.false_eq_true, if_false]
    rw [Os.runFrom_bind, Os.runFrom_get]
    simp only [h.rooted.exec_unlink_absent hadmissible.proper hnone hfree]
    rfl
  · have hgone : table.files.get? path = none := by
      cases hf : table.files.get? path with
      | none => rfl
      | some f =>
        have hfile := h.files path f hf
        rw [hnone] at hfile
        simp at hfile
    have hholds : ¬ table.Holds path := by
      intro hheld
      have hfolder := h.folder_of_holds hheld
      rw [hnone] at hfolder
      simp at hfolder
    rw [Memory.Table.delete_of_nothing hgone hholds]
    exact h

/-- A path that lies under no file goes with all that it holds. -/
theorem remove (h : Mirrors tree table []) (hpath : Path.normalize path = path)
    (hroot : path ≠ Path.root) (hadmissible : Admissible path)
    (hfree : ∀ k f, table.files.get? k = some f → Path.isUnder path k = false) :
    ∃ tree', (removePlace (Path.segments path)).runFrom tree = (.ok (), tree') ∧
      Mirrors tree' (table.delete path) [] := by
  cases hn : tree.nodes.get? (Path.segments path) with
  | none =>
    have hclear : ¬ tree.Blocked (Path.segments path) := by
      rw [h.blocked_iff hadmissible]
      rintro ⟨k, f, hf, hunder⟩
      simp [hfree k f hf] at hunder
    obtain ⟨hrun, h'⟩ := h.remove_nothing hadmissible hn hclear
    exact ⟨tree, hrun, h'⟩
  | some n =>
    rcases h.node_cases hpath hadmissible hn with ⟨f, hf, -⟩ | ⟨rfl, -⟩
    · exact h.remove_file hpath hroot hadmissible hf
    · exact h.remove_folder hpath hroot hadmissible hn

end Mirrors

def clearName (name : String) : Os Unit := do
  if ← Os.ask (·.isFolder [name]) then Os.perform (.removeTree [name])
  else Os.perform (.unlink [name])

theorem clearName_spec {name : String} (h : tree.Rooted) (hn : tree.nodes.get? [name] = some n) :
    ∃ tree', (clearName name).runFrom tree = (.ok (), tree') ∧ tree'.Rooted ∧
      ∀ p, tree'.nodes.get? p = if [name] <+: p then none else tree.nodes.get? p := by
  have hask := h.isFolder_eq (h.proper _ n hn)
  unfold clearName
  rw [Os.runFrom_bind, Os.runFrom_ask, hask, hn]
  cases n with
  | folder =>
    simp only [decide_true, if_true]
    rw [Os.runFrom_perform, h.exec_removeTree hn]
    exact ⟨_, rfl, h.removeBelow [name], fun p => Tree.get?_removeBelow⟩
  | link target => exact absurd hn (h.free _ target)
  | file content =>
    simp only [Option.some.injEq, reduceCtorEq, decide_false, Bool.false_eq_true, if_false]
    rw [Os.runFrom_perform, h.exec_unlink hn]
    refine ⟨_, rfl, h.remove (h.leaf_of_file hn), fun p => ?_⟩
    rw [Tree.get?_remove]
    by_cases hp : p = [name]
    · simp [hp]
    · rw [if_neg hp]
      split
      · next hsub => exact h.none_below hn hsub hp
      · rfl

theorem clear_loop (names : List String) (hrooted : tree.Rooted) (hnodup : names.Nodup)
    (hthere : ∀ name ∈ names, ∃ n, tree.nodes.get? [name] = some n) :
    ∃ tree', Os.runFrom (names.forM clearName) tree = (.ok (), tree') ∧ tree'.Rooted ∧
      ∀ p, tree'.nodes.get? p =
        if ∃ name ∈ names, [name] <+: p then none else tree.nodes.get? p := by
  induction names generalizing tree with
  | nil => exact ⟨tree, rfl, hrooted, by simp⟩
  | cons name rest ih =>
    obtain ⟨n, hn⟩ := hthere name List.mem_cons_self
    obtain ⟨tree₁, hrun₁, hrooted₁, hread₁⟩ := clearName_spec hrooted hn
    rw [List.nodup_cons] at hnodup
    obtain ⟨tree', hrun, hrooted', hread⟩ := ih hrooted₁ hnodup.2 fun other hother => by
      obtain ⟨m, hm⟩ := hthere other (List.mem_cons_of_mem name hother)
      refine ⟨m, ?_⟩
      rw [hread₁, if_neg, hm]
      intro hsub
      have heq := (List.cons_prefix_cons.mp hsub).1
      exact hnodup.1 (heq ▸ hother)
    refine ⟨tree', ?_, hrooted', fun p => ?_⟩
    · rw [List.forM, Os.runFrom_bind, hrun₁]
      exact hrun
    · rw [hread, hread₁]
      by_cases hfirst : [name] <+: p
      · simp [hfirst]
      · simp [hfirst]

def Tree.Bare (t : Tree) : Prop :=
  ∀ p, t.nodes.get? p = if p = [] ∨ p = [temporaryFolder] then some .folder else none

theorem clear_spec (h : tree.Rooted) (hroot : tree.nodes.get? [] = some .folder)
    (hswept : tree.Swept) :
    ∃ tree', (removePlace []).runFrom tree = (.ok (), tree') ∧ tree'.Rooted ∧ tree'.Bare := by
  have hnames : ∀ name, name ∈ (tree.names []).filter (· ≠ temporaryFolder) ↔
      (∃ n, tree.nodes.get? [name] = some n) ∧ name ≠ temporaryFolder := by
    intro name
    rw [List.mem_filter, Tree.mem_names, List.nil_append, decide_eq_true_iff]
  obtain ⟨tree', hrun, hrooted', hread⟩ := clear_loop ((tree.names []).filter (· ≠ temporaryFolder))
    h ((Tree.names_nodup tree []).filter _) fun name hname => ((hnames name).mp hname).1
  refine ⟨tree', ?_, hrooted', fun p => ?_⟩
  · have hask := h.isFolder_eq Proper.nil
    unfold removePlace
    rw [Os.runFrom_bind, Os.runFrom_ask, hask, hroot]
    simp only [decide_true, if_true]
    unfold Disk.clear
    rw [Os.runFrom_bind, Os.runFrom_get]
    exact hrun
  · rw [hread]
    cases p with
    | nil => simp [hroot]
    | cons first rest =>
      by_cases hfirst : first = temporaryFolder
      · subst hfirst
        rw [if_neg]
        · cases rest with
          | nil => simp [hswept.there]
          | cons name more =>
            rw [if_neg (by simp), Option.eq_none_iff_forall_ne_some]
            intro n hn
            obtain ⟨m, hm⟩ := h.exists_above [temporaryFolder, name] more hn
            rw [hswept.bare] at hm
            simp at hm
        · rintro ⟨name, hname, hsub⟩
          exact ((hnames name).mp hname).2 (List.cons_prefix_cons.mp hsub).1
      · rw [if_neg (c := _ ∨ _) (by simp [hfirst]), ite_eq_left_iff,
          Option.eq_none_iff_forall_ne_some]
        intro hkept n hn
        have hmem := (hnames first).mpr ⟨h.exists_above [first] rest hn, hfirst⟩
        exact hkept ⟨first, hmem, rest, rfl⟩

theorem clear_nothing (h : tree.Rooted) (hroot : tree.nodes.get? [] = some .folder)
    (hnothing : ∀ name n, tree.nodes.get? [name] = some n → name = temporaryFolder) :
    (removePlace []).runFrom tree = (.ok (), tree) := by
  have hnames : (tree.names []).filter (· ≠ temporaryFolder) = [] := by
    rw [List.filter_eq_nil_iff]
    intro name hname
    obtain ⟨n, hn⟩ := Tree.mem_names.mp hname
    simp [hnothing name n hn]
  unfold removePlace
  rw [Os.runFrom_bind, Os.runFrom_ask, h.isFolder_eq Proper.nil, hroot]
  simp only [decide_true, if_true]
  unfold Disk.clear
  rw [Os.runFrom_bind, Os.runFrom_get]
  dsimp only
  rw [hnames]
  rfl

namespace Mirrors

theorem clear (h : Mirrors tree table []) :
    ∃ tree', (removePlace []).runFrom tree = (.ok (), tree') ∧
      Mirrors tree' (table.delete Path.root) [] := by
  obtain ⟨tree', hrun, hrooted', hbare⟩ := clear_spec h.rooted h.root h.swept
  refine ⟨tree', hrun, .of_bare hrooted' (by simp [hbare []]) (by simp [hbare [temporaryFolder]])
    (fun p n hp => ?_) (h.tidy.delete _) (Memory.Table.get?_delete_root h.tidy)⟩
  rw [hbare] at hp
  split at hp
  · next hkept => exact hkept
  · simp at hp

/-- New metadata go into the sidecar. -/
theorem annotate (h : Mirrors tree table []) (hpath : Path.normalize path = path)
    (hadmissible : Admissible path) (hf : table.files.get? path = some f) (m : Texts)
    (hset : table.setMetadata path (.ofTexts m) = .ok table') :
    ∃ tree', (Os.performAll [.create (sidecar (Path.segments path)),
        .extend (sidecar (Path.segments path)) (Bytes.utf8 (Json.ofTexts m).render)]).runFrom tree =
        (.ok (), tree') ∧ Mirrors tree' table' [] := by
  have htidy := h.tidy.setMetadata m hset
  have hsome := h.segments_ne_nil hf
  have hproper := hadmissible.proper_sidecar hsome
  have hseat : tree.Seated (sidecar (Path.segments path)) := by
    intro _
    rw [dropLast_sidecar]
    exact h.rooted.above_dropLast (h.files path f hf) hsome
  have hplain : tree.nodes.get? (sidecar (Path.segments path)) ≠ some .folder := by
    rcases h.sidecars path f hf with hthere | ⟨habsent, -⟩
    · simp [hthere]
    · simp [habsent]
  have hother : ∀ k g, table.files.get? k = some g →
      Path.segments k ≠ sidecar (Path.segments path) := fun k g hg heq =>
    (h.admissible k g hg).not_sidecar hsome (heq ▸ List.prefix_refl _)
  have hget : ∀ k, table'.files.get? k =
      if k = path then some { f with metadata := .ofTexts m } else table.files.get? k := by
    intro k
    simp only [Table.setMetadata, hf, Except.ok.injEq] at hset
    rw [← hset, OrderedMap.get?_insert]
  have hkeys : ∀ k g, table.files.get? k = some g → ∃ g', table'.files.get? k = some g' := by
    intro k g hg
    rw [hget]
    split
    · exact ⟨_, rfl⟩
    · exact ⟨g, hg⟩
  obtain ⟨tree', hrooted', hread, hrun⟩ := fill_spec h.rooted hproper hseat hplain
    (Bytes.utf8 (Json.ofTexts m).render)
  refine ⟨tree', hrun [], hrooted', htidy, ⟨?_, fun name => ?_⟩, fun k g hg => ?_, fun p hp => ?_,
    fun k g hg => ?_, fun k g hg => ?_, fun p n hn => ?_⟩
  · rw [hread, if_neg (sidecar_ne_temporary hsome).symm, h.swept.there]
  · rw [hread, if_neg, h.swept.bare]
    intro heq
    apply head?_dropLast_ne hadmissible.first
    rw [← dropLast_sidecar, ← heq]
    rfl
  · rw [hget] at hg
    split at hg
    · next hk => exact hk ▸ hadmissible
    · exact h.admissible k g hg
  · rw [List.prefix_nil.mp hp, hread, if_neg, h.root]
    simp [sidecar]
  · rw [hget] at hg
    split at hg
    · next hk =>
      rw [hk, hread, if_neg (hother path f hf), ← Option.some.inj hg]
      exact h.files path f hf
    · rw [hread, if_neg (hother k g hg)]
      exact h.files k g hg
  · rw [hget] at hg
    split at hg
    · next hk =>
      left
      rw [hk, hread, if_pos rfl, ← Option.some.inj hg]
      rfl
    · next hk =>
      rw [hread, if_neg]
      · exact h.sidecars k g hg
      · intro heq
        have hsegments := sidecar_injective (h.segments_ne_nil hg) hsome heq
        exact hk (Path.eq_of_segments (h.tidy.normal k g hg).1 hpath hsegments)
  · rw [hread] at hn
    split at hn
    · next hp => exact Or.inr (Or.inr (Or.inl ⟨path, _, by rw [hget, if_pos rfl], Or.inr hp⟩))
    · exact h.only_of_keys hkeys hn

end Mirrors

/-- A tree with nothing in it; its root may be there already. -/
def Tree.Untouched (t : Tree) : Prop := ∀ p n, t.nodes.get? p = some n → p = [] ∧ n = .folder

theorem untouched_empty : Tree.empty.Untouched := by
  intro p n hn
  simp [Tree.empty] at hn

/-- A store that is opened on an empty folder mirrors the empty table. -/
theorem mirrors_init (hfresh : tree.Untouched) (times : Times String) :
    ∃ tree', backend.init.runFrom tree = (.ok (), tree') ∧ Mirrors tree' (.empty times) [] := by
  have hrooted : tree.Rooted := by
    refine ⟨fun p name n hn => ?_, fun p target hn => ?_, fun p n hn => ?_⟩
    · simpa using (hfresh _ n hn).1
    · simpa using (hfresh p _ hn).2
    · rw [(hfresh p n hn).1]
      exact Proper.nil
  have hclear : tree.Clear [temporaryFolder] := by
    intro q content _ hfile
    simpa using (hfresh q _ hfile).2
  have hproper : Proper [temporaryFolder] := proper_temporary.sublist (by decide)
  obtain ⟨tree', hrun, hpaved⟩ := makeFolders_spec hrooted hproper hclear
  have hthere : tree'.nodes.get? [temporaryFolder] = some .folder := hpaved.folder
  have hroot : tree'.nodes.get? [] = some .folder := by
    rw [hpaved.2, if_pos List.nil_prefix]
  have honly : ∀ p n, tree'.nodes.get? p = some n → p = [] ∨ p = [temporaryFolder] := by
    intro p n hn
    rw [hpaved.2] at hn
    split at hn
    · next hp =>
      cases p with
      | nil => exact Or.inl rfl
      | cons first rest =>
        obtain ⟨rfl, hrest⟩ := List.cons_prefix_cons.mp hp
        rw [List.prefix_nil.mp hrest]
        exact Or.inr rfl
    · exact Or.inl (hfresh p n hn).1
  have hmirrors : Mirrors tree' (.empty times) [] :=
    .of_bare hpaved.1 hroot hthere honly .empty fun k => by simp [Table.empty]
  have hnames : tree'.namesIn [temporaryFolder] = [] := by
    rw [hpaved.1.namesIn_eq hthere, Tree.children_eq_nil]
    exact hmirrors.swept.bare
  have hclean : cleanTemporary.runFrom tree' = (.ok (), tree') := by
    unfold cleanTemporary
    rw [Os.runFrom_bind, Os.runFrom_get]
    dsimp only
    rw [hnames]
    rfl
  refine ⟨tree', ?_, hmirrors⟩
  change init.runFrom tree = _
  unfold init
  rw [Action.runFrom_bind, Os.runFrom_act, hrun]
  dsimp only [Except.mapError]
  rw [Os.runFrom_act, hclean]
  rfl

end Depot.Storage.Disk
