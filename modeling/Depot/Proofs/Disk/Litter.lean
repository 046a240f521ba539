import Depot.Proofs.Disk.Outcome
import Depot.Proofs.Disk.Trouble

/-!
What half-done operations may leave behind: temporary files, folders on the way, sidecars without
a file or cut short, folders of which only a part has been removed. All this may lie in a tree
that is sound, and on a sound tree every operation can go on.
-/
namespace Depot.Storage.Disk

variable {s t t' u : Tree} {p q : Place} {path name : String} {content data : Bytes} {n : Node}
  {short : Nat → Prop}

structure Tree.Sound (t : Tree) : Prop where
  rooted : t.Rooted
  root : t.nodes.get? [] = some .folder
  there : t.nodes.get? [temporaryFolder] = some .folder
  plain : ∀ name, t.nodes.get? [temporaryFolder, name] ≠ some .folder

theorem Tree.Orderly.sound (h : t.Orderly) : t.Sound where
  rooted := h.rooted
  root := h.root
  there := h.swept.there
  plain name := by simp [h.swept.bare]

theorem ne_temporary (hother : p.head? ≠ some temporaryFolder) (name : String) :
    p ≠ [temporaryFolder, name] := by
  rintro rfl
  exact hother rfl

/-- What is on the way to a place or below it begins like it. -/
theorem not_prefix_of_head? (hother : p.head? ≠ some temporaryFolder) (hsome : p ≠ [])
    (hq : q.head? = some temporaryFolder) : ¬ p <+: q := fun hsub =>
  hother ((head?_of_initial hsub hsome).trans hq)

theorem not_prefix_temporary (hother : p.head? ≠ some temporaryFolder) (name : String) :
    ¬ [temporaryFolder, name] <+: p := fun hsub =>
  hother (head?_of_initial hsub (by simp)).symm

/-- A sidecar does not lie among the temporary files if its file does not. -/
theorem head?_sidecar_ne (hother : p.head? ≠ some temporaryFolder) :
    (sidecar p).head? ≠ some temporaryFolder := by
  unfold sidecar
  cases hinit : p.dropLast with
  | nil =>
    intro heq
    have hname := isSidecarName_extended (p.getLastD "")
    rw [Option.some.inj heq] at hname
    exact absurd hname (by decide)
  | cons first rest =>
    rw [← head?_of_initial (List.dropLast_prefix p) (by simp [hinit]), hinit] at hother
    exact hother

namespace Tree.Sound

theorem ne_nil_of_file (h : t.Sound) (hfile : t.nodes.get? p = some (.file content)) :
    p ≠ [] := by
  rintro rfl
  simp [h.root] at hfile

theorem put_file (h : t.Sound) (hp : Proper p) (hseat : t.Seated p)
    (hplain : t.nodes.get? p ≠ some .folder) (content : Bytes) :
    (t.put p (.file content)).Sound where
  rooted := h.rooted.put hp hseat hplain (by simp)
  root := by
    rw [Tree.get?_put, if_neg, h.root]
    rintro rfl
    exact hplain h.root
  there := by
    rw [Tree.get?_put, if_neg, h.there]
    rintro rfl
    exact hplain h.there
  plain name := by
    rw [Tree.get?_put]
    split
    · simp
    · exact h.plain name

theorem grown (h : t.Sound) (hgrown : t.Grown t' p)
    (hother : ∀ name, ¬ [temporaryFolder, name] <+: p) : t'.Sound where
  rooted := hgrown.rooted
  root := hgrown.kept _ _ h.root
  there := hgrown.kept _ _ h.there
  plain name hfolder := by
    rcases hgrown.new _ _ hfolder with hold | ⟨-, hsub⟩
    · exact h.plain name hold
    · exact hother name hsub

theorem remove (h : t.Sound) (hleaf : ∀ name, t.nodes.get? (p ++ [name]) = none)
    (hroot : p ≠ []) (hown : p ≠ [temporaryFolder]) : (t.remove p).Sound where
  rooted := h.rooted.remove hleaf
  root := by rw [Tree.get?_remove, if_neg hroot.symm, h.root]
  there := by rw [Tree.get?_remove, if_neg hown.symm, h.there]
  plain name := by
    rw [Tree.get?_remove]
    split
    · simp
    · exact h.plain name

theorem remove_file (h : t.Sound) (hfile : t.nodes.get? p = some (.file content)) :
    (t.remove p).Sound := by
  refine h.remove (h.rooted.leaf_of_file hfile) (h.ne_nil_of_file hfile) ?_
  rintro rfl
  simp [h.there] at hfile

/-- A tree is sound if it is the same where the folders are that are always there. -/
theorem of_outside (h : s.Sound) (hrooted : t.Rooted) (hsome : p ≠ [])
    (hother : p.head? ≠ some temporaryFolder)
    (hsame : ∀ q, ¬ p <+: q → t.nodes.get? q = s.nodes.get? q) : t.Sound where
  rooted := hrooted
  root := by rw [hsame _ fun hsub => hsome (List.prefix_nil.mp hsub), h.root]
  there := by rw [hsame _ (not_prefix_of_head? hother hsome rfl), h.there]
  plain name := by
    rw [hsame _ (not_prefix_of_head? hother hsome rfl)]
    exact h.plain name

end Tree.Sound

/-! ### Temporary files -/

structure Tree.Littered (u t : Tree) : Prop where
  sound : t.Sound
  same : ∀ q, (∀ name, q ≠ [temporaryFolder, name]) → t.nodes.get? q = u.nodes.get? q

namespace Tree.Littered

theorem refl (h : u.Sound) : u.Littered u := ⟨h, fun _ _ => rfl⟩

theorem trans (h : s.Littered t) (h' : t.Littered u) : s.Littered u :=
  ⟨h'.sound, fun q hq => (h'.same q hq).trans (h.same q hq)⟩

theorem put (h : u.Littered t) (hp : Proper [temporaryFolder, name]) (content : Bytes) :
    u.Littered (t.put [temporaryFolder, name] (.file content)) where
  sound := h.sound.put_file hp (fun _ => h.sound.there) (h.sound.plain name) content
  same q hq := by rw [Tree.get?_put, if_neg (hq name), h.same q hq]

theorem remove (h : u.Littered t)
    (hfile : t.nodes.get? [temporaryFolder, name] = some (.file content)) :
    u.Littered (t.remove [temporaryFolder, name]) where
  sound := h.sound.remove_file hfile
  same q hq := by rw [Tree.get?_remove, if_neg (hq name), h.same q hq]

/-- What stands at a temporary file's place is a file. -/
theorem file_of_some (h : u.Littered t) (hn : t.nodes.get? [temporaryFolder, name] = some n) :
    ∃ content, n = .file content := by
  cases n with
  | file content => exact ⟨content, rfl⟩
  | folder => exact absurd hn (h.sound.plain name)
  | link target => exact absurd hn (h.sound.rooted.free _ target)

/-- The folders that are always there need not be made. -/
theorem of_grown (h : t.Sound) (hgrown : t.Grown t' [temporaryFolder]) : t.Littered t' where
  sound := h.grown hgrown fun name hsub => by
    have hlength := hsub.length_le
    simp at hlength
  same q _ := by
    cases hold : t.nodes.get? q with
    | some n => exact hgrown.kept q n hold
    | none =>
      rw [Option.eq_none_iff_forall_ne_some]
      intro n hn
      rcases hgrown.new q n hn with hthere | ⟨-, hsub⟩
      · simp [hold] at hthere
      · rcases List.prefix_concat_iff.mp (show q <+: [] ++ [temporaryFolder] from hsub) with
          rfl | hroot
        · exact absurd (hold.symm.trans h.there) (by simp)
        · rw [List.prefix_nil.mp hroot, h.root] at hold
          simp at hold

variable (hother : p.head? ≠ some temporaryFolder)
include hother

theorem seated_iff (h : u.Littered t) : t.Seated p ↔ u.Seated p := by
  unfold Tree.Seated
  rw [h.same _ (ne_temporary (head?_dropLast_ne hother))]

theorem node_eq (h : u.Littered t) : t.nodes.get? p = u.nodes.get? p :=
    h.same p (ne_temporary hother)

end Tree.Littered

structure Tree.Holding (t : Tree) (name : String) (content : Bytes) (u : Tree) : Prop where
  littered : t.Littered u
  file : u.nodes.get? [temporaryFolder, name] = some (.file content)

theorem Tree.Littered.holding (h : t.Littered u) (hp : Proper [temporaryFolder, name])
    (content : Bytes) : t.Holding name content (u.put [temporaryFolder, name] (.file content)) :=
  ⟨h.put hp content, by rw [Tree.get?_put, if_pos rfl]⟩

def Tree.Replaced (short : Nat → Prop) (t : Tree) (p : Place) (data : Bytes) (u : Tree) : Prop :=
  ∃ content, Takes short data content ∧ Proper p ∧ t.Seated p ∧ t.nodes.get? p ≠ some .folder ∧
    (t.put p (.file content)).Littered u

theorem Tree.Littered.replaced (h : t.Littered t') (hother : p.head? ≠ some temporaryFolder)
    (hreplaced : t'.Replaced short p data u) : t.Replaced short p data u := by
  obtain ⟨content, htakes, hp, hseat, hplain, hlittered⟩ := hreplaced
  refine ⟨content, htakes, hp, (h.seated_iff hother).mp hseat, h.node_eq hother ▸ hplain,
    hlittered.sound, fun q hq => ?_⟩
  rw [hlittered.same q hq, Tree.get?_put, Tree.get?_put, h.same q hq]

/-- The renaming puts the temporary file in the place of the old one. -/
theorem Tree.Holding.renamed (hu : t.Holding name content u) (hclean : Clean p)
    (hother : p.head? ≠ some temporaryFolder) (htakes : Takes short data content)
    (hexec : (Call.rename [temporaryFolder, name] p).exec u = .ok t') :
    t.Replaced short p data t' := by
  obtain ⟨h, hfile⟩ := hu
  obtain ⟨hp, hseat, hplain, rfl⟩ := h.sound.rooted.exec_rename_eq_ok hfile hclean hexec
  have hleft : t.Littered (u.remove [temporaryFolder, name]) := h.remove hfile
  have hseat' := (h.seated_iff hother).mp hseat
  have hplain' : t.nodes.get? p ≠ some .folder := h.node_eq hother ▸ hplain
  refine ⟨content, htakes, hp, hseat', hplain', hleft.sound.put_file hp
    ((hleft.seated_iff hother).mpr hseat') (hleft.node_eq hother ▸ hplain') content, fun q hq => ?_⟩
  rw [Tree.get?_put, Tree.get?_put, hleft.same q hq]

/-! ### Folders on the way -/

/-- A content in folders that have been made for it. -/
theorem Tree.Grown.written (hgrown : s.Grown t p.dropLast) (hsome : p ≠ []) (hp : Proper p)
    (hseat : t.Seated p) (hplain : t.nodes.get? p ≠ some .folder) (content : Bytes) :
    s.Written (t.put p (.file content)) p content := by
  have hfolder : ∀ q, q <+: p → q ≠ p → t.nodes.get? q = some .folder := by
    intro q hsub hne
    obtain ⟨rest, hrest⟩ := prefix_dropLast hsub
      (hsub.length_le.lt_of_ne fun hlength => hne (hsub.eq_of_length hlength))
    have hlast := hseat hsome
    rw [← hrest] at hlast
    by_cases hnil : rest = []
    · simpa [hnil] using hlast
    · exact hgrown.rooted.above_append hnil hlast
  refine ⟨hsome, hp, ?_, fun hthere => hplain (hgrown.kept _ _ hthere),
    hgrown.rooted.put hp hseat hplain (by simp), fun q => ?_⟩
  · rintro ⟨q, rest, kept, hrest, hsplit, hfile⟩
    have hthere := hfolder q ⟨rest, hsplit.symm⟩ (by simpa [hsplit] using hrest)
    rw [hgrown.kept _ _ hfile] at hthere
    simp at hthere
  · rw [Tree.get?_put]
    by_cases hq : q = p
    · rw [if_pos hq, if_pos hq]
    rw [if_neg hq, if_neg hq]
    split
    · next hsub => exact hfolder q hsub hq
    · next hsub =>
      cases hold : s.nodes.get? q with
      | some n => exact hgrown.kept q n hold
      | none =>
        rw [Option.eq_none_iff_forall_ne_some]
        intro n hn
        rcases hgrown.new q n hn with hthere | ⟨-, hway⟩
        · simp [hold] at hthere
        · exact hsub (hway.trans (List.dropLast_prefix p))

/-! ### What has been taken away -/

/-- Something of what is at a place or below it is gone. -/
structure Tree.Taken (s : Tree) (p : Place) (t : Tree) : Prop where
  sound : t.Sound
  outside : ∀ q, ¬ p <+: q → t.nodes.get? q = s.nodes.get? q
  inside : ∀ q, p <+: q → t.nodes.get? q = s.nodes.get? q ∨ t.nodes.get? q = none

namespace Tree.Taken

theorem refl (h : s.Sound) (p : Place) : s.Taken p s := ⟨h, fun _ _ => rfl, fun _ _ => .inl rfl⟩

theorem old (h : s.Taken p t) (hn : t.nodes.get? q = some n) : s.nodes.get? q = some n := by
  by_cases hsub : p <+: q
  · rcases h.inside q hsub with hsame | hnone
    · rw [← hsame, hn]
    · simp [hnone] at hn
  · rw [← h.outside q hsub, hn]

theorem trans (h : s.Taken p t) (h' : t.Taken (p ++ q) u) : s.Taken p u where
  sound := h'.sound
  outside r hr := by
    rw [h'.outside r fun hsub => hr ((List.prefix_append p q).trans hsub), h.outside r hr]
  inside r hr := by
    by_cases hsub : p ++ q <+: r
    · rcases h'.inside r hsub with hsame | hnone
      · exact (h.inside r hr).imp (hsame.trans ·) (hsame.trans ·)
      · exact Or.inr hnone
    · exact (h.inside r hr).imp ((h'.outside r hsub).trans ·) ((h'.outside r hsub).trans ·)

theorem remove_file (h : s.Sound) (hfile : s.nodes.get? p = some (.file content)) :
    s.Taken p (s.remove p) where
  sound := h.remove_file hfile
  outside q hq := by
    rw [Tree.get?_remove, if_neg]
    rintro rfl
    exact hq (List.prefix_refl q)
  inside q _ := by
    rw [Tree.get?_remove]
    split
    · exact Or.inr rfl
    · exact Or.inl rfl

variable (hsome : p ≠ []) (hother : p.head? ≠ some temporaryFolder)
include hsome hother

theorem removeBelow (h : s.Sound) : s.Taken p (s.removeBelow p) where
  sound := h.of_outside (h.rooted.removeBelow p) hsome hother fun q hq => by
    rw [Tree.get?_removeBelow, if_neg hq]
  outside q hq := by rw [Tree.get?_removeBelow, if_neg hq]
  inside q hq := Or.inr (by rw [Tree.get?_removeBelow, if_pos hq])

theorem emptied (h : s.Sound) (hemptied : s.Emptied p t) : s.Taken p t := by
  induction hemptied with
  | nothing => exact .refl h p
  | @more u q _ hbelow _ hleaf ih =>
    have houtside : ∀ r, ¬ p <+: r → (u.remove q).nodes.get? r = s.nodes.get? r := by
      intro r hr
      rw [Tree.get?_remove, if_neg fun heq : r = q => hr (heq ▸ hbelow), ih.outside r hr]
    refine ⟨h.of_outside (ih.sound.rooted.remove (Tree.children_eq_nil.mp hleaf)) hsome hother
      houtside, houtside, fun r hr => ?_⟩
    rw [Tree.get?_remove]
    split
    · exact Or.inr rfl
    · exact ih.inside r hr

end Tree.Taken

end Depot.Storage.Disk
