import Depot.Proofs.Disk.Outcome
import Depot.Proofs.Storage.Change

/-!
What operations on a file tree keep, whatever they answer: sidecars belong to files and
nothing is left among the temporary files. As long as no name is refused half-way, no folder
is left empty either.
-/
namespace Depot.Storage.Disk

variable {t t' : Tree} {p q r : Place} {path name : String} {data content : Bytes} {append : Bool}
  {n : Node} {m : Texts}

/-- Something is in every folder but the two that are always there. -/
def Tree.Tended (t : Tree) : Prop :=
  ∀ p, t.nodes.get? p = some .folder → p ≠ [] → p ≠ [temporaryFolder] →
    ∃ name n, t.nodes.get? (p ++ [name]) = some n

namespace Tree.Orderly

theorem ne_nil_of_file (h : t.Orderly) (hfile : t.nodes.get? p = some (.file content)) :
    p ≠ [] := by
  rintro rfl
  rw [h.root] at hfile
  simp at hfile

/-- No file is among the temporary ones. -/
theorem first_of_file (h : t.Orderly) (hfile : t.nodes.get? p = some (.file content)) :
    p.head? ≠ some temporaryFolder := by
  intro hfirst
  obtain ⟨first, rest, rfl⟩ := List.exists_cons_of_ne_nil (h.ne_nil_of_file hfile)
  obtain rfl := Option.some.inj hfirst
  cases rest with
  | nil =>
    rw [h.swept.there] at hfile
    simp at hfile
  | cons name more =>
    obtain ⟨n, hn⟩ := h.rooted.exists_above [temporaryFolder, name] more hfile
    rw [h.swept.bare] at hn
    simp at hn

/-- A file that is no sidecar is stored under its path. -/
theorem free_of_file (h : t.Orderly)
    (hfile : t.nodes.get? (Path.segments path) = some (.file content))
    (hsidecar : ¬ IsSidecar (Path.segments path)) : ¬ Reserved path :=
  not_or.mpr ⟨h.first_of_file hfile, hsidecar⟩

theorem grown (h : t.Orderly) (hgrown : t.Grown t' p) (hother : p.head? ≠ some temporaryFolder) :
    t'.Orderly where
  rooted := hgrown.rooted
  root := hgrown.kept _ _ h.root
  swept := h.swept.grown hgrown hother
  attached q content hname hfile := by
    rcases hgrown.new q _ hfile with hold | ⟨hfolder, -⟩
    · obtain ⟨r, kept, m, hsome, hq, hr, hthere, hcontent⟩ := h.attached q content hname hold
      exact ⟨r, kept, m, hsome, hq, hr, hgrown.kept _ _ hthere, hcontent⟩
    · simp at hfolder

theorem written (h : t.Orderly) (hfree : ¬ Reserved path)
    (hwritten : t.Written t' (Path.segments path) content) : t'.Orderly := by
  obtain ⟨hfirst, hsidecar⟩ := not_or.mp hfree
  have hother : ∀ rest, ¬ temporaryFolder :: rest <+: Path.segments path := fun rest hsub =>
    hfirst (head?_of_initial hsub (by simp)).symm
  have hout : ∀ rest, temporaryFolder :: rest ≠ Path.segments path := fun rest heq =>
    hother rest (heq ▸ List.prefix_refl _)
  refine ⟨hwritten.rooted, ?_, ⟨?_, fun name => ?_⟩, fun q content hname hfile => ?_⟩
  · rw [hwritten.read, if_neg (Ne.symm hwritten.named), if_pos List.nil_prefix]
  · rw [hwritten.read, if_neg (hout []), if_neg (hother []), h.swept.there]
  · rw [hwritten.read, if_neg (hout [name]), if_neg (hother [name]), h.swept.bare]
  · rw [hwritten.read] at hfile
    split at hfile
    · next hq => exact absurd (hq ▸ hname) hsidecar
    · split at hfile
      · simp at hfile
      · obtain ⟨r, kept, m, hsome, hq, hr, hthere, hcontent⟩ := h.attached q content hname hfile
        by_cases hr' : r = Path.segments path
        · exact ⟨r, _, m, hsome, hq, hr, by rw [hwritten.read, if_pos hr'], hcontent⟩
        · refine ⟨r, kept, m, hsome, hq, hr, ?_, hcontent⟩
          rw [hwritten.read, if_neg hr', if_neg, hthere]
          rintro ⟨rest, hrest⟩
          refine hwritten.free ⟨r, rest, kept, ?_, hrest.symm, hthere⟩
          rintro rfl
          exact hr' (by simpa using hrest)

theorem annotated (h : t.Orderly) (hfree : ¬ IsSidecar p)
    (hfile : t.nodes.get? p = some (.file content)) (hrooted : t'.Rooted)
    (hread : ∀ q, t'.nodes.get? q =
      if q = sidecar p then some (.file (Bytes.utf8 (Json.ofTexts m).render))
      else t.nodes.get? q) : t'.Orderly := by
  have hsome := h.ne_nil_of_file hfile
  have hkept : ∀ r, ¬ IsSidecar r → t'.nodes.get? r = t.nodes.get? r := fun r hr => by
    rw [hread, if_neg fun heq : r = sidecar p => hr (heq ▸ isSidecar_sidecar p)]
  refine ⟨hrooted, ?_, ⟨?_, fun name => ?_⟩, fun q content' hname hfile' => ?_⟩
  · rw [hread, if_neg (by simp [sidecar]), h.root]
  · rw [hread, if_neg (sidecar_ne_temporary hsome).symm, h.swept.there]
  · rw [hread, if_neg, h.swept.bare]
    intro heq
    refine head?_dropLast_ne (h.first_of_file hfile) ?_
    rw [← dropLast_sidecar, ← heq]
    rfl
  · rw [hread] at hfile'
    split at hfile'
    · next hq =>
      refine ⟨p, content, m, hsome, hq, hfree, ?_, (Node.file.inj (Option.some.inj hfile')).symm⟩
      rw [hkept p hfree, hfile]
    · obtain ⟨r, kept, m', hsome', hq, hr, hthere, hcontent⟩ := h.attached q content' hname hfile'
      exact ⟨r, kept, m', hsome', hq, hr, (hkept r hr).trans hthere, hcontent⟩

/-- Everything may be taken away whose sidecar goes with it. -/
theorem lessened (h : t.Orderly) (hrooted : t'.Rooted)
    (hold : ∀ q n, t'.nodes.get? q = some n → t.nodes.get? q = some n)
    (hroot : t'.nodes.get? [] = some .folder)
    (hthere : t'.nodes.get? [temporaryFolder] = some .folder)
    (hfiles : ∀ r kept content, ¬ IsSidecar r → t.nodes.get? r = some (.file kept) →
      t'.nodes.get? (sidecar r) = some (.file content) → t'.nodes.get? r = some (.file kept)) :
    t'.Orderly where
  rooted := hrooted
  root := hroot
  swept := by
    refine ⟨hthere, fun name => ?_⟩
    rw [Option.eq_none_iff_forall_ne_some]
    intro n hn
    have hold := hold _ n hn
    rw [h.swept.bare] at hold
    simp at hold
  attached q content hname hfile := by
    obtain ⟨r, kept, m, hsome, rfl, hr, hthere, hcontent⟩ :=
      h.attached q content hname (hold q _ hfile)
    exact ⟨r, kept, m, hsome, rfl, hr, hfiles r kept content hr hthere hfile, hcontent⟩

theorem cut (h : t.Orderly) (hfree : ¬ Reserved path) (hsome : Path.segments path ≠ [])
    (hcut : t.Cut t' (Path.segments path)) : t'.Orderly := by
  obtain ⟨hfirst, hsidecar⟩ := not_or.mp hfree
  have hother : ∀ q, q ≠ [] → q <+: Path.segments path → q.head? ≠ some temporaryFolder :=
    fun q hq hsub hhead => hfirst (head?_of_initial hsub hq ▸ hhead)
  refine h.lessened hcut.rooted hcut.old ?_ ?_ fun r kept content hr hfile hattached => ?_
  · rcases hcut.kept [] _ h.root with hkept | (hsub | ⟨heq, -⟩) | ⟨-, hne, -⟩
    · exact hkept
    · exact absurd (List.prefix_nil.mp hsub) hsome
    · simp [sidecar] at heq
    · exact absurd rfl hne
  · rcases hcut.kept _ _ h.swept.there with hkept | (hsub | ⟨heq, -⟩) | ⟨-, hne, hsub⟩
    · exact hkept
    · exact absurd (head?_of_initial hsub hsome) hfirst
    · exact absurd heq.symm (sidecar_ne_temporary hsome)
    · exact absurd rfl (hother _ hne (hsub.trans (List.dropLast_prefix _)))
  · rcases hcut.kept r _ hfile with hkept | (hsub | ⟨heq, -⟩) | ⟨hfolder, -⟩
    · exact hkept
    · have halong : t.Along (Path.segments path) (sidecar r) := by
        by_cases hr' : Path.segments path = r
        · exact Or.inr ⟨by rw [hr'], kept, hr' ▸ hfile⟩
        · refine Or.inl ((prefix_dropLast hsub ?_).trans (List.prefix_append _ _))
          exact hsub.length_le.lt_of_ne fun hlength => hr' (hsub.eq_of_length hlength)
      rw [hcut.gone _ halong] at hattached
      simp at hattached
    · exact absurd (heq ▸ isSidecar_sidecar _) hr
    · simp at hfolder

/-- A file whose sidecar cannot be removed has none. -/
theorem removed (h : t.Orderly) (hsidecar : ¬ IsSidecar p)
    (hfile : t.nodes.get? p = some (.file content)) (hstuck : ¬ t.Detachable p) :
    (t.remove p).Orderly := by
  refine h.lessened (h.rooted.remove (h.rooted.leaf_of_file hfile)) (fun q n hn => ?_) ?_ ?_
    fun r kept content hr hthere hattached => ?_
  · rw [Tree.get?_remove] at hn
    split at hn
    · simp at hn
    · exact hn
  · rw [Tree.get?_remove, if_neg (h.ne_nil_of_file hfile).symm, h.root]
  · rw [Tree.get?_remove, if_neg, h.swept.there]
    rintro rfl
    exact h.first_of_file hfile rfl
  · have hother : r ≠ p := by
      rintro rfl
      rw [Tree.get?_remove, if_neg fun heq : sidecar r = r => hr (heq ▸ isSidecar_sidecar r)]
        at hattached
      exact hstuck ⟨h.rooted.proper _ _ hattached, by simp [hattached]⟩
    rw [Tree.get?_remove, if_neg hother, hthere]

theorem of_bare (hrooted : t.Rooted) (hbare : t.Bare) : t.Orderly where
  rooted := hrooted
  root := by simp [hbare []]
  swept := ⟨by simp [hbare [temporaryFolder]], fun name => by simp [hbare [temporaryFolder, name]]⟩
  attached q content _ hfile := by
    rw [hbare] at hfile
    split at hfile
    · simp at hfile
    · simp at hfile

theorem same (h : t.Orderly) (hsame : t.Same t') : t'.Orderly where
  rooted := hsame.rooted h.rooted
  root := by rw [hsame.nodes, h.root]
  swept := ⟨by rw [hsame.nodes, h.swept.there], fun name => by rw [hsame.nodes, h.swept.bare]⟩
  attached := by simpa only [hsame.nodes] using h.attached

/-- Every operation keeps the order, whether it goes through or fails. -/
theorem write (h : t.Orderly) (path : String) (data : Bytes) (append : Bool) :
    ((write path data append).runFrom t).2.Orderly := by
  have hends := write_ends h path data append
  generalize (Disk.write path data append).runFrom t = ended at hends ⊢
  cases hends with
  | refused e hsame hcause => exact h.same hsame
  | abandoned e hpasses himproper hwhole hmissing hgrown =>
    exact h.grown hgrown (head?_dropLast_ne (not_or.mp hpasses.free).1)
  | done hfree hwritten => exact h.written hfree hwritten

theorem delete (h : t.Orderly) (path : String) : ((delete path).runFrom t).2.Orderly := by
  have hends := delete_ends h path
  generalize (Disk.delete path).runFrom t = ended at hends ⊢
  cases hends with
  | refused e hcause => exact h
  | ignored hfree habsent hclear => exact h
  | emptied hroot hrooted hbare => exact .of_bare hrooted hbare
  | halved e content hfree hfile hstuck => exact h.removed (not_or.mp hfree).2 hfile hstuck
  | taken n hfree hsome hthere hable hcut => exact h.cut hfree hsome hcut

theorem setMetadata (h : t.Orderly) (path : String) (m : Texts) :
    ((setMetadata path m).runFrom t).2.Orderly := by
  have hends := annotate_ends h path m
  generalize (Disk.setMetadata path m).runFrom t = ended at hends ⊢
  cases hends with
  | refused e hcause => exact h
  | done content hfree hfile hrooted hread =>
      exact h.annotated (not_or.mp hfree).2 hfile hrooted hread

theorem edit (h : t.Orderly) (edit : Edit) : ((edit.act backend).runFrom t).2.Orderly := by
  cases edit with
  | write path data append => exact h.write path data append
  | delete path => exact h.delete path
  | setMetadata path m => exact h.setMetadata path m

theorem after (h : t.Orderly) (changes : List Change) : (after backend t changes).Orderly :=
  after_induction (fun c _ h => c.preserves (fun _ p data append h _ _ => h.write p data append)
    (fun _ p h _ => h.delete p) (fun _ p m h _ _ => h.setMetadata p m) h) changes h

end Tree.Orderly

/-- A store that is opened on an empty folder has only the two folders that are always there. -/
theorem init_bare (hfresh : t.Untouched) :
    ∃ t', backend.init.runFrom t = (.ok (), t') ∧ t'.Rooted ∧ t'.Bare := by
  obtain ⟨t', hrun, h⟩ := mirrors_init hfresh .still
  refine ⟨t', hrun, h.rooted, fun p => ?_⟩
  split
  · next hp =>
    rcases hp with rfl | rfl
    · exact h.root
    · exact h.swept.there
  · next hp =>
    rw [Option.eq_none_iff_forall_ne_some]
    intro n hn
    rcases h.only p n hn with hsub | htemporary | ⟨k, f, hf, -⟩ | ⟨q, -, ⟨k, f, hf, -⟩, -⟩
    · exact hp (Or.inl (List.prefix_nil.mp hsub))
    · exact hp (Or.inr htemporary)
    · simp [Memory.Table.empty] at hf
    · simp [Memory.Table.empty] at hf

theorem orderly_init (hfresh : t.Untouched) : (backend.init.runFrom t).2.Orderly := by
  obtain ⟨t', hrun, hrooted, hbare⟩ := init_bare hfresh
  rw [hrun]
  exact .of_bare hrooted hbare

/-- What is there after the first write. -/
theorem first_write (hfresh : t.Untouched) {file : Option String} (hpath : filePath file = .ok path)
    (hfree : ¬ Reserved path) (hproper : Proper (Path.segments path))
    (data : Bytes) (hsmall : data.length ≤ writeLimit) (append : Bool) :
    let s := after backend (backend.init.runFrom t).2 [.write file data append]
    s.Orderly ∧ ∀ p, s.nodes.get? p =
      if p = Path.segments path then some (.file data)
      else if p <+: Path.segments path ∨ p = [temporaryFolder] then some .folder else none := by
  obtain ⟨t₀, hrun, hrooted, hbare⟩ := init_bare hfresh
  have h : t₀.Orderly := .of_bare hrooted hbare
  have hsome := Path.segments_ne_nil (normalize_of_filePath hpath) (filePath_eq_ok.mp hpath).2
  have hnone : t₀.nodes.get? (Path.segments path) = none := by
    rw [hbare, if_neg]
    rintro (hroot | htemporary)
    · exact hsome hroot
    · exact hfree (Or.inl (by rw [htemporary]; rfl))
  obtain ⟨s, hwrite, hwritten⟩ := write_done h hfree hsome hproper (by simp [hnone]) (by
    rintro ⟨p, rest, content, -, -, hfile⟩
    rw [hbare] at hfile
    split at hfile <;> simp at hfile) data append
  have hstate : after backend (backend.init.runFrom t).2 [.write file data append] = s := by
    rw [hrun]
    change Change.apply backend _ t₀ = s
    rw [Change.apply_write, hpath]
    exact congrArg Prod.snd hwrite
  rw [hstate]
  refine ⟨h.written hfree hwritten, fun p => ?_⟩
  rw [hwritten.read, Tree.filled_new hnone hsmall, hbare]
  by_cases hp : p = Path.segments path
  · rw [if_pos hp, if_pos hp]
  · by_cases hroot : p = []
    · simp [hroot, Ne.symm hsome]
    · by_cases hsub : p <+: Path.segments path <;> simp [hp, hroot, hsub]

/-- Every state that changes lead to from an empty folder is in order. -/
theorem orderly_after (hfresh : t.Untouched) (changes : List Change) :
    (after backend (backend.init.runFrom t).2 changes).Orderly :=
  (orderly_init hfresh).after changes

namespace Tree.Tended

theorem of_bare (hbare : t.Bare) : t.Tended := by
  intro p hfolder hroot htemporary
  rw [hbare, if_neg (not_or.mpr ⟨hroot, htemporary⟩)] at hfolder
  simp at hfolder

theorem same (ht : t.Tended) (hsame : t.Same t') : t'.Tended := by
  simpa only [Tree.Tended, hsame.nodes] using ht

theorem written (ht : t.Tended) (hwritten : t.Written t' p content) : t'.Tended := by
  have hkept : ∀ q n, t.nodes.get? q = some n → ∃ n', t'.nodes.get? q = some n' := by
    intro q n hn
    rw [hwritten.read]
    split
    · exact ⟨_, rfl⟩
    · split
      · exact ⟨_, rfl⟩
      · exact ⟨n, hn⟩
  intro q hfolder hroot htemporary
  rw [hwritten.read] at hfolder
  split at hfolder
  · simp at hfolder
  · next hne =>
    split at hfolder
    · next hsub =>
      obtain ⟨name, rest, hrest⟩ := exists_next hsub hne
      refine ⟨name, hwritten.rooted.exists_above (q ++ [name]) rest (n := .file content) ?_⟩
      rw [hrest, hwritten.read, if_pos rfl]
    · obtain ⟨name, n, hn⟩ := ht q hfolder hroot htemporary
      exact ⟨name, hkept _ n hn⟩

theorem annotated (ht : t.Tended) (hread : ∀ q, t'.nodes.get? q =
      if q = sidecar p then some (.file content) else t.nodes.get? q) : t'.Tended := by
  intro q hfolder hroot htemporary
  rw [hread] at hfolder
  split at hfolder
  · simp at hfolder
  · obtain ⟨name, n, hn⟩ := ht q hfolder hroot htemporary
    refine ⟨name, ?_⟩
    rw [hread]
    split
    · exact ⟨_, rfl⟩
    · exact ⟨n, hn⟩

theorem cut (ht : t.Tended) (hsome : p ≠ []) (hcut : t.Cut t' p) : t'.Tended := by
  intro q hfolder hroot htemporary
  by_cases hway : q <+: p.dropLast
  · exact hcut.used q hroot hway hfolder
  have hlast : ∀ r : Place, r ≠ [] → p.dropLast = r.dropLast → ∀ name, q ++ [name] ≠ r := by
    rintro r - hr name rfl
    rw [List.dropLast_concat] at hr
    exact hway (hr ▸ List.prefix_refl _)
  obtain ⟨name, n, hn⟩ := ht q (hcut.old q _ hfolder) hroot htemporary
  refine ⟨name, n, (hcut.kept _ n hn).resolve_right ?_⟩
  rintro ((hsub | ⟨heq, -⟩) | ⟨-, -, hsub⟩)
  · rcases List.prefix_concat_iff.mp hsub with heq | hsub
    · exact hlast p hsome rfl name heq.symm
    · rw [hcut.gone q (Or.inl hsub)] at hfolder
      simp at hfolder
  · exact hlast _ (by simp [sidecar]) (dropLast_sidecar p).symm name heq
  · exact hway ((List.prefix_append q [name]).trans hsub)

/-- A folder that stands where the sidecar would keeps the folder of the file from being empty. -/
theorem removed (ht : t.Tended) (hsome : p ≠ []) (hsidecar : ¬ IsSidecar p)
    (hproper : Proper (sidecar p))
    (hstuck : ¬ t.Detachable p) : (t.remove p).Tended := by
  have hfolder : t.nodes.get? (sidecar p) = some .folder := by
    by_contra hplain
    exact hstuck ⟨hproper, hplain⟩
  intro q hq hroot htemporary
  rw [Tree.get?_remove] at hq
  split at hq
  · simp at hq
  · obtain ⟨name, n, hn⟩ := ht q hq hroot htemporary
    by_cases hlast : q ++ [name] = p
    · obtain ⟨init, last, rfl⟩ := List.eq_nil_or_concat p |>.resolve_left hsome
      rw [List.concat_eq_append] at hlast hfolder hsidecar ⊢
      obtain ⟨rfl, -⟩ := List.append_inj' hlast rfl
      rw [sidecar_concat] at hfolder
      refine ⟨last ++ sidecarExtension, .folder, ?_⟩
      rw [Tree.get?_remove, if_neg, hfolder]
      intro heq
      rw [← sidecar_concat] at heq
      exact hsidecar (heq ▸ isSidecar_sidecar _)
    · exact ⟨name, n, by rw [Tree.get?_remove, if_neg hlast, hn]⟩

theorem write (ht : t.Tended) (h : t.Orderly) (hproper : Proper (Path.segments path)) (data : Bytes)
    (append : Bool) : ((Disk.write path data append).runFrom t).2.Tended := by
  have hends := write_ends h path data append
  generalize (Disk.write path data append).runFrom t = ended at hends ⊢
  cases hends with
  | refused e hsame hcause => exact ht.same hsame
  | abandoned e hpasses himproper hwhole hmissing hgrown => exact absurd hproper himproper
  | done hfree hwritten => exact ht.written hwritten

theorem delete (ht : t.Tended) (h : t.Orderly) (hproper : Proper (sidecar (Path.segments path))) :
    ((Disk.delete path).runFrom t).2.Tended := by
  have hends := delete_ends h path
  generalize (Disk.delete path).runFrom t = ended at hends ⊢
  cases hends with
  | refused e hcause => exact ht
  | ignored hfree habsent hclear => exact ht
  | emptied hroot hrooted hbare => exact .of_bare hbare
  | halved e content hfree hfile hstuck =>
    exact ht.removed (h.ne_nil_of_file hfile) (not_or.mp hfree).2 hproper hstuck
  | taken n hfree hsome hthere hable hcut => exact ht.cut hsome hcut

theorem setMetadata (ht : t.Tended) (h : t.Orderly) (path : String) (m : Texts) :
    ((Disk.setMetadata path m).runFrom t).2.Tended := by
  have hends := annotate_ends h path m
  generalize (Disk.setMetadata path m).runFrom t = ended at hends ⊢
  cases hends with
  | refused e hcause => exact ht
  | done content hfree hfile hrooted hread => exact ht.annotated hread

end Tree.Tended

theorem proper_iff :
    Proper p ↔ (∀ name ∈ p, Path.Clean name) ∧ (∀ name ∈ p, name.utf8ByteSize ≤ nameLimit) ∧
      (∀ name ∈ p, '\x00' ∉ name.toList) ∧ Tree.isTooLong p = false :=
  ⟨fun h => ⟨h.clean, h.short, h.noNul, h.near⟩,
    fun ⟨clean, short, noNul, near⟩ => ⟨clean, short, noNul, near⟩⟩

instance (p : Place) : Decidable (Proper p) := decidable_of_iff _ proper_iff.symm

/-- The file system refuses no name that the change uses. Metadata may be refused. -/
def Accepted : Change → Prop
  | .write path _ _ => Proper (Path.segments (Path.orRoot path))
  | .delete paths => ∀ path ∈ paths, Proper (sidecar (Path.segments (Path.orRoot path)))
  | .annotate _ _ => True

instance : DecidablePred Accepted
  | .write _ _ _ => inferInstanceAs (Decidable (Proper _))
  | .delete _ => inferInstanceAs (Decidable (∀ _ ∈ _, _))
  | .annotate _ _ => inferInstanceAs (Decidable True)

/-- Changes that the file system accepts leave no folder empty. -/
theorem tended_apply {c : Change} (hc : Accepted c) (h : t.Orderly) (ht : t.Tended) :
    (c.apply backend t).Tended := by
  cases c with
  | write path data append =>
    rw [Change.apply_write]
    cases hpath : filePath path with
    | error e => exact ht
    | ok p =>
      obtain ⟨rfl, -⟩ := filePath_eq_ok.mp hpath
      have hproper : Proper (Path.segments (Path.normalize (Path.orRoot path))) := by
        rw [Path.segments_normalize]
        exact hc
      dsimp only [backend]
      exact ht.write h hproper data append
  | annotate path m =>
    rw [Change.apply_annotate]
    cases hpath : filePath path with
    | error e => exact ht
    | ok p =>
      exact ht.setMetadata h p m
  | delete paths =>
    rw [Change.apply_delete]
    change ∀ path ∈ paths, _ at hc
    induction paths generalizing t with
    | nil => exact ht
    | cons path rest ih =>
      obtain ⟨hfirst, hrest⟩ := List.forall_mem_cons.mp hc
      have hproper : Proper (sidecar (Path.segments (Path.normalize (Path.orRoot path)))) := by
        rw [Path.segments_normalize]
        exact hfirst
      rw [List.map_cons, List.foldl_cons]
      exact ih (h.delete (Path.normalize (Path.orRoot path))) (ht.delete h hproper) hrest

theorem tended_after (hfresh : t.Untouched) (changes : List Change)
    (haccepted : ∀ c ∈ changes, Accepted c) :
    (after backend (backend.init.runFrom t).2 changes).Tended := by
  obtain ⟨t', hrun, hrooted, hbare⟩ := init_bare hfresh
  have h : t'.Orderly := .of_bare hrooted hbare
  have ht : t'.Tended := .of_bare hbare
  rw [hrun]
  clear hrun hrooted hbare
  induction changes generalizing t' with
  | nil => exact ht
  | cons c rest ih =>
    obtain ⟨hc, hrest⟩ := List.forall_mem_cons.mp haccepted
    exact ih hrest _ (h.after [c]) (tended_apply hc h ht)

end Depot.Storage.Disk
