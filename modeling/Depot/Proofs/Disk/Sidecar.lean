import Depot.Proofs.Disk.Twins

/-!
The sidecar of a file through changes. It lasts as long as its file and is replaced by new
metadata alone; where a file has none, only new metadata bring one.
-/
namespace Depot.Storage.Disk

variable {t : Tree} {p : Place} {path : String} {content : Bytes} {m : Texts}

structure Tree.Noted (t : Tree) (p : Place) (m : Texts) : Prop where
  stored : ∃ content, t.nodes.get? p = some (.file content)
  note : t.nodes.get? (sidecar p) = some (.file (Bytes.utf8 (Json.ofTexts m).render))

def Tree.Unnoted (t : Tree) (p : Place) : Prop :=
  ∀ content, t.nodes.get? (sidecar p) ≠ some (.file content)

/-- Where there is no file there are no metadata. -/
theorem Tree.Orderly.unnoted (h : t.Orderly) (hsome : p ≠ [])
    (hnone : ∀ content, t.nodes.get? p ≠ some (.file content)) : t.Unnoted p := by
  intro content hfile
  obtain ⟨r, kept, m, hr, heq, -, hthere, -⟩ := h.attached _ content (isSidecar_sidecar p) hfile
  rw [← sidecar_injective hsome hr heq] at hthere
  exact hnone kept hthere

theorem Tree.Noted.readMetadata (hnoted : t.Noted p m) (h : t.Orderly) :
    readMetadata t p = .ok (Json.ofTexts m) := by
  have hdecode : Text.Codec.utf8.decode? (Bytes.utf8 (Json.ofTexts m).render) =
      some (Json.ofTexts m).render := Text.Codec.decodeUtf8?_utf8 _
  unfold Disk.readMetadata
  simp only [h.rooted.stat_of_node hnoted.note, hdecode, Option.map_some, Json.read_ofTexts]

theorem Tree.Unnoted.readMetadata (hunnoted : t.Unnoted p) (h : t.Orderly) (hclean : Clean p)
    (hsome : p ≠ []) : readMetadata t p = .ok .empty := by
  unfold Disk.readMetadata
  cases hstat : t.stat (sidecar p) with
  | error e => rfl
  | ok n =>
    have hn := (h.rooted.stat_eq_ok (clean_sidecar hclean hsome)).mp hstat
    cases n with
    | folder => rfl
    | link target => rfl
    | file content => exact absurd hn (hunnoted content)

def Supersedes (p : Place) : Change → Prop
  | .write .. => False
  | .delete paths => ∃ path ∈ paths, Path.segments (Path.orRoot path) <+: p
  | .annotate path _ => Path.segments (Path.orRoot path) = p

namespace Tree.Noted

theorem write (hnoted : t.Noted p m) (h : t.Orderly) (path : String) (data : Bytes)
    (append : Bool) : ((Disk.write path data append).runFrom t).2.Noted p m := by
  obtain ⟨⟨kept, hstored⟩, hnote⟩ := hnoted
  have hends := write_ends h path data append
  generalize (Disk.write path data append).runFrom t = ended at hends ⊢
  cases hends with
  | refused e hsame => exact ⟨⟨kept, hsame.nodes ▸ hstored⟩, hsame.nodes ▸ hnote⟩
  | abandoned e _ _ _ _ hgrown =>
    exact ⟨⟨kept, hgrown.kept _ _ hstored⟩, hgrown.kept _ _ hnote⟩
  | done hfree hwritten =>
    -- Nothing can have been written below a file.
    have hway : ∀ q content, t.nodes.get? q = some (.file content) → q ≠ Path.segments path →
        ¬ q <+: Path.segments path := by
      rintro q content hfile hne ⟨rest, hrest⟩
      exact hwritten.free ⟨q, rest, content, fun hnil => hne (by simpa [hnil] using hrest),
        hrest.symm, hfile⟩
    have hother : sidecar p ≠ Path.segments path := fun heq =>
      hfree (Or.inr (heq ▸ isSidecar_sidecar p))
    refine ⟨?_, ?_⟩
    · rw [hwritten.read]
      by_cases heq : p = Path.segments path
      · exact ⟨_, by rw [if_pos heq]⟩
      · exact ⟨kept, by rw [if_neg heq, if_neg (hway p kept hstored heq), hstored]⟩
    · rw [hwritten.read, if_neg hother, if_neg (hway _ _ hnote hother), hnote]

theorem setMetadata (hnoted : t.Noted p m) (h : t.Orderly) (hplain : ¬ IsSidecar p)
    (hother : Path.segments path ≠ p) (m' : Texts) :
    ((Disk.setMetadata path m').runFrom t).2.Noted p m := by
  obtain ⟨⟨kept, hstored⟩, hnote⟩ := hnoted
  have hends := annotate_ends h path m'
  generalize (Disk.setMetadata path m').runFrom t = ended at hends ⊢
  cases hends with
  | refused e => exact ⟨⟨kept, hstored⟩, hnote⟩
  | done content hfree hfile hrooted hread =>
    have hne : sidecar p ≠ sidecar (Path.segments path) := fun heq =>
      hother (sidecar_injective (h.ne_nil_of_file hstored) (h.ne_nil_of_file hfile) heq).symm
    refine ⟨⟨kept, ?_⟩, ?_⟩
    · rw [hread, if_neg fun heq : p = _ => hplain (heq ▸ isSidecar_sidecar _), hstored]
    · rw [hread, if_neg hne, hnote]

theorem delete (hnoted : t.Noted p m) (h : t.Orderly) (hplain : ¬ IsSidecar p)
    (hother : ¬ Path.segments path <+: p) : ((Disk.delete path).runFrom t).2.Noted p m := by
  obtain ⟨⟨kept, hstored⟩, hnote⟩ := hnoted
  have hsome := h.ne_nil_of_file hstored
  have hends := delete_ends h path
  generalize (Disk.delete path).runFrom t = ended at hends ⊢
  have hbelow : ¬ Reserved path → ¬ Path.segments path <+: sidecar p := by
    intro hfree hsub
    by_cases heq : Path.segments path = sidecar p
    · exact hfree (Or.inr (heq ▸ isSidecar_sidecar p))
    · have habove := prefix_dropLast hsub (hsub.length_le.lt_of_ne fun hlength =>
        heq (hsub.eq_of_length hlength))
      rw [dropLast_sidecar] at habove
      exact hother (habove.trans (List.dropLast_prefix p))
  cases hends with
  | refused e => exact ⟨⟨kept, hstored⟩, hnote⟩
  | ignored => exact ⟨⟨kept, hstored⟩, hnote⟩
  | emptied hroot => exact absurd (hroot ▸ List.nil_prefix) hother
  | halved e content hfree hfile hstuck =>
    refine ⟨⟨kept, ?_⟩, ?_⟩
    · rw [Tree.get?_remove, if_neg fun heq : p = _ => hother (heq ▸ List.prefix_refl _), hstored]
    · rw [Tree.get?_remove, if_neg fun heq : sidecar p = _ =>
        hbelow hfree (heq ▸ List.prefix_refl _), hnote]
  | taken n hfree hnamed hthere hable hcut =>
    refine ⟨⟨kept, ?_⟩, ?_⟩
    · rcases hcut.kept p _ hstored with hkept | (hsub | ⟨heq, -⟩) | ⟨hfolder, -⟩
      · exact hkept
      · exact absurd hsub hother
      · exact absurd (heq ▸ isSidecar_sidecar _) hplain
      · simp at hfolder
    · rcases hcut.kept _ _ hnote with hkept | (hsub | ⟨heq, -⟩) | ⟨hfolder, -⟩
      · exact hkept
      · exact absurd hsub (hbelow hfree)
      · exact absurd (sidecar_injective hsome hnamed heq ▸ List.prefix_refl _) hother
      · simp at hfolder

theorem apply (hnoted : t.Noted p m) (h : t.Orderly) (hplain : ¬ IsSidecar p) (c : Change)
    (hc : ¬ Supersedes p c) : (c.apply backend t).Noted p m := by
  cases c with
  | write path data append =>
    rw [Change.apply_write]
    cases filePath path with
    | error e => exact hnoted
    | ok q => exact hnoted.write h q data append
  | annotate path m' =>
    rw [Change.apply_annotate]
    cases hpath : filePath path with
    | error e => exact hnoted
    | ok q => exact hnoted.setMetadata h hplain (segments_of_filePath hpath ▸ hc) m'
  | delete paths =>
    have hpaths : ∀ q ∈ paths.map fun path => Path.normalize (Path.orRoot path),
        ¬ Path.segments q <+: p := by
      intro q hq hsub
      obtain ⟨path, hmem, rfl⟩ := List.mem_map.mp hq
      exact hc ⟨path, hmem, Path.segments_normalize _ ▸ hsub⟩
    rw [Change.apply_delete]
    generalize (paths.map fun path => Path.normalize (Path.orRoot path)) = names at hpaths ⊢
    induction names generalizing t with
    | nil => exact hnoted
    | cons q rest ih =>
      obtain ⟨hq, hrest⟩ := List.forall_mem_cons.mp hpaths
      exact ih (hnoted.delete h hplain hq) (h.delete q) hrest

theorem after (hnoted : t.Noted p m) (h : t.Orderly) (hplain : ¬ IsSidecar p)
    (changes : List Change) (hchanges : ∀ c ∈ changes, ¬ Supersedes p c) :
    (after backend t changes).Noted p m := by
  induction changes generalizing t with
  | nil => exact hnoted
  | cons c rest ih =>
    obtain ⟨hc, hrest⟩ := List.forall_mem_cons.mp hchanges
    exact ih (hnoted.apply h hplain c hc) (h.after [c]) hrest

end Tree.Noted

/-- A delete makes no files. -/
theorem Tree.Orderly.file_of_delete (h : t.Orderly)
    (hfile : ((Disk.delete path).runFrom t).2.nodes.get? p = some (.file content)) :
    t.nodes.get? p = some (.file content) := by
  have hends := delete_ends h path
  generalize (Disk.delete path).runFrom t = ended at hends hfile
  cases hends with
  | refused e => exact hfile
  | ignored => exact hfile
  | emptied hroot hrooted hbare =>
    rw [hbare] at hfile
    split at hfile <;> simp at hfile
  | halved e kept hfree hthere hstuck =>
    rw [Tree.get?_remove] at hfile
    split at hfile
    · simp at hfile
    · exact hfile
  | taken n hfree hnamed hthere hable hcut => exact hcut.old _ _ hfile

/-- A file is gone after its delete, also where its sidecar could not be removed. -/
theorem Tree.Orderly.no_file_of_delete (h : t.Orderly) (hfree : ¬ Reserved path)
    (hsome : Path.segments path ≠ []) :
    ((Disk.delete path).runFrom t).2.nodes.get? (Path.segments path) ≠ some (.file content) := by
  intro hfile
  have hold := h.file_of_delete hfile
  rcases delete_something h hfree hsome hold with ⟨_, _, _, hstate⟩ | ⟨_, hcut⟩
  · rw [hstate, Tree.get?_remove, if_pos rfl] at hfile
    simp at hfile
  · rw [hcut.gone _ (Or.inl (List.prefix_refl _))] at hfile
    simp at hfile

def Annotates (p : Place) : Change → Prop
  | .annotate path _ => Path.segments (Path.orRoot path) = p
  | _ => False

namespace Tree.Unnoted

theorem write (hunnoted : t.Unnoted p) (h : t.Orderly) (path : String) (data : Bytes)
    (append : Bool) : ((Disk.write path data append).runFrom t).2.Unnoted p := by
  intro content hfile
  have hends := write_ends h path data append
  generalize (Disk.write path data append).runFrom t = ended at hends hfile
  cases hends with
  | refused e hsame => exact hunnoted content (hsame.nodes ▸ hfile)
  | abandoned e _ _ _ _ hgrown =>
    rcases hgrown.new _ _ hfile with hold | ⟨hfolder, -⟩
    · exact hunnoted content hold
    · simp at hfolder
  | done hfree hwritten =>
    have hother : sidecar p ≠ Path.segments path := fun heq =>
      hfree (Or.inr (heq ▸ isSidecar_sidecar p))
    rw [hwritten.read, if_neg hother] at hfile
    split at hfile
    · simp at hfile
    · exact hunnoted content hfile

theorem delete (hunnoted : t.Unnoted p) (h : t.Orderly) (path : String) :
    ((Disk.delete path).runFrom t).2.Unnoted p :=
  fun content hfile => hunnoted content (h.file_of_delete hfile)

theorem setMetadata (hunnoted : t.Unnoted p) (h : t.Orderly) (hsome : p ≠ [])
    (hother : Path.segments path ≠ p) (m : Texts) :
    ((Disk.setMetadata path m).runFrom t).2.Unnoted p := by
  intro content hfile
  have hends := annotate_ends h path m
  generalize (Disk.setMetadata path m).runFrom t = ended at hends hfile
  cases hends with
  | refused e => exact hunnoted content hfile
  | done kept hfree hthere hrooted hread =>
    have hne : sidecar p ≠ sidecar (Path.segments path) := fun heq =>
      hother (sidecar_injective hsome (h.ne_nil_of_file hthere) heq).symm
    rw [hread, if_neg hne] at hfile
    exact hunnoted content hfile

theorem apply (hunnoted : t.Unnoted p) (h : t.Orderly) (hsome : p ≠ []) (c : Change)
    (hc : ¬ Annotates p c) : (c.apply backend t).Unnoted p := by
  cases c with
  | write path data append =>
    rw [Change.apply_write]
    cases filePath path with
    | error e => exact hunnoted
    | ok q => exact hunnoted.write h q data append
  | annotate path m =>
    rw [Change.apply_annotate]
    cases hpath : filePath path with
    | error e => exact hunnoted
    | ok q => exact hunnoted.setMetadata h hsome (segments_of_filePath hpath ▸ hc) m
  | delete paths =>
    rw [Change.apply_delete]
    induction paths.map fun p => Path.normalize (Path.orRoot p) generalizing t with
    | nil => exact hunnoted
    | cons path rest ih => exact ih (hunnoted.delete h path) (h.delete path)

theorem after (hunnoted : t.Unnoted p) (h : t.Orderly) (hsome : p ≠ []) (changes : List Change)
    (hchanges : ∀ c ∈ changes, ¬ Annotates p c) : (after backend t changes).Unnoted p := by
  induction changes generalizing t with
  | nil => exact hunnoted
  | cons c rest ih =>
    obtain ⟨hc, hrest⟩ := List.forall_mem_cons.mp hchanges
    exact ih (hunnoted.apply h hsome c hc) (h.after [c]) hrest

end Tree.Unnoted

end Depot.Storage.Disk
