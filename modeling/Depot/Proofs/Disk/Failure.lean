import Depot.Proofs.Disk.Containment
import Depot.Proofs.Disk.Display
import Depot.Proofs.Disk.Interruption
import Depot.Proofs.Disk.Twins

/-!
Calls that fail. What can be checked is checked before anything is changed, but two refusals
of the file system come later than that: a last name is refused when the folders above it have
been made, and a sidecar when its file has been removed. Whatever else is refused leaves no trace
in what the store shows. An operation that fails for other reasons may leave folders above its
file, a first part of what it was to append or to note, or a part of what it was to remove.
-/
namespace Depot.Storage.Disk

variable {s t t' u : Tree} {p q : Place} {path file : String} {data content : Bytes} {e : Fault}
  {n : Node} {o : Listing.Options} {short : Nat → Prop} {P : Bytes → Prop} {edit : Edit}

/-! ### What is shown -/

structure Tree.Unchanged (s s' : Tree) : Prop where
  holds : ∀ path, backend.holds s' path = backend.holds s path
  read : ∀ path, backend.read s' path = backend.read s path
  entry? : ∀ path, backend.entry? s' path = backend.entry? s path
  listed : ∀ o, backend.listReport s' o = backend.listReport s o

namespace Tree.Same

variable (hsame : s.Same t)
include hsame

theorem isFile_eq (h : s.Orderly) (path : String) :
    t.isFile (Path.segments path) = s.isFile (Path.segments path) :=
  h.rooted.test_congr (hsame.rooted h.rooted) (clean_segments path)
    (fun q _ => by rw [hsame.nodes]) _

theorem isFolder_eq (h : s.Orderly) (path : String) :
    t.isFolder (Path.segments path) = s.isFolder (Path.segments path) :=
  h.rooted.test_congr (hsame.rooted h.rooted) (clean_segments path)
    (fun q _ => by rw [hsame.nodes]) _

/-- Dates count where something is, but not among the temporary files. -/
theorem entryOf_eq (h : s.Orderly) (hn : s.nodes.get? p = some n)
    (hother : p.head? ≠ some temporaryFolder) (withMetadata : Bool) :
    entryOf t p withMetadata = entryOf s p withMetadata := by
  have hrooted := hsame.rooted h.rooted
  have hn' : t.nodes.get? p = some n := by rw [hsame.nodes, hn]
  have hdate : modified t p = modified s p := by
    rw [hrooted.modified_eq hn', h.rooted.modified_eq hn, hsame.dates p hother]
  unfold entryOf
  simp only [h.rooted.stat_of_node hn, hrooted.stat_of_node hn', hdate]
  cases n with
  | folder => rfl
  | link target => rfl
  | file content =>
    have hmetadata : readMetadata t p = readMetadata s p :=
      h.rooted.readMetadata_congr hrooted (h.rooted.clean hn) (h.ne_nil_of_file hn)
        fun content => by rw [hsame.nodes]
    rw [hmetadata]

theorem levelItem_eq (h : s.Orderly) {name : String} (hn : s.nodes.get? (p ++ [name]) = some n)
    (hother : p.head? ≠ some temporaryFolder) (o : Listing.Options) :
    levelItem t p o name = levelItem s p o name := by
  have hn' : t.nodes.get? (p ++ [name]) = some n := by rw [hsame.nodes, hn]
  unfold levelItem
  simp only [h.rooted.stat_of_node hn, (hsame.rooted h.rooted).stat_of_node hn']
  by_cases htemporary : p = [] ∧ name = temporaryFolder
  · obtain ⟨rfl, rfl⟩ := htemporary
    rw [List.nil_append, h.swept.there] at hn
    obtain rfl := Option.some.inj hn
    rfl
  · have hplace : (p ++ [name]).head? ≠ some temporaryFolder := by
      cases p with
      | nil => simpa using htemporary
      | cons first rest => exact hother
    simp only [hsame.entryOf_eq h hn hplace]

theorem level_eq (h : s.Orderly) (path : String) (o : Listing.Options) :
    level t path o = level s path o := by
  by_cases hthere : ¬ Reserved path ∧ s.nodes.get? (Path.segments path) = some .folder
  · obtain ⟨hfree, hfolder⟩ := hthere
    have hfolder' : t.nodes.get? (Path.segments path) = some .folder := by
      rw [hsame.nodes, hfolder]
    have hchildren : t.children (Path.segments path) = s.children (Path.segments path) := by
      rw [Tree.children, Tree.children, Tree.names, Tree.names, hsame.nodes]
    have hitems : Mirrors.items t (Path.segments path) o =
        Mirrors.items s (Path.segments path) o := by
      rw [Mirrors.items, Mirrors.items, hchildren]
      refine List.filterMap_congr fun name hname => ?_
      obtain ⟨n, hn⟩ := Tree.mem_children.mp hname
      rw [hsame.levelItem_eq h hn (not_or.mp hfree).1 o]
    rw [(h.same hsame).level_eq hfree hfolder', h.level_eq hfree hfolder, hitems]
  · unfold level
    by_cases hfree : Reserved path
    · rw [place?_reserved hfree]
      rfl
    have hplain : s.isFolder (Path.segments path) ≠ .ok true := fun hask =>
      hthere ⟨hfree, (h.rooted.isFolder_iff (clean_segments path)).mp hask⟩
    simp only [place?_free hfree, ok_bind, hsame.isFolder_eq h]
    cases hask : s.isFolder (Path.segments path) with
    | error e => rfl
    | ok there =>
      cases there with
      | false => rfl
      | true => exact absurd hask hplain

/-- What cannot be told apart from the tree and the dates of what it shows. -/
theorem unchanged (h : s.Orderly) : s.Unchanged t where
  holds path := by
    change holds t path = holds s path
    unfold holds
    by_cases hfree : Reserved path
    · rw [place?_reserved hfree]
      rfl
    · simp only [place?_free hfree, ok_bind, hsame.isFile_eq h]
  read path := by
    have hstat : t.stat (Path.segments path) = s.stat (Path.segments path) :=
      h.rooted.stat_congr (hsame.rooted h.rooted) (clean_segments path) fun q _ => by
        rw [hsame.nodes]
    change read t path = read s path
    unfold read
    by_cases hfree : Reserved path
    · rw [place?_reserved hfree]
      rfl
    · simp only [place?_free hfree, ok_bind, hsame.isFile_eq h, hstat]
  entry? path := by
    change entry? t path = entry? s path
    unfold entry?
    by_cases hfree : Reserved path
    · rw [place?_reserved hfree]
      rfl
    simp only [place?_free hfree, ok_bind, hsame.isFile_eq h]
    cases hask : s.isFile (Path.segments path) with
    | error e => rfl
    | ok there =>
      cases there with
      | false => rfl
      | true =>
        obtain ⟨content, hfile⟩ := (h.rooted.isFile_iff (clean_segments path)).mp hask
        simp only [hsame.entryOf_eq h hfile (not_or.mp hfree).1]
  listed o := by
    have hreply : backend.level t = backend.level s := funext fun path =>
      funext fun o => hsame.level_eq h path o
    have hbound : backend.folders t = backend.folders s := by
      simp only [backend, Tree.folderBound, hsame.nodes]
    have hsource : backend.source t = backend.source s := by
      funext o
      rw [Backend.source, Backend.source, hreply, hbound]
    rw [Backend.listReport, Backend.listReport, hsource]

end Tree.Same

/-! ### Refusals -/

/-- The refusals that come when a call has begun to change the tree. -/
def Tree.Late (t : Tree) : Edit → Prop
  | .write path _ _ => t.Passes path ∧ ¬ Proper (Path.segments path) ∧
      Tree.hasNul (Path.segments path).dropLast = false ∧
      ∃ p, p <+: (Path.segments path).dropLast ∧ Proper p ∧ t.nodes.get? p = none
  | .delete path => holds t path = .ok true ∧ ¬ t.Detachable (Path.segments path)
  | .setMetadata _ _ => False

/-- A call that fails, but not late, has not begun. -/
theorem edit_early (h : t.Orderly) (hearly : ¬ t.Late edit)
    (hfails : ((edit.act backend).runFrom t).1 = .error e) :
    t.Same ((edit.act backend).runFrom t).2 := by
  cases edit with
  | write path data append =>
    have hends := write_ends h path data append
    change ((write path data append).runFrom t).1 = _ at hfails
    change t.Same ((write path data append).runFrom t).2
    generalize (write path data append).runFrom t = ended at hends hfails ⊢
    cases hends with
    | refused e' hsame hcause => exact hsame
    | abandoned e' hpasses himproper hwhole hmissing hgrown =>
      exact absurd ⟨hpasses, himproper, hwhole, hmissing⟩ hearly
    | done hfree hwritten => simp at hfails
  | delete path =>
    have hends := delete_ends h path
    change ((delete path).runFrom t).1 = _ at hfails
    change t.Same ((delete path).runFrom t).2
    generalize (delete path).runFrom t = ended at hends hfails ⊢
    cases hends with
    | refused e' hcause => exact .refl t
    | ignored hfree habsent hclear => exact .refl t
    | emptied hroot hrooted hbare => simp at hfails
    | halved e' content hfree hfile hstuck =>
      exact absurd ⟨h.rooted.holds_iff.mpr ⟨hfree, content, hfile⟩, hstuck⟩ hearly
    | taken n hfree hsome hthere hable hcut => simp at hfails
  | setMetadata path m =>
    have hends := annotate_ends h path m
    change ((setMetadata path m).runFrom t).1 = _ at hfails
    change t.Same ((setMetadata path m).runFrom t).2
    generalize (setMetadata path m).runFrom t = ended at hends hfails ⊢
    cases hends with
    | refused e' hcause => exact .refl t
    | done content hfree hfile hrooted hread => simp at hfails

/-- New folders leave every content as it was. -/
theorem read_after_write (h : t.Orderly) {append : Bool}
    (hfails : ((write path data append).runFrom t).1 = .error e) (file : String) :
    read ((write path data append).runFrom t).2 file = .ok content ↔ read t file = .ok content := by
  have hends := write_ends h path data append
  have h' := h.write path data append
  generalize (write path data append).runFrom t = ended at hends hfails h' ⊢
  cases hends with
  | refused e' hsame hcause => rw [h.rooted.read_iff, h'.rooted.read_iff, hsame.nodes]
  | done hfree hwritten => simp at hfails
  | abandoned e' hpasses himproper hwhole hmissing hgrown =>
    rw [h.rooted.read_iff, h'.rooted.read_iff]
    refine and_congr_right fun _ => ⟨fun hfile => ?_, hgrown.kept _ _⟩
    exact (hgrown.new _ _ hfile).resolve_right (by simp)

/-- A write is refused late if its folder can be made, but not a file of its name. -/
theorem late_write (h : t.Orderly) (hfree : ¬ Reserved path)
    (hfolder : Proper (Path.segments path).dropLast)
    (habsent : t.nodes.get? (Path.segments path).dropLast = none)
    (hclear : ¬ t.Blocked (Path.segments path)) (himproper : ¬ Proper (Path.segments path))
    (hnear : Tree.isTooLong (Path.segments path) = false) (data : Bytes) (append : Bool) :
    t.Late (.write path data append) := by
  have hsome : Path.segments path ≠ [] := fun hnil => himproper (hnil ▸ Proper.nil)
  have hfile : fileAbove t (Path.segments path) = .ok none :=
    ((fileAbove_spec h.rooted hfolder (by simp [h.root])).resolve_right
      fun hblocked => hclear hblocked.1).1
  have hask : t.isFolder (Path.segments path) = .ok false := by
    unfold Tree.isFolder Tree.test Tree.stat
    by_cases hnul : Tree.hasNul (Path.segments path) = true
    · simp [Tree.locate, hnul, Tree.meansAbsent]
    · have hsplit := List.dropLast_append_getLast hsome
      have hclean := clean_segments path
      have hway := (h.way hsome hfile).2
      have hlocate : t.locate .target (Path.segments path) = .error .noEntry := by
        rw [← hsplit] at hnul hnear hclean ⊢
        exact locate_stray h.rooted hclean ((Bool.not_eq_true _).mp hnul) hnear hway hfolder habsent
          (by simp)
      simp [hlocate, Tree.meansAbsent]
  exact ⟨⟨hfree, hsome, hask, hfile⟩, himproper, hfolder.hasNul, _, List.prefix_refl _, hfolder,
    habsent⟩

/-- A write that is refused late leaves folders behind. -/
theorem write_late (h : t.Orderly) {append : Bool}
    (hlate : t.Late (.write path data append)) :
    ∃ e t', (write path data append).runFrom t = (.error e, t') ∧
      t.Grown t' (Path.segments path).dropLast ∧
      ∃ p, p <+: (Path.segments path).dropLast ∧ t.nodes.get? p = none ∧
        t'.nodes.get? p = some .folder := by
  obtain ⟨hpasses, himproper, hwhole, p, hsub, hproper, hnone⟩ := hlate
  have hclean := (clean_segments path).dropLast
  have hmore := makeFolders_more h.rooted hclean hwhole (near_above hpasses.clear hwhole)
    (h.way hpasses.named hpasses.clear).2 hsub hproper hnone
  have hgrown := makeFolders_grown h.rooted hclean
  have hswept := h.swept.grown hgrown (head?_dropLast_ne (not_or.mp hpasses.free).1)
  rcases hmade : (makeFolders (Path.segments path).dropLast).runFrom t with ⟨answer, t'⟩
  rw [hmade] at hmore hgrown hswept
  rw [write_started hpasses, Os.runFrom_act, Os.runFrom_bind, hmade]
  cases answer with
  | error e => exact ⟨e.toFault, t', rfl, hgrown, hmore⟩
  | ok _ =>
    obtain ⟨e, t₂, hfill, hsame⟩ :=
      fill_refused hgrown.rooted hswept (clean_segments path) himproper data append
    refine ⟨e.toFault, t₂, ?_, hgrown.trans (.of_same hgrown.rooted hsame _)
      (List.prefix_refl _), ?_⟩
    · dsimp only
      rw [hfill]
      rfl
    · simpa only [hsame.nodes] using hmore

theorem read_removed (h : t.Orderly) (h' : (t.remove p).Orderly) (file : String) :
    read (t.remove p) file = .ok content ↔ read t file = .ok content ∧ Path.segments file ≠ p := by
  rw [h.rooted.read_iff, h'.rooted.read_iff, Tree.get?_remove]
  by_cases hfile : Path.segments file = p <;> simp [hfile]

/-- A delete whose sidecar cannot be removed fails, but its file is gone. -/
theorem delete_late (h : t.Orderly) (hlate : t.Late (.delete path)) :
    ∃ e, (delete path).runFrom t = (.error e, t.remove (Path.segments path)) := by
  obtain ⟨hholds, hstuck⟩ := hlate
  obtain ⟨hfree, content, hfile⟩ := h.rooted.holds_iff.mp hholds
  have hends := delete_ends h path
  generalize (delete path).runFrom t = ended at hends ⊢
  cases hends with
  | refused e hcause =>
    rcases hcause with hcause | hcause | hcause
    · exact absurd hcause hfree
    · exact absurd (h.rooted.proper _ _ hfile) hcause
    · exact absurd hcause (h.rooted.not_blocked hfile)
  | ignored _ habsent _ => simp [habsent] at hfile
  | emptied hroot _ _ => exact absurd hroot (h.ne_nil_of_file hfile)
  | halved e _ _ _ _ => exact ⟨e, rfl⟩
  | taken n _ _ hthere hable _ =>
    obtain rfl := Option.some.inj (hthere.symm.trans hfile)
    exact absurd (hable content rfl) hstuck

/-- An operation that is refused late has changed something, but no content, and it has taken no
file away but the one that was to be deleted. -/
theorem edit_late (h : s.Orderly) (hlate : s.Late edit)
    (hfails : ((edit.act backend).runFrom s).1 = .error e) :
    ¬ s.Same ((edit.act backend).runFrom s).2 ∧
      ∀ file content, backend.read ((edit.act backend).runFrom s).2 file = .ok content ↔
        backend.read s file = .ok content ∧
          ∀ path, edit = .delete path → Path.normalize file ≠ Path.normalize path := by
  have h' : ((edit.act backend).runFrom s).2.Orderly := h.edit edit
  cases edit with
  | setMetadata path m => exact hlate.elim
  | write path data append =>
    obtain ⟨e', left, hrun, -, p, -, hnone, hmade⟩ := write_late h hlate
    refine ⟨fun hsame => ?_, fun file content => ?_⟩
    · have hstate : (((Edit.write path data append).act backend).runFrom s).2 = left :=
        congrArg Prod.snd hrun
      rw [hstate] at hsame
      rw [hsame.nodes, hnone] at hmade
      simp at hmade
    · rw [and_iff_left (by simp)]
      exact read_after_write h hfails file
  | delete path =>
    obtain ⟨e', hrun⟩ := delete_late h hlate
    have hstate : ((Edit.delete path).act backend).runFrom s =
        (.error e', s.remove (Path.segments path)) := hrun
    rw [hstate] at h' ⊢
    obtain ⟨-, content, hfile⟩ := h.rooted.holds_iff.mp hlate.1
    refine ⟨fun hsame => ?_, fun file content => ?_⟩
    · rw [← hsame.nodes, Tree.get?_remove, if_pos rfl] at hfile
      simp at hfile
    · have hother : (∀ path', Edit.delete path = .delete path' →
          Path.normalize file ≠ Path.normalize path') ↔
            Path.segments file ≠ Path.segments path :=
        ⟨fun hall heq => hall path rfl (Path.normalize_eq_iff.mpr heq), fun hne path' hpath heq =>
          hne (Edit.delete.inj hpath ▸ Path.normalize_eq_iff.mp heq)⟩
      rw [hother]
      exact read_removed h h' file

/-! ### Failures of other kinds -/

/-- What may have become of a store when an operation has failed. -/
structure Tree.Spared (s : Tree) (edit : Edit) (s' : Tree) : Prop where
  /-- Only an append can have changed a content, by a first part of its data. -/
  read : ∀ file content, backend.read s' file = .ok content →
    backend.read s file = .ok content ∨ ∃ path data n, edit = .write path data true ∧
      Path.normalize file = Path.normalize path ∧
      content = (backend.read s file).toOption.getD [] ++ data.take n
  /-- Only a delete can have taken a file away. -/
  kept : ∀ file content, backend.read s file = .ok content →
    (∃ content', backend.read s' file = .ok content' ∧ content <+: content') ∨
      ∃ path, edit = .delete path ∧ Path.segments path <+: Path.segments file
  /-- A delete can have taken metadata away before their file; new metadata can be cut short. -/
  metadata : ∀ file e, backend.entry? s' file = .ok (some e) →
    readMetadata s (Path.segments file) = .ok e.metadata ∨
      (e.metadata = .empty ∧
        ∃ path, edit = .delete path ∧ Path.segments path <+: Path.segments file) ∨
      ∃ path m, edit = .setMetadata path m ∧ Path.normalize file = Path.normalize path
  /-- Only a write can have made folders, above its file. -/
  folder : ∀ p, s'.nodes.get? p = some .folder → s.nodes.get? p = some .folder ∨
    ∃ path data append, edit = .write path data append ∧ p <+: (Path.segments path).dropLast
  folderKept : ∀ p, s.nodes.get? p = some .folder → s'.nodes.get? p = some .folder ∨
    ∃ path, edit = .delete path ∧ Path.segments path <+: p

theorem Tree.Rooted.toOption_read (h : s.Rooted) (hfree : ¬ Reserved path) :
    (read s path).toOption.getD [] = s.contentAt (Path.segments path) := by
  unfold Tree.contentAt
  cases hread : read s path with
  | ok content => simp [(h.read_iff.mp hread).2, Except.toOption]
  | error e =>
    cases hn : s.nodes.get? (Path.segments path) with
    | none => rfl
    | some n =>
      cases n with
      | folder => rfl
      | link target => rfl
      | file content => simp [h.read_of_file hfree hn] at hread

/-- A write has to do with no sidecar. -/
theorem Tree.Interrupted.readMetadata_eq (h : s.Sound) (ht : s.Interrupted path P t) {file : String}
    (hfree : ¬ Reserved file) (hsome : Path.segments file ≠ []) :
    readMetadata t (Path.segments file) = readMetadata s (Path.segments file) :=
  h.rooted.readMetadata_congr ht.sound.rooted (clean_segments file) hsome fun _ =>
    ht.file_iff (head?_sidecar_ne (not_or.mp hfree).1) fun hown heq =>
      ne_sidecar_of_free hown _ heq.symm

/-- A file reads as before, or a part of what was to be appended stands behind it. -/
theorem Tree.Interrupted.read_cases {append : Bool} (h : s.Sound)
    (ht : s.Interrupted path
      (fun content => append = true ∧ s.Filling short path data append content) t)
    {file : String} (hfree : ¬ Reserved file) :
    (∃ n, append = true ∧ Path.normalize file = Path.normalize path ∧
      read t file = .ok ((read s file).toOption.getD [] ++ data.take n)) ∨
    ∀ content, read t file = .ok content ↔ read s file = .ok content := by
  simp only [ht.sound.rooted.read_iff, h.rooted.read_iff, h.rooted.toOption_read hfree]
  by_cases heq : Path.segments file = Path.segments path
  case neg =>
    exact Or.inr fun content => and_congr_right fun _ =>
      ht.file_iff (not_or.mp hfree).1 fun _ => heq
  rw [heq]
  rcases ht.file_at (by rwa [Reserved, ← heq]) with ⟨content, ⟨rfl, n, rfl⟩, hfile⟩ | hsame
  · exact Or.inl ⟨n, rfl, Path.normalize_eq_iff.mpr heq, hfree, hfile⟩
  · exact Or.inr fun content => and_congr_right fun _ => hsame content

/-- Metadata are those that were there if their sidecar is the same. -/
theorem Tree.Sound.metadata_of_entry (h : s.Sound) (ht : t.Sound) {file : String}
    {e : Entry} (hentry : backend.entry? t file = .ok (some e))
    (hsame : ¬ Reserved file → ∀ content,
      t.nodes.get? (sidecar (Path.segments file)) = some (.file content) ↔
        s.nodes.get? (sidecar (Path.segments file)) = some (.file content)) :
    readMetadata s (Path.segments file) = .ok e.metadata := by
  obtain ⟨hfree, content, kept, hfile, hkept, rfl⟩ := ht.rooted.entry?_iff.mp hentry
  refine Eq.trans ?_ hkept
  exact (h.rooted.readMetadata_congr ht.rooted (clean_segments file) (ht.ne_nil_of_file hfile)
    (hsame hfree)).symm

/-- A write that fails has at most appended a part of its data. -/
theorem Tree.Interrupted.spared {append : Bool} (h : s.Sound)
    (ht : s.Interrupted path
      (fun content => append = true ∧ s.Filling short path data append content) t) :
    s.Spared (.write path data append) t := by
  have hsound : t.Sound := ht.sound
  refine ⟨fun file content hnew => ?_, fun file content hold => ?_, fun file e hentry => ?_,
    fun p hfolder => ?_, fun p hfolder => Or.inl ?_⟩
  · obtain ⟨hfree, -⟩ := hsound.rooted.read_iff.mp hnew
    rcases ht.read_cases h hfree with ⟨n, rfl, hsame, hfile⟩ | hsame
    · exact Or.inr ⟨path, data, n, rfl, hsame, Except.ok.inj (hnew.symm.trans hfile)⟩
    · exact Or.inl ((hsame content).mp hnew)
  · obtain ⟨hfree, -⟩ := h.rooted.read_iff.mp hold
    refine Or.inl ?_
    rcases ht.read_cases h hfree with ⟨n, -, -, hfile⟩ | hsame
    · rw [show read s file = _ from hold] at hfile
      exact ⟨_, hfile, List.prefix_append _ _⟩
    · exact ⟨content, (hsame content).mpr hold, List.prefix_refl _⟩
  · exact Or.inl (h.metadata_of_entry hsound hentry fun hfree content =>
      ht.file_iff (head?_sidecar_ne (not_or.mp hfree).1) fun hfree' heq =>
        ne_sidecar_of_free hfree' _ heq.symm)
  · obtain ⟨u, hu, hlittered⟩ := ht
    rw [hlittered.same p fun name heq => hsound.plain name (heq ▸ hfolder)] at hfolder
    exact (hu.folder_of hfolder).imp_right fun hnew => ⟨path, data, append, rfl, hnew.2⟩
  · obtain ⟨u, hu, hlittered⟩ := ht
    rw [hlittered.same p fun name heq => h.plain name (heq ▸ hfolder)]
    exact hu.folder_kept hfolder

/-- A sidecar goes with its file, unless it is what is taken. -/
theorem Tree.Taken.sidecar_or (ht : s.Taken p t) (hp : ¬ IsSidecar p) (q : Place) :
    t.nodes.get? (sidecar q) = s.nodes.get? (sidecar q) ∨
      p <+: q ∧ t.nodes.get? (sidecar q) = none := by
  by_cases hsub : p <+: sidecar q
  · refine (ht.inside _ hsub).imp_right fun hnone => ⟨?_, hnone⟩
    obtain hwhole | hinit := List.prefix_concat_iff.mp hsub
    · exact absurd (hwhole ▸ isSidecar_sidecar q) hp
    · exact hinit.trans (List.dropLast_prefix q)
  · exact Or.inl (ht.outside _ hsub)

/-- A delete that fails has at most taken a part of what is at its path or below it. -/
theorem Tree.Taken.spared (h : s.Sound) (ht : s.Taken (Path.segments path) t)
    (hreserved : Reserved path → t = s) : s.Spared (.delete path) t := by
  have hsound : t.Sound := ht.sound
  refine ⟨fun file content hnew => ?_, fun file content hold => ?_, fun file e hentry => ?_,
    fun p hfolder => Or.inl (ht.old hfolder), fun p hfolder => ?_⟩
  · obtain ⟨hfree, hfile⟩ := hsound.rooted.read_iff.mp hnew
    exact Or.inl (h.rooted.read_of_file hfree (ht.old hfile))
  · obtain ⟨hfree, hfile⟩ := h.rooted.read_iff.mp hold
    by_cases hsub : Path.segments path <+: Path.segments file
    · exact Or.inr ⟨path, rfl, hsub⟩
    · refine Or.inl ⟨content, hsound.rooted.read_of_file hfree ?_, List.prefix_refl _⟩
      rw [ht.outside _ hsub, hfile]
  · by_cases hown : Reserved path
    · rw [hreserved hown] at hentry
      exact Or.inl (h.metadata_of_entry h hentry fun _ _ => Iff.rfl)
    rcases ht.sidecar_or (not_or.mp hown).2 (Path.segments file) with hsame | ⟨hsub, hnone⟩
    · exact Or.inl (h.metadata_of_entry hsound hentry fun _ content => by rw [hsame])
    · obtain ⟨-, content, kept, hfile, hkept, rfl⟩ := hsound.rooted.entry?_iff.mp hentry
      rw [hsound.rooted.readMetadata_of_none (clean_segments file) (hsound.ne_nil_of_file hfile)
        (by simp [hnone])] at hkept
      exact Or.inr (Or.inl ⟨(Except.ok.inj hkept).symm, path, rfl, hsub⟩)
  · by_cases hsub : Path.segments path <+: p
    · exact Or.inr ⟨path, rfl, hsub⟩
    · exact Or.inl (by rw [ht.outside p hsub, hfolder])

/-- New metadata have to do with one sidecar. -/
theorem Tree.Scribbled.spared {m : Texts} (h : s.Sound) (ht : s.Scribbled path m t) :
    s.Spared (.setMetadata path m) t := by
  have hsound : t.Sound := ht.sound h
  have hsame : ∀ q, q ≠ sidecar (Path.segments path) → t.nodes.get? q = s.nodes.get? q := by
    intro q hq
    cases ht with
    | before => rfl
    | amid n hfree hfile hplain hsound hread => rw [hread, if_neg hq]
  have hfile : ∀ file content, ¬ Reserved file →
      (t.nodes.get? (Path.segments file) = some (.file content) ↔
        s.nodes.get? (Path.segments file) = some (.file content)) := by
    intro file content hfree
    rw [hsame _ (ne_sidecar_of_free hfree _)]
  refine ⟨fun file content hnew => Or.inl ?_, fun file content hold => Or.inl ?_,
    fun file e hentry => ?_, fun p hfolder => Or.inl ?_, fun p hfolder => Or.inl ?_⟩
  · obtain ⟨hfree, hnew⟩ := hsound.rooted.read_iff.mp hnew
    exact h.rooted.read_of_file hfree ((hfile file content hfree).mp hnew)
  · obtain ⟨hfree, hold⟩ := h.rooted.read_iff.mp hold
    exact ⟨content, hsound.rooted.read_of_file hfree ((hfile file content hfree).mpr hold),
      List.prefix_refl _⟩
  · by_cases heq : Path.segments file = Path.segments path
    · exact Or.inr (Or.inr ⟨path, m, rfl, Path.normalize_eq_iff.mpr heq⟩)
    refine Or.inl (h.metadata_of_entry hsound hentry fun _ content => ?_)
    obtain ⟨-, own, -, hown, -⟩ := hsound.rooted.entry?_iff.mp hentry
    cases ht with
    | before => rfl
    | amid n hfree' hfile' hplain hsound' hread =>
      obtain ⟨content', hfile'⟩ := hfile'
      rw [hread, if_neg fun hsidecar => heq (sidecar_injective (hsound.ne_nil_of_file hown)
        (h.ne_nil_of_file hfile') hsidecar)]
  · cases ht with
    | before => exact hfolder
    | amid n hfree hfile hplain hsound hread =>
      rw [hread] at hfolder
      split at hfolder
      · simp at hfolder
      · exact hfolder
  · cases ht with
    | before => exact hfolder
    | amid n hfree hfile hplain hsound hread =>
      rw [hread, if_neg, hfolder]
      rintro rfl
      exact hplain hfolder

/-- However an operation fails, it has done no more than a part of what it was to do. -/
theorem spared_edit (h : s.Sound)
    (hends : (Script.ofEdit edit).Ends short s (.answered (.error e)) t) : s.Spared edit t := by
  cases edit with
  | write path data append => exact (Script.interrupted_write h path data append _ t hends).spared h
  | delete path =>
    obtain ⟨ht, hreserved⟩ := Script.taken_delete h path _ t hends
    exact ht.spared h hreserved
  | setMetadata path m => exact (Script.scribbled_setMetadata h path m _ t hends).spared h

/-! ### The law -/

/-- An operation that is refused, in any state that changes lead to, leaves a store that shows the
same, unless it is refused late. Even then every file that was there can be read, but for the one
that was to be deleted. The calls of an operation are those of a script; should any of them fail for
other reasons, whatever has failed or been stopped before, then no file or folder is hit but those
that the operation is about, and of these a part has been done. -/
theorem failures_traceless (hfresh : t.Untouched) (short : Nat → Prop) (edit : Edit) :
    (∀ changes, let s := after backend (backend.init.runFrom t).2 changes
      let s' := ((edit.act backend).runFrom s).2
      ∀ e, ((edit.act backend).runFrom s).1 = .error e →
        (s.Same s' ↔ ¬ s.Late edit) ∧ (¬ s.Late edit → s.Unchanged s') ∧
        ∀ file content, backend.read s' file = .ok content ↔
          backend.read s file = .ok content ∧
            ∀ path, s.Late edit → edit = .delete path →
              Path.normalize file ≠ Path.normalize path) ∧
    (Script.ofEdit edit).Spells (edit.act backend) ∧
    ∀ s, Weathered short t s → ∀ e s',
      (Script.ofEdit edit).Ends short s (.answered (.error e)) s' → s.Spared edit s' := by
  refine ⟨fun changes => ?_, .ofEdit edit, fun s hs e s' hends =>
    spared_edit (hs.sound hfresh) hends⟩
  intro s s' e hfails
  have h : s.Orderly := orderly_after hfresh changes
  by_cases hlate : s.Late edit
  · obtain ⟨hchanged, hread⟩ := edit_late h hlate hfails
    refine ⟨iff_of_false hchanged (not_not.mpr hlate), fun hearly => absurd hlate hearly,
      fun file content => ?_⟩
    simpa only [hlate, true_imp_iff] using hread file content
  · have hsame : s.Same s' := edit_early h hlate hfails
    have hunchanged := hsame.unchanged h
    refine ⟨iff_of_true hsame hlate, fun _ => hunchanged, fun file content => ?_⟩
    simp [hunchanged.read file, hlate]

def underFile : Edit := .write "a/b" [2] false

theorem failures_traceless_underFile :
    let s := after backend (backend.init.runFrom .empty).2 [.write (some "a") [1] false]
    (∃ e, ((underFile.act backend).runFrom s).1 = .error e) ∧ ¬ s.Late underFile ∧
      s.Unchanged ((underFile.act backend).runFrom s).2 := by
  intro s
  have hplace : Path.segments "a/b" = ["a", "b"] := by decide
  have hproper : Proper (Path.segments "a/b") := by decide
  have hpath : filePath (some "a") = .ok "a" := by decide
  obtain ⟨h, hread⟩ : s.Orderly ∧ ∀ p, s.nodes.get? p = _ :=
    first_write untouched_empty hpath (by decide) (by decide) [1] (by decide) false
  have hfile : s.nodes.get? ["a"] = some (.file [1]) := by
    rw [hread, if_pos (by decide)]
  have hfails : ∃ e, ((underFile.act backend).runFrom s).1 = .error e := by
    have hends := write_ends h "a/b" [2] false
    change ∃ e, ((write "a/b" [2] false).runFrom s).1 = .error e
    generalize (write "a/b" [2] false).runFrom s = ended at hends ⊢
    cases hends with
    | refused e _ => exact ⟨e, rfl⟩
    | abandoned e _ _ _ _ _ => exact ⟨e, rfl⟩
    | done _ hwritten => exact absurd ⟨["a"], ["b"], [1], by simp, hplace, hfile⟩ hwritten.free
  obtain ⟨e, he⟩ := hfails
  have hearly : ¬ s.Late underFile := fun hlate => hlate.2.1 hproper
  obtain ⟨hfair, -⟩ := failures_traceless untouched_empty (fun _ => False) underFile
  exact ⟨⟨e, he⟩, hearly, (hfair _ e he).2.1 hearly⟩

/-- A store that holds nothing has no folders but its own. -/
theorem not_isSidecar_of_bare (hbare : t.Bare) {q : Place} (hq : t.nodes.get? q = some .folder) :
    ¬ IsSidecar q := by
  rw [hbare] at hq
  split at hq
  · next hown => rcases hown with rfl | rfl <;> decide
  · simp at hq

theorem listed_of_bare (h : t.Orderly) (hbare : t.Bare) :
    (backend.listReport t Listing.everything).answer = .ok [] := by
  obtain ⟨es, hanswer, -, hmem⟩ := h.shown (o := Listing.everything) rfl rfl rfl rfl rfl
    fun q hq => not_isSidecar_of_bare hbare hq
  have hnothing : es = [] := by
    refine List.eq_nil_iff_forall_not_mem.mpr fun e he => ?_
    obtain ⟨q, -, -, hitem⟩ := (hmem e).mp he
    simp [h.items_of_bare hbare] at hitem
  exact hnothing ▸ hanswer

/-- In a store that holds nothing, a write to a name that is too long is refused late. -/
theorem folder_made (hrooted : t.Rooted) (hbare : t.Bare) {folder name : String}
    (hplace : Path.segments path = [folder, name]) (hfolder : Proper [folder])
    (hother : folder ≠ temporaryFolder) (hlast : isSidecarName name = false)
    (hlong : nameLimit < name.utf8ByteSize) (hnear : Tree.isTooLong [folder, name] = false)
    (data : Bytes) (append : Bool) :
    t.Late (.write path data append) ∧
      ∃ e t', (write path data append).runFrom t = (.error e, t') ∧ t.Grown t' [folder] ∧
        t'.nodes.get? [folder] = some .folder := by
  have h : t.Orderly := .of_bare hrooted hbare
  have hfree : ¬ Reserved path := by
    rw [Reserved, hplace, not_or]
    exact ⟨by simp [hother], by simp [IsSidecar, hlast]⟩
  have himproper : ¬ Proper [folder, name] := fun hproper =>
    absurd (hproper.short name (by simp)) (Nat.not_le.mpr hlong)
  have hclear : ¬ t.Blocked [folder, name] := by
    rintro ⟨p, rest, content, -, -, hfile⟩
    rw [hbare] at hfile
    split at hfile <;> simp at hfile
  have habsent : t.nodes.get? [folder] = none := by rw [hbare, if_neg (by simp [hother])]
  have hlate : t.Late (.write path data append) := by
    refine late_write h hfree ?_ ?_ ?_ ?_ ?_ data append <;> rw [hplace]
    · exact hfolder
    · exact habsent
    · exact hclear
    · exact himproper
    · exact hnear
  obtain ⟨e, t', hrun, hgrown, p, hsub, hnone, hmade⟩ := write_late h hlate
  rw [hplace] at hgrown hsub
  refine ⟨hlate, e, t', hrun, hgrown, ?_⟩
  rcases List.prefix_concat_iff.mp (show p <+: [] ++ [folder] from hsub) with rfl | hroot
  · exact hmade
  · rw [List.prefix_nil.mp hroot, h.root] at hnone
    simp at hnone

/-- What it leaves is listed. -/
theorem folder_listed (hrooted : t.Rooted) (hbare : t.Bare) {folder name : String}
    (hplace : Path.segments path = [folder, name]) (hfolder : Proper [folder])
    (hother : folder ≠ temporaryFolder) (hplain : isSidecarName folder = false)
    (hlast : isSidecarName name = false) (hlong : nameLimit < name.utf8ByteSize)
    (hnear : Tree.isTooLong [folder, name] = false) (data : Bytes) (append : Bool) :
    ∃ e t', (backend.write path data append).runFrom t = (.error e, t') ∧
      (backend.listReport t Listing.everything).answer = .ok [] ∧
      ∃ es, (backend.listReport t' Listing.everything).answer = .ok es ∧
        folderShown t' (pathOf [folder]) ∈ es := by
  have h : t.Orderly := .of_bare hrooted hbare
  obtain ⟨-, e, t', hrun, hgrown, hmade⟩ :=
    folder_made hrooted hbare hplace hfolder hother hlast hlong hnear data append
  have h' : t'.Orderly := by
    have hkept := h.write path data append
    rwa [hrun] at hkept
  have hnames : ∀ q, t'.nodes.get? q = some .folder → ¬ IsSidecar q := by
    intro q hq
    rcases hgrown.new q _ hq with hold | ⟨-, hq⟩
    · exact not_isSidecar_of_bare hbare hold
    · rcases List.prefix_concat_iff.mp (show q <+: [] ++ [folder] from hq) with rfl | hroot
      · simp [IsSidecar, hplain]
      · rw [List.prefix_nil.mp hroot]
        decide
  obtain ⟨es, hanswer, -, hmem⟩ := h'.shown (o := Listing.everything) rfl rfl rfl rfl rfl hnames
  refine ⟨e, t', hrun, listed_of_bare h hbare, es, hanswer, (hmem _).mpr ⟨[], h'.root, by simp, ?_⟩⟩
  exact h'.mem_items.mpr (Or.inl ⟨folder, hmade, by simp [hother], rfl⟩)

def repeated (n : Nat) : String := String.ofList (List.replicate n 'b')

theorem size_repeated (n : Nat) : (repeated n).utf8ByteSize = n := by
  induction n with
  | zero => rfl
  | succ n ih =>
    have hsplit : repeated (n + 1) = repeated n ++ "b" := by
      rw [repeated, List.replicate_succ', String.ofList_append]
      rfl
    rw [hsplit, String.utf8ByteSize_append, ih]
    rfl

theorem clean_repeated {n : Nat} (hn : 2 < n) : Path.Clean (repeated n) := by
  have hlength : (repeated n).toList.length = n := by simp [repeated]
  refine ⟨?_, by simp [repeated, Path.separator], ?_, ?_⟩
  all_goals
    intro heq
    rw [heq] at hlength
    simp at hlength
    omega

theorem not_isSidecarName_repeated (n : Nat) : isSidecarName (repeated n) = false := by
  rw [isSidecarName, ← Bool.not_eq_true, List.isSuffixOf_iff_suffix]
  intro hsub
  have hdot : '.' ∈ (repeated n).toList := hsub.subset (by decide)
  simp [repeated] at hdot

theorem segments_overlong :
    Path.segments (Path.join ["missing", repeated 256]) = ["missing", repeated 256] := by
  refine Path.segments_join fun name hname => ?_
  rcases List.mem_pair.mp hname with rfl | rfl
  · decide
  · exact clean_repeated (by decide)

theorem nul_not_mem_repeated (n : Nat) : '\x00' ∉ (repeated n).toList := by
  simp [repeated]

/-- The last name is too long for the file system, but not the whole place. -/
theorem size_overlong : nameLimit < (repeated 256).utf8ByteSize ∧
    Tree.isTooLong ["missing", repeated 256] = false := by
  refine ⟨?_, isTooLong_eq_false.mpr ?_⟩
  · rw [size_repeated]
    decide
  · simp only [placeSize, List.map_cons, List.map_nil, List.sum_cons, List.sum_nil, size_repeated]
    decide

theorem folder_left :
    let s := (backend.init.runFrom .empty).2
    let path := Path.join ["missing", repeated 256]
    ∃ e s', (backend.write path [1] false).runFrom s = (.error e, s') ∧
      (backend.listReport s Listing.everything).answer = .ok [] ∧
      ∃ es, (backend.listReport s' Listing.everything).answer = .ok es ∧
        ∃ e ∈ es, e.kind = .folder ∧ e.path = "missing" := by
  intro s path
  obtain ⟨s₀, hinit, hrooted, hbare⟩ := init_bare untouched_empty
  obtain rfl : s = s₀ := congrArg Prod.snd hinit
  obtain ⟨hlong, hnear⟩ := size_overlong
  obtain ⟨e, s', hrun, hbefore, es, hafter, hshown⟩ := folder_listed hrooted hbare segments_overlong
    (by decide) (by decide) (by decide) (not_isSidecarName_repeated 256) hlong hnear [1] false
  exact ⟨e, s', hrun, hbefore, es, hafter, _, hshown, rfl, by rw [path_folderShown]; decide⟩

end Depot.Storage.Disk
