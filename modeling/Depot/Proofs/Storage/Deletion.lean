import Depot.Proofs.Disk.Contents
import Depot.Proofs.Disk.Walk
import Depot.Proofs.Memory.BulkDeletion

/-!
Deletes on both kinds of store. A path that is missing is ignored, any other one is gone with
all that is below it, and deleting it again finds nothing to do. On a file tree this fails for
one way to be missing: a path under a file is refused.
-/
namespace Depot.Storage

namespace Backend

variable {σ : Type} (b : Backend σ) (s : σ) (path : String)

def IsFile : Prop := b.holds s path = .ok true

/-- A folder can be listed. The root always can, so it counts while it shows something. -/
def IsFolder : Prop := ∃ o es, b.level s path o = .ok es ∧ (path = Path.root → es ≠ [])

end Backend

/-- What an action that deletes a path owes its callers. -/
structure Deletes {σ : Type} (b : Backend σ) (path : String) (a : Action σ Unit)
    (s : σ) : Prop where
  ignored : ¬ b.IsFile s path → ¬ b.IsFolder s path → a.runFrom s = (.ok (), s)
  gone : ¬ b.IsFile (a.runFrom s).2 path ∧ ¬ b.IsFolder (a.runFrom s).2 path
  spared : ∀ q, Path.normalize q = q → q ≠ path → Path.isUnder q path = false →
    (b.IsFile (a.runFrom s).2 q ↔ b.IsFile s q) ∧
    (∀ content, b.read (a.runFrom s).2 q = .ok content ↔ b.read s q = .ok content) ∧
    (b.IsFile s q → b.entry? (a.runFrom s).2 q = b.entry? s q)
  again : a.runFrom (a.runFrom s).2 = (.ok (), (a.runFrom s).2)

theorem deleteAll_singleton {σ : Type} (b : Backend σ) (path : Option String) :
    b.deleteAll [path] = b.delete (Path.normalize (Path.orRoot path)) :=
  Action.all_singleton _

namespace Memory

variable {c : Config} {s : State} {t : Table} {path k : String}

theorem isFile_iff : (backend c).IsFile s k ↔ ∃ f, s.table.files.get? k = some f := by
  change Except.ok (s.table.files.contains k) = .ok true ↔ _
  rw [Except.ok.injEq, OrderedMap.contains_iff]

/-- A folder shows something just when a file lies under it. -/
theorem Table.view_ne_nil (h : t.Holds path) (whole : Bool) : t.view whole path .default ≠ [] := by
  obtain ⟨k, f, hf, hunder⟩ := h
  have hdeep := (Path.isUnder_iff.mp hunder).1
  by_cases hlast : (Path.segments k).length = (Path.segments path).length + 1
  · exact List.ne_nil_of_mem (Table.mem_view.mpr
      (Or.inr ⟨k, f, hf, ⟨hunder, Or.inr hlast⟩, rfl, by simp [Listing.Options.isMatch,
        Listing.Options.default, Listing.Options.prefixPasses]⟩))
  · have hbetween : (Path.segments path).length + 1 < (Path.segments k).length := by omega
    refine List.ne_nil_of_mem (Table.mem_view.mpr (Or.inl ⟨Path.upTo _ k, Path.normalize_upTo,
      ⟨k, f, hf, Path.isUnder_upTo hbetween⟩,
        ⟨Path.upTo_isUnder hunder (by omega), Or.inr ?_⟩, rfl⟩))
    rw [Path.segments_upTo, List.length_take]
    omega

theorem Table.holds_of_mem_view {whole : Bool} {o : Listing.Options} {e : Entry}
    (he : e ∈ t.view whole path o) : t.Holds path := by
  rcases Table.mem_view.mp he with ⟨q, -, ⟨k, f, hf, hunder⟩, hscope, -⟩ | ⟨k, f, hf, hscope, -⟩
  · exact ⟨k, f, hf, Path.isUnder_trans hunder hscope.1⟩
  · exact ⟨k, f, hf, hscope.1⟩

theorem isFolder_iff (h : s.table.Tidy) (hpath : Path.normalize path = path) :
    (backend c).IsFolder s path ↔ s.table.Holds path := by
  have hlevel : ∀ o, (backend c).level s path o = _ := fun o => Table.level_eq h
  simp only [Backend.IsFolder, hlevel]
  constructor
  · rintro ⟨o, es, hes, hsome⟩
    split at hes
    · next hthere =>
      refine ((Table.folderExists_iff hpath).mp hthere).elim (fun hroot => ?_) id
      obtain ⟨e, he⟩ := List.exists_mem_of_ne_nil _ (hsome hroot)
      rw [← Except.ok.inj hes] at he
      exact Table.holds_of_mem_view he
    · simp at hes
  · intro hholds
    exact ⟨.default, _, if_pos ((Table.folderExists_iff hpath).mpr (Or.inr hholds)),
      fun _ => Table.view_ne_nil hholds _⟩

theorem deletes (h : s.table.Tidy) (hpath : Path.normalize path = path) :
    Deletes (backend c) path ((backend c).delete path) s := by
  have hrun := runFrom_delete c s path
  have h' : (s.table.delete path).Tidy := h.delete path
  have hnone : (s.table.delete path).files.get? path = none := by
    rw [Table.get?_delete h, if_pos (Or.inl rfl)]
  have hempty : ¬ (s.table.delete path).Holds path := by
    rintro ⟨k, f, hf, hunder⟩
    rw [Table.get?_delete h, if_pos (Or.inr hunder)] at hf
    simp at hf
  refine ⟨fun hfile hfolder => ?_, ⟨?_, ?_⟩, fun q hq hne hout => ?_, ?_⟩
  · rw [isFile_iff] at hfile
    rw [isFolder_iff h hpath] at hfolder
    rw [hrun, Table.delete_of_nothing (Option.eq_none_iff_forall_ne_some.mpr
      fun f hf => hfile ⟨f, hf⟩) hfolder]
  · rw [hrun, isFile_iff]
    simp [hnone]
  · rw [hrun, isFolder_iff h' hpath]
    exact hempty
  · have hsame : (s.table.delete path).files.get? q = s.table.files.get? q := by
      rw [Table.get?_delete h, if_neg (by simp [hne, hout])]
    have hread : (s.table.delete path).read q = s.table.read q := by
      rw [Table.read, Table.read, hsame]
    have hentry : Table.entry? (s.table.delete path) q = Table.entry? s.table q := by
      have hof : (s.table.delete path).entryOf q = s.table.entryOf q := by
        unfold Table.entryOf
        rw [Table.times_delete]
      rw [Table.entry?, Table.entry?, hsame, hof]
    rw [hrun, isFile_iff, isFile_iff]
    exact ⟨by simp only [hsame], fun content => Eq.congr_left hread, fun _ => hentry⟩
  · rw [hrun, runFrom_delete, Table.delete_of_nothing hnone hempty]

end Memory

namespace Disk

variable {t : Tree} {p q : Place} {path : String} {content : Bytes} {n : Node}

theorem isFolder_of_node (h : t.Orderly) (hfree : ¬ Reserved path) (hroot : path ≠ Path.root)
    (hfolder : t.nodes.get? (Path.segments path) = some .folder) : backend.IsFolder t path :=
  ⟨.default, _, h.level_eq hfree hfolder .default, fun heq => absurd heq hroot⟩

/-- A root that shows nothing has nothing in it. -/
theorem isFolder_root (h : t.Orderly) {name : String} (hn : t.nodes.get? [name] = some n)
    (hother : name ≠ temporaryFolder) : backend.IsFolder t Path.root := by
  have hfree : ¬ Reserved Path.root := by decide
  have hlevel := h.level_eq hfree (by rw [Path.segments_root, h.root]) .default
  rw [Path.segments_root] at hlevel
  have hshows : ∃ e, e ∈ Mirrors.items t [] .default := by
    cases n with
    | link target => exact absurd hn (h.rooted.free _ target)
    | folder => exact ⟨_, h.mem_items.mpr (Or.inl ⟨name, hn, by simp [hother], rfl⟩)⟩
    | file content =>
      -- A sidecar does not show, but the file that it belongs to does.
      obtain ⟨name', content', hfile, hplain⟩ : ∃ name' content',
          t.nodes.get? [name'] = some (.file content') ∧ ¬ IsSidecar [name'] := by
        by_cases hname : IsSidecar [name]
        · obtain ⟨r, kept, m, hsome, hplace, hr, hfile, -⟩ := h.attached _ _ hname hn
          have hsplit := List.dropLast_append_getLast hsome
          rw [← dropLast_sidecar, ← hplace] at hsplit
          obtain ⟨last, rfl⟩ : ∃ last, r = [last] := ⟨_, hsplit.symm⟩
          exact ⟨last, kept, hfile, hr⟩
        · exact ⟨name, content, hn, hname⟩
      obtain ⟨m, hitem⟩ := h.file_mem_items (p := []) (o := .default) hfile hplain rfl
      exact ⟨_, hitem⟩
  obtain ⟨e, he⟩ := hshows
  exact ⟨.default, _, hlevel, fun _ => List.ne_nil_of_mem ((split_perm _).mem_iff.mpr he)⟩

/-- What is in the tree after a delete was there before. -/
theorem old_after_delete (h : t.Orderly) (path : String)
    (hn : ((delete path).runFrom t).2.nodes.get? p = some n) : t.nodes.get? p = some n := by
  have hends := delete_ends h path
  generalize (delete path).runFrom t = ended at hends hn
  cases hends with
  | refused e hcause => exact hn
  | ignored hfree habsent hclear => exact hn
  | emptied hroot hrooted hbare =>
    rw [hbare] at hn
    split at hn
    · next hp =>
      obtain rfl := Option.some.inj hn
      rcases hp with rfl | rfl
      · exact h.root
      · exact h.swept.there
    · simp at hn
  | halved e content hfree hfile hstuck =>
    rw [Tree.get?_remove] at hn
    split at hn
    · simp at hn
    · exact hn
  | taken m hfree hsome hthere hable hcut => exact hcut.old p n hn

/-- A delete takes no file but those that go with its path. -/
theorem file_after_delete (h : t.Orderly) (path : String) (hq : ¬ t.Along (Path.segments path) q) :
    ((delete path).runFrom t).2.nodes.get? q = some (.file content) ↔
      t.nodes.get? q = some (.file content) := by
  refine ⟨old_after_delete h path, fun hfile => ?_⟩
  have hends := delete_ends h path
  generalize (delete path).runFrom t = ended at hends ⊢
  cases hends with
  | refused e hcause => exact hfile
  | ignored hfree habsent hclear => exact hfile
  | emptied hroot hrooted hbare => exact absurd (Or.inl (hroot ▸ List.nil_prefix)) hq
  | halved e content hfree hthere hstuck =>
    rwa [Tree.get?_remove, if_neg fun heq : q = _ => hq (Or.inl (heq ▸ List.prefix_refl _))]
  | taken m hfree hsome hthere hable hcut =>
    rcases hcut.kept q _ hfile with hkept | halong | ⟨hfolder, -⟩
    · exact hkept
    · exact absurd halong hq
    · simp at hfolder

/-- Only folders on the way to what was deleted are dated anew. -/
theorem last_after_delete (h : t.Orderly) (path : String)
    (hfile : t.nodes.get? q = some (.file content))
    (hapart : ¬ Path.segments path <+: q) :
    ((delete path).runFrom t).2.times.last q = t.times.last q := by
  have hplain : ∀ n, t.nodes.get? (Path.segments path) = some n → Path.segments path ≠ [] →
      ¬ q <+: (Path.segments path).dropLast := by
    rintro n hthere hsome ⟨rest, hrest⟩
    have hfolder : t.nodes.get? q = some .folder := by
      refine h.rooted.above_append (n := n)
        (show rest ++ [(Path.segments path).getLast hsome] ≠ [] by simp) ?_
      rw [← List.append_assoc, hrest, List.dropLast_append_getLast]
      exact hthere
    simp [hfile] at hfolder
  have hends := delete_ends h path
  generalize (delete path).runFrom t = ended at hends ⊢
  cases hends with
  | refused e hcause => rfl
  | ignored hfree habsent hclear => rfl
  | emptied hroot hrooted hbare => exact absurd (hroot ▸ List.nil_prefix) hapart
  | halved e content hfree hthere hstuck =>
    have hsome := h.ne_nil_of_file hthere
    exact Tree.last_remove_of_clean (clean_segments path) hsome
      fun heq => hplain _ hthere hsome (heq ▸ List.prefix_refl _)
  | taken n hfree hsome hthere hable hcut => exact hcut.dates q (hplain n hthere hsome)

theorem delete_ignored (h : t.Orderly) (hfree : ¬ Reserved path)
    (hproper : Proper (Path.segments path))
    (hclear : ¬ t.Blocked (Path.segments path)) (hnone : t.nodes.get? (Path.segments path) = none) :
    (delete path).runFrom t = (.ok (), t) := by
  have hends := delete_ends h path
  generalize (delete path).runFrom t = ended at hends ⊢
  cases hends with
  | refused e hcause =>
    rcases hcause with hcause | hcause | hcause
    · exact absurd hcause hfree
    · exact absurd hproper hcause
    · exact absurd hcause hclear
  | ignored _ _ _ => rfl
  | emptied hroot _ _ => simp [hroot, h.root] at hnone
  | halved e content _ hfile _ => simp [hnone] at hfile
  | taken m _ _ hthere _ _ => simp [hnone] at hthere

theorem delete_root_ignored (h : t.Orderly) (hroot : Path.segments path = [])
    (hnothing : ∀ name n, t.nodes.get? [name] = some n → name = temporaryFolder) :
    (delete path).runFrom t = (.ok (), t) := by
  have hfree : ¬ Reserved path := by simp [Reserved, hroot, IsSidecar]
  unfold delete
  rw [Action.runFrom_bind, Action.runFrom_ask, place?_free hfree]
  dsimp only
  rw [Os.runFrom_act, hroot, clear_nothing h.rooted h.root hnothing]
  rfl

/-- Nothing is left of a path that has been deleted; of the root, nothing but itself. -/
theorem gone_after_delete (h : t.Orderly) (hfree : ¬ Reserved path)
    (hproper : Proper (Path.segments path)) (hclear : ¬ t.Blocked (Path.segments path)) :
    (Path.segments path = [] ∧ ((delete path).runFrom t).2.Bare) ∨
      (Path.segments path ≠ [] ∧
        ((delete path).runFrom t).2.nodes.get? (Path.segments path) = none) := by
  have hends := delete_ends h path
  generalize (delete path).runFrom t = ended at hends ⊢
  cases hends with
  | refused e hcause =>
    rcases hcause with hcause | hcause | hcause
    · exact absurd hcause hfree
    · exact absurd hproper hcause
    · exact absurd hcause hclear
  | ignored _ habsent _ =>
    refine Or.inr ⟨fun hroot => ?_, habsent⟩
    simp [hroot, h.root] at habsent
  | emptied hroot _ hbare => exact Or.inl ⟨hroot, hbare⟩
  | halved e content _ hfile _ =>
    exact Or.inr ⟨h.ne_nil_of_file hfile, by rw [Tree.get?_remove, if_pos rfl]⟩
  | taken m _ hsome _ _ hcut => exact Or.inr ⟨hsome, hcut.gone _ (Or.inl (List.prefix_refl _))⟩

theorem isFile_iff (h : t.Orderly) : backend.IsFile t path ↔
    ¬ Reserved path ∧ ∃ content, t.nodes.get? (Path.segments path) = some (.file content) :=
  h.rooted.holds_iff

/-- The sidecar of a file goes with the file or with a folder that the file is in. -/
theorem not_along_sidecar (hplain : ¬ IsSidecar p) (hsome : q ≠ []) (hout : ¬ p <+: q) :
    ¬ t.Along p (sidecar q) := by
  rintro (hsub | ⟨heq, content, hfile⟩)
  · rcases List.prefix_concat_iff.mp hsub with heq | hsub
    · exact hplain (heq ▸ isSidecar_sidecar q)
    · exact hout (hsub.trans (List.dropLast_prefix q))
  · by_cases hp : p = []
    · exact hout (hp ▸ List.nil_prefix)
    · exact hout (sidecar_injective hsome hp heq ▸ List.prefix_refl _)

/-- A path that is neither the deleted one nor below it. -/
theorem not_prefix_of_outside (hpath : Path.normalize path = path) {q : String}
    (hq : Path.normalize q = q) (hne : q ≠ path) (hout : Path.isUnder q path = false) :
    ¬ Path.segments path <+: Path.segments q := by
  intro hsub
  rcases hsub.length_le.lt_or_eq with hlength | hlength
  · simp [Path.isUnder_iff.mpr ⟨hlength, hsub⟩] at hout
  · exact hne (Path.eq_of_segments hq hpath (hsub.eq_of_length hlength).symm)

/-- A file whose place stays as it is has its content and its entry afterwards. -/
theorem spared_by_delete (h : t.Orderly) (hfree : ¬ Reserved path) {q : String}
    (hapart : ¬ Path.segments path <+: Path.segments q) :
    (backend.IsFile ((delete path).runFrom t).2 q ↔ backend.IsFile t q) ∧
    (∀ content, backend.read ((delete path).runFrom t).2 q = .ok content ↔
      backend.read t q = .ok content) ∧
    (backend.IsFile t q →
      backend.entry? ((delete path).runFrom t).2 q = backend.entry? t q) := by
  have h' : ((delete path).runFrom t).2.Orderly := h.delete path
  have hkept : ¬ Reserved q → ∀ content,
      (((delete path).runFrom t).2.nodes.get? (Path.segments q) = some (.file content) ↔
        t.nodes.get? (Path.segments q) = some (.file content)) := by
    refine fun hfreeq content => file_after_delete h path ?_
    rintro (hsub | ⟨heq, -⟩)
    · exact hapart hsub
    · exact hfreeq (Or.inr (heq ▸ isSidecar_sidecar _))
  refine ⟨?_, fun content => ?_, fun hfile => ?_⟩
  · rw [isFile_iff h, isFile_iff h']
    exact and_congr_right fun hfreeq => exists_congr (hkept hfreeq)
  · change read ((delete path).runFrom t).2 q = .ok content ↔ read t q = .ok content
    rw [h.rooted.read_iff, h'.rooted.read_iff]
    exact and_congr_right fun hfreeq => hkept hfreeq content
  · obtain ⟨hfreeq, content, hfile⟩ := (isFile_iff h).mp hfile
    obtain ⟨m, hm, hentry⟩ := h.entry?_of_file hfreeq hfile
    obtain ⟨m', hm', hentry'⟩ := h'.entry?_of_file hfreeq ((hkept hfreeq content).mpr hfile)
    have hsidecar := not_along_sidecar (t := t) (not_or.mp hfree).2 (h.ne_nil_of_file hfile) hapart
    have hsame := h.rooted.readMetadata_congr h'.rooted (clean_segments q) (h.ne_nil_of_file hfile)
      fun content => file_after_delete h path hsidecar
    obtain rfl : m' = m := by
      rw [hsame, hm] at hm'
      exact (Except.ok.inj hm').symm
    have hthen : ((delete path).runFrom t).2.nodes.get? (Path.segments (Path.normalize q)) =
        some (.file content) := by
      rw [Path.segments_normalize, hkept hfreeq, hfile]
    have htime : modified ((delete path).runFrom t).2 (Path.segments (Path.normalize q)) =
        modified t (Path.segments (Path.normalize q)) := by
      rw [h'.rooted.modified_eq hthen]
      rw [Path.segments_normalize] at hthen ⊢
      rw [h.rooted.modified_eq hfile, last_after_delete h path hfile hapart]
    have hshown : fileShown ((delete path).runFrom t).2 (Path.normalize q) ⟨content, m'⟩ true =
        fileShown t (Path.normalize q) ⟨content, m'⟩ true := by
      rw [fileShown, fileShown, htime]
    exact hentry'.trans ((congrArg (Except.ok ∘ some) hshown).trans hentry.symm)

section

variable (h : t.Orderly) (hpath : Path.normalize path = path) (hfree : ¬ Reserved path)
  (hproper : Proper (Path.segments path)) (hclear : ¬ t.Blocked (Path.segments path))
include h hfree hproper hclear

include hpath in
/-- What is neither a file nor a folder is not in the tree; a root that shows nothing is bare. -/
theorem missing_ignored (hfile : ¬ backend.IsFile t path) (hfolder : ¬ backend.IsFolder t path) :
    (delete path).runFrom t = (.ok (), t) := by
  by_cases hnil : Path.segments path = []
  · have hroot : path = Path.root := (Path.isRoot_iff hpath).mp (by simp [Path.isRoot, hnil])
    refine delete_root_ignored h hnil fun name n hn => ?_
    by_contra hother
    exact hfolder (hroot ▸ isFolder_root h hn hother)
  · refine delete_ignored h hfree hproper hclear ?_
    rw [Option.eq_none_iff_forall_ne_some]
    intro n hn
    cases n with
    | link target => exact h.rooted.free _ target hn
    | file content => exact hfile ((isFile_iff h).mpr ⟨hfree, content, hn⟩)
    | folder =>
      refine hfolder (isFolder_of_node h hfree (fun heq => hnil ?_) hn)
      rw [heq, Path.segments_root]

include hpath in
theorem neither_after_delete : ¬ backend.IsFile ((delete path).runFrom t).2 path ∧
    ¬ backend.IsFolder ((delete path).runFrom t).2 path := by
  have h' : ((delete path).runFrom t).2.Orderly := h.delete path
  rw [isFile_iff h']
  rcases gone_after_delete h hfree hproper hclear with ⟨hnil, hbare⟩ | ⟨-, hnone⟩
  · refine ⟨by simp [hnil, hbare []], ?_⟩
    rintro ⟨o, es, hlevel, hshows⟩
    have hroot : path = Path.root := (Path.isRoot_iff hpath).mp (by simp [Path.isRoot, hnil])
    have hempty := h'.level_eq hfree (by rw [hnil, h'.root]) o
    rw [h'.items_of_bare hbare] at hempty
    exact hshows hroot (Except.ok.inj (hlevel.symm.trans hempty))
  · refine ⟨by simp [hnone], ?_⟩
    rintro ⟨o, es, hlevel, -⟩
    have hfolder := (h'.level_eq_ok_iff.mp ⟨es, hlevel⟩).2
    simp [hnone] at hfolder

theorem delete_again :
    (delete path).runFrom ((delete path).runFrom t).2 = (.ok (), ((delete path).runFrom t).2) := by
  have h' : ((delete path).runFrom t).2.Orderly := h.delete path
  rcases gone_after_delete h hfree hproper hclear with ⟨hnil, hbare⟩ | ⟨-, hnone⟩
  · refine delete_root_ignored h' hnil fun name n hn => ?_
    rw [hbare] at hn
    split at hn
    · next hplace => simpa using hplace
    · simp at hn
  · refine delete_ignored h' hfree hproper ?_ hnone
    rintro ⟨p, rest, content, hrest, hsplit, hfile⟩
    exact hclear ⟨p, rest, content, hrest, hsplit, old_after_delete h path hfile⟩

include hpath in
/-- A delete that the file system takes, where no file is in the way. -/
theorem deletes : Deletes backend path (delete path) t where
  ignored := missing_ignored h hpath hfree hproper hclear
  gone := neither_after_delete h hpath hfree hproper hclear
  spared _ hq hne hout := spared_by_delete h hfree (not_prefix_of_outside hpath hq hne hout)
  again := delete_again h hfree hproper hclear

end

/-- A path under a file is missing, and refused. -/
theorem delete_blocked (h : t.Orderly) (hfree : ¬ Reserved path)
    (hproper : Proper (Path.segments path))
    (hblocked : t.Blocked (Path.segments path)) :
    ¬ backend.IsFile t path ∧ ¬ backend.IsFolder t path ∧
      (delete path).runFrom t = (.error .notDirectory, t) := by
  refine ⟨fun hfile => ?_, ?_, ?_⟩
  · obtain ⟨-, content, hfile⟩ := (isFile_iff h).mp hfile
    exact h.rooted.not_blocked hfile hblocked
  · rintro ⟨o, es, hlevel, -⟩
    exact h.rooted.not_blocked (h.level_eq_ok_iff.mp ⟨es, hlevel⟩).2 hblocked
  · unfold delete
    rw [Action.runFrom_bind, Action.runFrom_ask, place?_free hfree]
    dsimp only
    rw [Os.runFrom_act, remove_blocked h.rooted hproper hblocked]
    rfl

end Disk

/-- Whatever has happened to a store in memory, as long as its snapshots, if there are any, were
loaded into new stores only, a delete of any path does what it owes. It does so to a store on files
too, for every path that the file system takes whose name is not reserved, unless a file stands
above it: such a path is missing, but the delete fails, and leaves everything as it is. -/
theorem deletion_law (c : Memory.Config) (times : Times String) (life : List Memory.Event)
    (hnew : c.persistence = .none ∨ .init ∉ life) {tree : Disk.Tree} (hfresh : tree.Untouched)
    (changes : List Change) (path : Option String) :
    let p := Path.normalize (Path.orRoot path)
    let t := after Disk.backend (Disk.backend.init.runFrom tree).2 changes
    Deletes (Memory.backend c) p ((Memory.backend c).deleteAll [path])
      (Memory.lived c times life) ∧
    (¬ Disk.Reserved p → Disk.Proper (Path.segments p) →
      (¬ t.Blocked (Path.segments p) → Deletes Disk.backend p (Disk.backend.deleteAll [path]) t) ∧
      (t.Blocked (Path.segments p) → ¬ Disk.backend.IsFile t p ∧ ¬ Disk.backend.IsFolder t p ∧
        (Disk.backend.deleteAll [path]).runFrom t = (.error .notDirectory, t))) := by
  intro p t
  have hpath : Path.normalize p = p := Path.normalize_normalize _
  have htidy : (Memory.lived c times life).table.Tidy :=
    (Memory.Kept.lived_new (Memory.durable_sound c.limit) life hnew).table.tidy
  have h : t.Orderly := Disk.orderly_after hfresh changes
  rw [deleteAll_singleton, deleteAll_singleton]
  exact ⟨Memory.deletes htidy hpath, fun hfree hproper =>
    ⟨Disk.deletes h hpath hfree hproper, Disk.delete_blocked h hfree hproper⟩⟩

/-- A file in a folder is deleted, and then a path under it. -/
theorem deletion_law_fileInFolder :
    let t := after Disk.backend (Disk.backend.init.runFrom .empty).2 [.write (some "a/b") [1] false]
    Disk.backend.IsFile t "a/b" ∧
      ¬ Disk.backend.IsFile ((Disk.backend.deleteAll [some "a/b"]).runFrom t).2 "a/b" ∧
      (Disk.backend.deleteAll [some "a/b/c"]).runFrom t = (.error .notDirectory, t) := by
  intro t
  have hpath : filePath (some "a/b") = .ok "a/b" := by decide
  obtain ⟨h, hread⟩ : t.Orderly ∧ ∀ p, t.nodes.get? p = _ :=
    Disk.first_write Disk.untouched_empty hpath (by decide) (by decide) [1] (by decide) false
  have hfile : t.nodes.get? (Path.segments "a/b") = some (.file [1]) := by rw [hread, if_pos rfl]
  have hclear : ¬ t.Blocked (Path.segments "a/b") := h.rooted.not_blocked hfile
  have hblocked : t.Blocked (Path.segments "a/b/c") :=
    ⟨Path.segments "a/b", ["c"], [1], by simp, by decide, hfile⟩
  obtain ⟨-, hdeletes⟩ := deletion_law {} .still [] (.inl rfl) Disk.untouched_empty
    [.write (some "a/b") [1] false] (some "a/b")
  obtain ⟨-, hrefused⟩ := deletion_law {} .still [] (.inl rfl) Disk.untouched_empty
    [.write (some "a/b") [1] false] (some "a/b/c")
  exact ⟨(Disk.isFile_iff h).mpr ⟨by decide, [1], hfile⟩,
    ((hdeletes (by decide) (by decide)).1 hclear).gone.1,
    ((hrefused (by decide) (by decide)).2 hblocked).2.2⟩

/-- A missing path that is not ignored. -/
theorem missing_refused :
    let t := after Disk.backend (Disk.backend.init.runFrom .empty).2 [.write (some "a") [1] false]
    ¬ Disk.Reserved "a/b" ∧ Disk.Proper (Path.segments "a/b") ∧
      ¬ Disk.backend.IsFile t "a/b" ∧ ¬ Disk.backend.IsFolder t "a/b" ∧
      ((Disk.backend.deleteAll [some "a/b"]).runFrom t).1 ≠ .ok () := by
  intro t
  have hpath : filePath (some "a") = .ok "a" := by decide
  obtain ⟨h, hread⟩ : t.Orderly ∧ ∀ p, t.nodes.get? p = _ :=
    Disk.first_write Disk.untouched_empty hpath (by decide) (by decide) [1] (by decide) false
  have hfile : t.nodes.get? (Path.segments "a") = some (.file [1]) := by rw [hread, if_pos rfl]
  have hblocked : t.Blocked (Path.segments "a/b") :=
    ⟨Path.segments "a", ["b"], [1], by simp, by decide, hfile⟩
  have hfree : ¬ Disk.Reserved "a/b" := by decide
  have hproper : Disk.Proper (Path.segments "a/b") := by decide
  obtain ⟨hnofile, hnofolder, hrun⟩ := Disk.delete_blocked h hfree hproper hblocked
  have hcall : Disk.backend.deleteAll [some "a/b"] = Disk.delete "a/b" := deleteAll_singleton _ _
  rw [hcall, hrun]
  exact ⟨hfree, hproper, hnofile, hnofolder, by simp⟩

end Depot.Storage
