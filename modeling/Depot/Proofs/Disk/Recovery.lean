import Depot.Proofs.Disk.Annotation
import Depot.Proofs.Disk.Interruption
import Depot.Proofs.Disk.Failure

/-!
Stores that are opened again after a process has stopped. The temporary files go, and a file that
was being overwritten has its old content or what the write has stored; nothing has happened to
the others or to metadata. This holds of every state that a store can come to, also when any of
the operations before have failed half-way. A call counts as one step, and what it has done is
taken to be on the disk: so a renaming is done or not, and data that were written are whole once
the call has ended.
-/
namespace Depot.Storage.Disk

variable {s t t' u r : Tree} {p q : Place} {path name : String} {content data : Bytes} {n : Node}
  {short : Nat → Prop} {P : Bytes → Prop}

theorem allowing_ok {c : Call} (hexec : c.exec t = .ok t') :
    (Os.allowing (fun _ => true) (Os.perform c)).runFrom t = (.ok (), t') := by
  rw [Os.allowing, Os.runFrom_tryCatch, Os.runFrom_perform, hexec]

/-- The temporary files go one after another. -/
theorem cleanTemporary_loop (names : List String) (h : u.Littered t) (hnodup : names.Nodup)
    (hthere : ∀ name ∈ names, ∃ n, t.nodes.get? [temporaryFolder, name] = some n) :
    ∃ r, Os.runFrom (names.forM fun name =>
        Os.allowing (fun _ => true) (Os.perform (.unlink [temporaryFolder, name])))
          t = (.ok (), r) ∧
      u.Littered r ∧ ∀ name, r.nodes.get? [temporaryFolder, name] =
        if name ∈ names then none else t.nodes.get? [temporaryFolder, name] := by
  induction names generalizing t with
  | nil => exact ⟨t, rfl, h, by simp⟩
  | cons name rest ih =>
    obtain ⟨hnew, hnodup⟩ := List.nodup_cons.mp hnodup
    obtain ⟨⟨n, hn⟩, hrest⟩ := List.forall_mem_cons.mp hthere
    obtain ⟨content, rfl⟩ := h.file_of_some hn
    have hread : ∀ other, (t.remove [temporaryFolder, name]).nodes.get? [temporaryFolder, other] =
        if other = name then none else t.nodes.get? [temporaryFolder, other] := by
      simp [Tree.get?_remove]
    obtain ⟨r, hrun, hr, hleft⟩ := ih (h.remove hn) hnodup fun other hother => by
      obtain ⟨m, hm⟩ := hrest other hother
      exact ⟨m, by rw [hread, if_neg (ne_of_mem_of_not_mem hother hnew), hm]⟩
    refine ⟨r, ?_, hr, fun other => ?_⟩
    · rw [List.forM, Os.runFrom_bind, allowing_ok (h.sound.rooted.exec_unlink hn)]
      exact hrun
    · rw [hleft, hread]
      by_cases hother : other = name <;> simp [hother]

/-- A sound store can be opened, and there are no temporary files then. -/
theorem init_sound (h : t.Sound) :
    ∃ r, backend.init.runFrom t = (.ok (), r) ∧ t.Littered r ∧ r.Swept := by
  have hthere := h.there
  have hnames : ∀ name, name ∈ t.children [temporaryFolder] ↔
      ∃ n, t.nodes.get? [temporaryFolder, name] = some n := fun name => Tree.mem_children
  have hnodup : (t.children [temporaryFolder]).Nodup :=
    (List.mergeSort_perm _ _).nodup_iff.mpr (Tree.names_nodup t _)
  obtain ⟨r, hrun, hr, hleft⟩ := cleanTemporary_loop (t.children [temporaryFolder]) (.refl h) hnodup
    fun name hname => (hnames name).mp hname
  refine ⟨r, ?_, hr, hr.sound.there, fun name => ?_⟩
  · have hmade : (makeFolders [temporaryFolder]).runFrom t = (.ok (), t) := by
      rw [← List.nil_append [temporaryFolder], Disk.makeFolders_concat, Os.runFrom_tryCatch,
        List.nil_append, ensureFolder_there h.rooted hthere]
    change init.runFrom t = _
    unfold init cleanTemporary
    rw [Action.runFrom_bind, Os.runFrom_act, hmade]
    dsimp only [Except.mapError]
    rw [Os.runFrom_act, Os.runFrom_bind, Os.runFrom_get]
    dsimp only
    rw [h.rooted.namesIn_eq hthere, hrun]
    rfl
  · rw [hleft, ite_eq_left_iff, Option.eq_none_iff_forall_ne_some]
    exact fun hnew n hn => hnew ((hnames name).mpr ⟨n, hn⟩)

/-! ### What is read -/

/-- Reading depends on what stands on the way alone. -/
theorem read_congr (h : s.Rooted) (h' : r.Rooted)
    (hsame : ∀ q, q <+: Path.segments path → r.nodes.get? q = s.nodes.get? q) :
    read r path = read s path := by
  have hclean := clean_segments path
  have hask : r.isFile (Path.segments path) = s.isFile (Path.segments path) :=
    h.test_congr h' hclean hsame _
  have hstat := h.stat_congr h' hclean hsame
  unfold read
  by_cases hfree : Reserved path
  · rw [place?_reserved hfree]
    rfl
  · simp only [place?_free hfree, ok_bind, hask, hstat]

/-- What stands at a place that the file system takes is all that reading depends on. -/
theorem read_proper (h : s.Rooted) (h' : r.Rooted) (hproper : Proper (Path.segments path))
    (hsame : r.nodes.get? (Path.segments path) = s.nodes.get? (Path.segments path)) :
    read r path = read s path := by
  unfold read
  by_cases hfree : Reserved path
  · rw [place?_reserved hfree]
    rfl
  have hask : r.isFile (Path.segments path) = s.isFile (Path.segments path) := by
    rw [Tree.isFile, Tree.isFile, h.test_eq hproper, h'.test_eq hproper, hsame]
  simp only [place?_free hfree, ok_bind, hask]
  cases hn : s.nodes.get? (Path.segments path) with
  | some n => simp only [h.stat_of_node hn, h'.stat_of_node (hsame.trans hn)]
  | none =>
    have hnone : s.isFile (Path.segments path) = .ok false :=
      h.isFile_eq_false hproper (by simp [hn])
    rw [hnone]
    rfl

/-- Names with a NUL character are refused before anything is looked at. -/
theorem read_nul (hnul : Tree.hasNul (Path.segments path) = true) : read r path = read s path := by
  have hask : ∀ t : Tree, t.isFile (Path.segments path) = .ok false := by
    intro t
    simp [Tree.isFile, Tree.test, Tree.stat, Tree.locate, hnul, Tree.meansAbsent]
  unfold read
  by_cases hfree : Reserved path
  · rw [place?_reserved hfree]
    rfl
  · simp only [place?_free hfree, ok_bind, hask, Except.mapError]
    rfl

theorem hasNul_of_dropLast (hnul : Tree.hasNul p.dropLast = true) : Tree.hasNul p = true := by
  obtain ⟨part, hpart, hthere⟩ := List.any_eq_true.mp hnul
  exact List.any_eq_true.mpr ⟨part, List.mem_of_mem_dropLast hpart, hthere⟩

namespace Tree.Towards

/-- Unless the file system refuses the name when folders have been made, reading answers exactly as
before, or with what the write has stored. -/
theorem read_eq (h : s.Rooted) (ht : s.Towards path P u) (hr : u.Littered r)
    (hlate : ¬ s.Late (.write path data false)) :
    read r path = read s path ∨ ∃ content, P content ∧ read r path = .ok content := by
  by_cases hfree : Reserved path
  · left
    unfold read
    rw [place?_reserved hfree]
    rfl
  have hsame : ∀ q, q <+: Path.segments path → r.nodes.get? q = u.nodes.get? q := fun q hsub =>
    hr.same q fun name heq => not_prefix_temporary (not_or.mp hfree).1 name (heq ▸ hsub)
  have hrooted := hr.sound.rooted
  cases ht with
  | before => exact Or.inl (read_congr h hrooted hsame)
  | after _ hfilled hwritten =>
    refine Or.inr ⟨_, hfilled, hrooted.read_of_file hfree ?_⟩
    rw [hsame _ (List.prefix_refl _), hwritten.read, if_pos rfl]
  | amid hpasses hgrown =>
    left
    by_cases hproper : Proper (Path.segments path)
    · exact read_proper h hrooted hproper
        ((hsame _ (List.prefix_refl _)).trans (hgrown.beyond hpasses.named))
    by_cases hnul : Tree.hasNul (Path.segments path).dropLast = true
    · exact read_nul (hasNul_of_dropLast hnul)
    · refine read_congr h hrooted fun q hsub => (hsame q hsub).trans ?_
      by_contra hne
      have hnone : s.nodes.get? q = none := by
        rw [Option.eq_none_iff_forall_ne_some]
        exact fun n hn => hne ((hgrown.kept q n hn).trans hn.symm)
      obtain ⟨n, hn⟩ := Option.ne_none_iff_exists'.mp (hnone ▸ hne)
      obtain ⟨-, hway⟩ := (hgrown.new q n hn).resolve_left (by simp [hnone])
      exact hlate ⟨hpasses, hproper, (Bool.not_eq_true _).mp hnul, q, hway,
        hgrown.rooted.proper q n hn, hnone⟩

end Tree.Towards

/-- What a store shows when it is opened again after an overwrite that may have failed or have been
stopped. -/
structure Tree.Recovered (s : Tree) (short : Nat → Prop) (path : String) (data : Bytes)
    (r : Tree) : Prop where
  /-- No temporary file is left. -/
  swept : r.isFolder [temporaryFolder] = .ok true ∧ r.namesIn [temporaryFolder] = []
  /-- The file is as it was or as the write has stored it. -/
  answer : ¬ s.Late (.write path data false) →
    backend.read r path = backend.read s path ∨
      ∃ content, Takes short data content ∧ backend.read r path = .ok content
  content : (∃ content, Takes short data content ∧ backend.read r path = .ok content) ∨
    ∀ content, backend.read r path = .ok content ↔ backend.read s path = .ok content
  others : ∀ file content, Path.normalize file ≠ Path.normalize path →
    (backend.read r file = .ok content ↔ backend.read s file = .ok content)
  metadata : ∀ file e, backend.entry? s file = .ok (some e) →
    ∃ e', backend.entry? r file = .ok (some e') ∧ e'.metadata = e.metadata
  /-- A file that is new has the metadata that were there for it already, if there were any. -/
  noted : ∀ file e, backend.entry? r file = .ok (some e) →
    readMetadata s (Path.segments file) = .ok e.metadata

theorem Tree.Towards.recovered (h : s.Sound) (ht : s.Towards path (Takes short data) u)
    (hr : u.Littered r) (hswept : r.Swept) : s.Recovered short path data r := by
  have hrooted := hr.sound.rooted
  have hleft : s.Interrupted path (Takes short data) r := ⟨u, ht, hr⟩
  refine ⟨⟨?_, ?_⟩, ht.read_eq h.rooted hr, ?_, fun file content hother => ?_,
    fun file e hentry => ?_, fun file e hentry => ?_⟩
  · rw [hrooted.isFolder_eq (hrooted.proper _ _ hswept.there), hswept.there]
    rfl
  · rw [hrooted.namesIn_eq hswept.there, Tree.children_eq_nil]
    exact hswept.bare
  · by_cases hfree : Reserved path
    · refine Or.inr fun content => ?_
      change read r path = _ ↔ read s path = _
      rw [hrooted.read_iff, h.rooted.read_iff]
      simp [hfree]
    · rcases hleft.file_at hfree with ⟨content, htakes, hnew⟩ | hold
      · exact Or.inl ⟨content, htakes, hrooted.read_of_file hfree hnew⟩
      · exact Or.inr fun content => hrooted.read_iff.trans
          ((and_congr_right fun _ => hold content).trans h.rooted.read_iff.symm)
  · refine hrooted.read_iff.trans ((and_congr_right fun hfree => ?_).trans h.rooted.read_iff.symm)
    exact hleft.file_iff (not_or.mp hfree).1 fun _ heq => hother (Path.normalize_eq_iff.mpr heq)
  · obtain ⟨hfree, content, kept, hthere, hmetadata, rfl⟩ := h.rooted.entry?_iff.mp hentry
    obtain ⟨content', hthere'⟩ := hleft.file_kept (not_or.mp hfree).1 hthere
    rw [← hleft.readMetadata_eq h hfree (h.ne_nil_of_file hthere)] at hmetadata
    exact ⟨_, hrooted.entry?_iff.mpr ⟨hfree, content', kept, hthere', hmetadata, rfl⟩, rfl⟩
  · obtain ⟨hfree, content, kept, hthere, hmetadata, rfl⟩ := hrooted.entry?_iff.mp hentry
    rw [hleft.readMetadata_eq h hfree (hr.sound.ne_nil_of_file hthere)] at hmetadata
    exact hmetadata

/-- An overwrite that is answered has stored as much as the system takes at a time. More data than
that are cut, which nobody is told. -/
theorem read_overwritten (h : s.Orderly)
    (hdone : ((backend.write path data false).runFrom s).1 = .ok ()) :
    backend.read ((backend.write path data false).runFrom s).2 path = .ok (stored data) := by
  have hends := write_ends h path data false
  change ((write path data false).runFrom s).1 = _ at hdone
  change read ((write path data false).runFrom s).2 path = _
  generalize (write path data false).runFrom s = ended at hends hdone ⊢
  cases hends with
  | refused e hsame hcause => simp at hdone
  | abandoned e hpasses himproper hwhole hmissing hgrown => simp at hdone
  | done hfree hwritten =>
    exact hwritten.rooted.read_of_file hfree (by rw [hwritten.read, if_pos rfl]; rfl)

/-- Whatever a store has been through, an overwrite may fail or be stopped after any of its calls
and in the middle of its data. The store can be opened again and shows the file as it was or as the
write has stored it, with all others and all metadata as they were. What the write has stored are
all the data, unless it is told that less of them has been taken or the data are more than the
system takes at a time. -/
theorem overwrite_atomic (hfresh : t.Untouched) (short : Nat → Prop) (path : String)
    (data : Bytes) :
    (Script.write path data false).Spells (backend.write path data false) ∧
    (∀ s, Weathered short t s → ∀ ending left,
      (Script.write path data false).Ends short s ending left →
        (backend.init.runFrom left).1 = .ok () ∧ s.Recovered short path data (reopened left)) ∧
    ((∀ n, ¬ short n) → data.length ≤ writeLimit →
      ∀ content, Takes short data content → content = data) := by
  refine ⟨.write path data false, fun s hs ending left hends => ?_, fun hfull hsmall content h =>
    h.whole hfull hsmall⟩
  have h := hs.sound hfresh
  have hwrite : (Script.write path data false).Keeps short
      (s.Interrupted path (Takes short data)) s :=
    (Script.interrupted_write h path data false).keeps (fun _ _ hu => hu)
      (fun _ hu => hu.mono fun _ hnone => absurd hnone.1 (by simp)) fun _ hu => hu
  obtain ⟨u, hu, hlittered⟩ := hwrite.ends hends
  obtain ⟨r, hrun, hr, hswept⟩ := init_sound hlittered.sound
  unfold reopened
  exact ⟨congrArg Prod.fst hrun, by rw [hrun]; exact hu.recovered h (hlittered.trans hr) hswept⟩

/-- An overwrite, done with stops and failures left out of account. -/
theorem overwrite_atomic_partly :
    let s := after backend (reopened .empty) [.write (some "a") [1, 2] false]
    backend.read s "a" = .ok [1, 2] ∧ ∀ ending left,
      (Script.write "a" [3, 4] false).Ends (fun _ => False) s ending left →
        (backend.read (reopened left) "a" = .ok [1, 2] ∨
          backend.read (reopened left) "a" = .ok [3, 4]) ∧
        (reopened left).namesIn [temporaryFolder] = [] := by
  intro s
  have hpath : filePath (some "a") = .ok "a" := by decide
  obtain ⟨h, hread⟩ : s.Orderly ∧ ∀ p, s.nodes.get? p = _ :=
    first_write untouched_empty hpath (by decide) (by decide) [1, 2] (by decide) false
  have hold : backend.read s "a" = .ok [1, 2] :=
    h.rooted.read_of_file (by decide) (by rw [hread, if_pos (by decide)])
  refine ⟨hold, fun ending left hends => ?_⟩
  obtain ⟨-, hrecovered, hwhole⟩ := overwrite_atomic untouched_empty (fun _ => False) "a" [3, 4]
  obtain ⟨-, hr⟩ := hrecovered s (Weathered.opened.after _) ending left hends
  refine ⟨?_, hr.swept.2⟩
  rw [← hold]
  refine (hr.answer fun hlate => hlate.2.1 (by decide)).imp_right ?_
  rintro ⟨content, htakes, hnew⟩
  rwa [hwhole (fun _ hshort => hshort) (by decide) content htakes] at hnew

/-- Where its folder is missing, a name that is too long is not looked at. -/
theorem Tree.Rooted.read_stray (h : t.Rooted) (hfree : ¬ Reserved path)
    (hplace : Path.segments path = p ++ [name]) (hnul : Tree.hasNul (p ++ [name]) = false)
    (hnear : Tree.isTooLong (p ++ [name]) = false) (hclear : t.Clear p) (hproper : Proper p)
    (hnone : t.nodes.get? p = none) : read t path = .error (.notFound path none) := by
  have hlocate : t.locate .target (p ++ [name]) = .error .noEntry :=
    locate_stray h (hplace ▸ clean_segments path) hnul hnear hclear hproper hnone (by simp)
  have hask : t.isFile (p ++ [name]) = .ok false := by
    simp [Tree.isFile, Tree.test, Tree.stat, hlocate, Tree.meansAbsent]
  unfold read
  rw [place?_free hfree, hplace, ok_bind, hask]
  rfl

/-- In a folder that is there it is refused. -/
theorem Tree.Rooted.read_overlong (h : t.Rooted) (hfree : ¬ Reserved path)
    (hplace : Path.segments path = p ++ [name]) (hnul : Tree.hasNul (p ++ [name]) = false)
    (hnear : Tree.isTooLong (p ++ [name]) = false) (hfolder : t.nodes.get? p = some .folder)
    (hlong : nameLimit < name.utf8ByteSize) : read t path = .error .fileSystem := by
  have hclean : Clean (p ++ [name]) := hplace ▸ clean_segments path
  have hwalk : t.walk .target linkLimit [] (p ++ [name]) = .error .nameTooLong :=
    h.walk_overlong (by rwa [List.nil_append]) (by simpa using hfolder) hlong
  have hask : t.isFile (p ++ [name]) = .error .nameTooLong := by
    simp [Tree.isFile, Tree.test, Tree.stat, Tree.locate, hnul, hnear, hwalk, Tree.meansAbsent]
  unfold read
  rw [place?_free hfree, hplace, ok_bind, hask]
  rfl

/-- An overwrite whose name is refused in a folder that it has made. Without any other failure, what
was not found before can no longer be asked for when the process has stopped and the store has been
opened again. -/
theorem missing_then_refused :
    let s := reopened .empty
    let path := Path.join ["missing", repeated 256]
    ∃ left, (Script.write path [1] false).Ends (fun _ => False) s .stopped left ∧
      s.Passes path ∧ backend.read s path = .error (.notFound path none) ∧
      backend.read (reopened left) path = .error .fileSystem := by
  intro s path
  obtain ⟨s₀, hinit, hrooted, hbare⟩ := init_bare untouched_empty
  obtain rfl : s = s₀ := congrArg Prod.snd hinit
  have h : s.Orderly := .of_bare hrooted hbare
  have hplace : Path.segments path = ["missing"] ++ [repeated 256] := segments_overlong
  obtain ⟨hlong, hnear⟩ := size_overlong
  have hnul : Tree.hasNul ["missing", repeated 256] = false := by
    simp [Tree.hasNul, nul_not_mem_repeated]
  obtain ⟨hlate, e, left, hrun, hgrown, hmade⟩ := folder_made hrooted hbare segments_overlong
    (by decide) (by decide) (not_isSidecarName_repeated 256) hlong hnear [1] false
  have hends : (Script.write path [1] false).Ends (fun _ => False) s .stopped left := by
    have hstate : ((Script.write path [1] false).run s).2 = left :=
      congrArg Prod.snd ((Script.Spells.write path [1] false s).trans hrun)
    exact hstate ▸ Script.stopped_last _ s
  have hleft : left.Sound := h.sound.grown hgrown (not_prefix_temporary (by decide))
  obtain ⟨r, hopened, hr, -⟩ := init_sound hleft
  have hreopened : reopened left = r := congrArg Prod.snd hopened
  refine ⟨left, hends, hlate.1, ?_, ?_⟩
  · refine hrooted.read_stray hlate.1.free hplace hnul hnear (fun q content _ hfile => ?_)
      (by decide) ?_
    · rw [hbare] at hfile
      split at hfile <;> simp at hfile
    · rw [hbare, if_neg (by decide)]
  · rw [hreopened]
    refine hr.sound.rooted.read_overlong hlate.1.free hplace hnul hnear ?_ hlong
    rw [hr.node_eq (by decide), hmade]

end Depot.Storage.Disk
