import Depot.Proofs.Disk.Display
import Depot.Proofs.Disk.Sidecar
import Depot.Proofs.Listing.Origin

/-!
Metadata of files, as callers see them: they are read back and listed until others come or the
file goes, and nothing else that is seen depends on them, but for one thing. A sidecar takes a
name, so a file whose sidecar would stand in the place of a folder cannot have metadata, and
where there is a sidecar no such folder can be made.
-/
namespace Depot.Storage.Disk

variable {t t' : Tree} {p q r : Place} {path name : String} {content data : Bytes} {n : Node}
  {m : Texts} {o : Listing.Options} {e : Entry}

/-! ### What is read and listed -/

namespace Tree.Orderly

/-- The entry of a file, with its metadata if they are asked for. -/
theorem levelItem_of_file (h : t.Orderly) {kept : Metadata}
    (hfile : t.nodes.get? (p ++ [name]) = some (.file content))
    (hmetadata : readMetadata t (p ++ [name]) = .ok kept) :
    levelItem t p o name =
      .ok (if isSidecarName name = false ∧ Listing.Options.prefixPasses o.filePrefix name then
        some (fileShown t (pathOf (p ++ [name])) ⟨content, kept⟩ o.withMetadata) else none) := by
  obtain ⟨found, hfound, hentry⟩ := h.entryOf_file hfile o.withMetadata
  have hshown : fileShown t (pathOf (p ++ [name])) ⟨content, found⟩ o.withMetadata =
      fileShown t (pathOf (p ++ [name])) ⟨content, kept⟩ o.withMetadata := by
    cases hwith : o.withMetadata with
    | false => rfl
    | true => rw [Except.ok.inj ((hfound hwith).symm.trans hmetadata)]
  unfold levelItem
  simp only [h.rooted.stat_of_node hfile, hentry, hshown]
  cases isSidecarName name with
  | true => simp
  | false =>
    simp only [Bool.false_eq_true, if_false, true_and]
    split <;> rfl

/-- What a level shows of a folder, with the metadata of its files. -/
theorem mem_items_iff (h : t.Orderly) :
    e ∈ Mirrors.items t p o ↔
      (∃ name, t.nodes.get? (p ++ [name]) = some .folder ∧ p ++ [name] ≠ [temporaryFolder] ∧
        e = folderShown t (pathOf (p ++ [name]))) ∨
      ∃ name content kept, t.nodes.get? (p ++ [name]) = some (.file content) ∧
        readMetadata t (p ++ [name]) = .ok kept ∧ ¬ IsSidecar (p ++ [name]) ∧
        Listing.Options.prefixPasses o.filePrefix name = true ∧
        e = fileShown t (pathOf (p ++ [name])) ⟨content, kept⟩ o.withMetadata := by
  rw [h.mem_items]
  refine or_congr_right ⟨?_, ?_⟩
  · rintro ⟨name, content, m, hfile, hitem, hplain, hpasses, -⟩
    obtain ⟨kept, hkept⟩ := h.readMetadata_eq_ok (h.rooted.clean hfile) (h.ne_nil_of_file hfile)
    refine ⟨name, content, kept, hfile, hkept, hplain, hpasses, ?_⟩
    rw [isSidecar_concat, Bool.not_eq_true] at hplain
    rw [h.levelItem_of_file hfile hkept, if_pos ⟨hplain, hpasses⟩] at hitem
    exact (Option.some.inj (Except.ok.inj hitem)).symm
  · rintro ⟨name, content, kept, hfile, hkept, hplain, hpasses, rfl⟩
    refine ⟨name, content, kept, hfile, ?_, hplain, hpasses, rfl⟩
    rw [isSidecar_concat, Bool.not_eq_true] at hplain
    rw [h.levelItem_of_file hfile hkept, if_pos ⟨hplain, hpasses⟩]

/-- When the listing of everything fails: some folder has the name of a sidecar. -/
theorem listing_fails_iff (h : t.Orderly) (hfolder : o.folder = Path.root)
    (hrecurse : o.recurse = true) (hlimit : o.limit = none) (hfilter : o.filter = none) :
    (∃ e, (backend.listReport t o).answer = .error e) ↔
      ∃ p, t.nodes.get? p = some .folder ∧ IsSidecar p :=
  (h.verdict hfolder hrecurse hlimit).fails.trans (h.blamed_iff hfolder hfilter)

/-- What the listing of everything shows, if it does not fail. -/
theorem mem_listing_iff (h : t.Orderly) (hfolder : o.folder = Path.root)
    (hrecurse : o.recurse = true) (hlimit : o.limit = none) (hfilter : o.filter = none)
    (hnames : o.filePrefix = none) {es : List Entry}
    (hlist : (backend.listReport t o).answer = .ok es) :
    e ∈ es ↔ ∃ p, t.nodes.get? p = some .folder ∧ p ≠ [temporaryFolder] ∧
      e ∈ Mirrors.items t p o.oneLevel := by
  have hplain : ∀ p, t.nodes.get? p = some .folder → ¬ IsSidecar p := by
    intro p hthere hname
    obtain ⟨e, he⟩ := (h.listing_fails_iff hfolder hrecurse hlimit hfilter).mpr ⟨p, hthere, hname⟩
    rw [hlist] at he
    simp at he
  obtain ⟨es', hlist', -, hmem⟩ := h.shown hfolder hrecurse hlimit hfilter hnames hplain
  rw [Except.ok.inj (hlist.symm.trans hlist')]
  exact hmem e

theorem mem_listing_timeless_iff (h : t.Orderly) (hfolder : o.folder = Path.root)
    (hrecurse : o.recurse = true) (hlimit : o.limit = none) (hfilter : o.filter = none)
    (hnames : o.filePrefix = none) {es : List Entry}
    (hlist : (backend.listReport t o).answer = .ok es) :
    e ∈ es.map Entry.timeless ↔ ∃ p, t.nodes.get? p = some .folder ∧ p ≠ [temporaryFolder] ∧
      e ∈ (Mirrors.items t p o.oneLevel).map Entry.timeless := by
  simp only [List.mem_map, h.mem_listing_iff hfolder hrecurse hlimit hfilter hnames hlist]
  constructor
  · rintro ⟨e', ⟨p, hthere, hown, he'⟩, heq⟩
    exact ⟨p, hthere, hown, e', he', heq⟩
  · rintro ⟨p, hthere, hown, e', he', heq⟩
    exact ⟨e', ⟨p, hthere, hown, he'⟩, heq⟩

end Tree.Orderly

structure Reports (s : Tree) (path : String) (m : Metadata) : Prop where
  held : backend.holds s path = .ok true
  entry : ∃ e, backend.entries [some path] s = .ok [some e] ∧ e.path = path ∧ e.metadata = m
  /-- No listing shows other metadata. -/
  listed : ∀ o, o.withMetadata = true → ∀ es, (backend.listReport s o).answer = .ok es →
    ∀ e ∈ es, e.kind = .file → e.path = path → e.metadata = m
  /-- The listing of everything shows the file. -/
  shown : ∀ o, o.folder = Path.root → o.recurse = true → o.limit = none → o.filter = none →
    o.filePrefix = none → ∀ es, (backend.listReport s o).answer = .ok es →
    ∃ e ∈ es, e.kind = .file ∧ e.path = path

theorem Tree.Orderly.reports (h : t.Orderly) (hpath : filePath (some path) = .ok path)
    (hfree : ¬ Reserved path) {kept : Metadata}
    (hfile : t.nodes.get? (Path.segments path) = some (.file content))
    (hkept : readMetadata t (Path.segments path) = .ok kept) : Reports t path kept where
  held := h.rooted.holds_iff.mpr ⟨hfree, content, hfile⟩
  entry := by
    have hanswer := h.rooted.entry?_iff.mpr ⟨hfree, content, kept, hfile, hkept, rfl⟩
    have hnormal := normalize_of_filePath hpath
    refine ⟨_, entries_singleton hpath hanswer, ?_, rfl⟩
    rw [path_fileShown, hnormal, hnormal]
  listed o hwith es hlist e he hkind hname := by
    obtain ⟨-, folder, level, hreply, hmem⟩ := Listing.drawn_of_list hlist he
    have hasked :
        (Listing.Plan.ofOptions backend.hierarchical o).callOptions.withMetadata = true := by
      unfold Listing.Plan.callOptions
      split <;> exact hwith
    generalize (Listing.Plan.ofOptions backend.hierarchical o).callOptions = asked at hreply hasked
    obtain ⟨hplain, hfolder⟩ := h.level_eq_ok_iff.mp ⟨level, hreply⟩
    have hlevel := h.level_eq hplain hfolder asked
    rw [Except.ok.inj (hreply.symm.trans hlevel), (split_perm _).mem_iff, h.mem_items_iff] at hmem
    rcases hmem with ⟨name, -, -, rfl⟩ | ⟨name, content', kept', hfile', hkept', -, -, rfl⟩
    · simp [folderShown, Entry.make] at hkind
    · have hplace : Path.segments path = Path.segments folder ++ [name] := by
        rw [← hname, path_fileShown, Path.segments_normalize,
          segments_pathOf (h.rooted.clean hfile')]
      rw [← hplace, hkept] at hkept'
      rw [hasked, Except.ok.inj hkept']
      rfl
  shown o hfolder hrecurse hlimit hfilter hnames es hlist := by
    obtain ⟨e, hshown, hkind, hname, -⟩ := (h.file_shown_iff (o := o.oneLevel) hnames).mpr
      ⟨normalize_of_filePath hpath, h.rooted.holds_iff.mpr ⟨hfree, content, hfile⟩, content,
        h.rooted.read_of_file hfree hfile, rfl⟩
    exact ⟨e, (h.mem_listing_iff hfolder hrecurse hlimit hfilter hnames hlist).mpr hshown, hkind,
      hname⟩

/-! ### What nobody else sees -/

/-- Callers see the same in two states, but for times, for the metadata of one file and for writes
below its sidecar. -/
structure SameBut (path : String) (s s' : Tree) : Prop where
  held : ∀ q, backend.holds s' q = .ok true ↔ backend.holds s q = .ok true
  content : ∀ q content, backend.read s' q = .ok content ↔ backend.read s q = .ok content
  entry : ∀ q, Path.normalize q ≠ path → ∀ e,
    (∃ e', backend.entry? s' q = .ok (some e') ∧ e'.timeless = e) ↔
      ∃ e', backend.entry? s q = .ok (some e') ∧ e'.timeless = e
  level : ∀ folder o,
    ((∃ es, backend.level s' folder o = .ok es) ↔ ∃ es, backend.level s folder o = .ok es) ∧
    ∀ es es', backend.level s folder o = .ok es → backend.level s' folder o = .ok es' →
      ∀ e : Entry, e.path ≠ path → (e ∈ es'.map Entry.timeless ↔ e ∈ es.map Entry.timeless)
  /-- The listing of everything. -/
  listing : ∀ o, o.folder = Path.root → o.recurse = true → o.limit = none → o.filter = none →
    o.filePrefix = none →
    ((∃ e, (backend.listReport s' o).answer = .error e) ↔
      ∃ e, (backend.listReport s o).answer = .error e) ∧
    ∀ es es', (backend.listReport s o).answer = .ok es →
      (backend.listReport s' o).answer = .ok es' →
      ∀ e : Entry, e.path ≠ path → (e ∈ es'.map Entry.timeless ↔ e ∈ es.map Entry.timeless)
  write : ∀ file data append,
    ¬ WritesBelow (sidecar (Path.segments path)) (.write file data append) →
    (((backend.store file data append).runFrom s').1 = .ok () ↔
      ((backend.store file data append).runFrom s).1 = .ok ())

namespace Tree.Twins

theorem folder_iff (h : t.Twins (sidecar r) t') :
    t'.nodes.get? p = some .folder ↔ t.nodes.get? p = some .folder := by
  by_cases hp : p = sidecar r
  · rw [hp]
    exact iff_of_false h.plain' h.plain
  · rw [h.same p hp]

theorem file_iff (h : t.Twins (sidecar r) t') (hplain : ¬ IsSidecar p) :
    t'.nodes.get? p = some (.file content) ↔ t.nodes.get? p = some (.file content) := by
  rw [h.same p fun heq => hplain (heq ▸ isSidecar_sidecar r)]

/-- The metadata of other files are the same. -/
theorem readMetadata_eq (h : t.Twins (sidecar r) t') (hr : r ≠ [])
    (hfile : t.nodes.get? p = some (.file content)) (hother : p ≠ r) :
    readMetadata t' p = readMetadata t p := by
  have hsome := h.orderly.ne_nil_of_file hfile
  refine h.orderly.rooted.readMetadata_congr h.orderly'.rooted
    (h.orderly.rooted.clean hfile) hsome fun _ => ?_
  rw [h.same _ fun heq => hother (sidecar_injective hsome hr heq)]

/-- What one of them shows in a folder, the other one does too, maybe at another time. -/
theorem item_of_item (h : t.Twins (sidecar r) t') (hr : r ≠ []) (hother : Path.segments e.path ≠ r)
    (he : e ∈ Mirrors.items t p o) : ∃ e' ∈ Mirrors.items t' p o, e'.timeless = e.timeless := by
  rcases h.orderly.mem_items_iff.mp he with ⟨name, hfolder, hown, rfl⟩ |
    ⟨name, content, kept, hfile, hkept, hplain, hpasses, rfl⟩
  · exact ⟨_, h.orderly'.mem_items_iff.mpr (.inl ⟨name, h.folder_iff.mpr hfolder, hown, rfl⟩),
      timeless_folderShown ..⟩
  · rw [path_fileShown, Path.segments_normalize,
      segments_pathOf (h.orderly.rooted.clean hfile)] at hother
    rw [← h.readMetadata_eq hr hfile hother] at hkept
    exact ⟨_, h.orderly'.mem_items_iff.mpr
      (.inr ⟨name, content, kept, (h.file_iff hplain).mpr hfile, hkept, hplain, hpasses, rfl⟩),
      timeless_fileShown ..⟩

theorem mem_items_iff (h : t.Twins (sidecar r) t') (hr : r ≠ [])
    (hother : Path.segments e.path ≠ r) :
    e ∈ (Mirrors.items t' p o).map Entry.timeless ↔
      e ∈ (Mirrors.items t p o).map Entry.timeless := by
  rw [List.mem_map, List.mem_map]
  constructor
  · rintro ⟨e', he', rfl⟩
    exact h.symm.item_of_item hr hother he'
  · rintro ⟨e', he', rfl⟩
    exact h.item_of_item hr hother he'

/-- What one of them answers for a path, the other one does too, maybe with another time. -/
theorem entry_of_entry (h : t.Twins (sidecar r) t') (hr : r ≠ []) (hother : Path.segments path ≠ r)
    (hentry : entry? t path = .ok (some e)) :
    ∃ e', entry? t' path = .ok (some e') ∧ e'.timeless = e.timeless := by
  obtain ⟨hfree, content, kept, hfile, hkept, rfl⟩ := h.orderly.rooted.entry?_iff.mp hentry
  rw [← h.readMetadata_eq hr hfile hother] at hkept
  exact ⟨_, h.orderly'.rooted.entry?_iff.mpr ⟨hfree, content, kept,
    (h.file_iff (not_or.mp hfree).2).mpr hfile, hkept, rfl⟩, timeless_fileShown ..⟩

theorem sameBut (h : t.Twins (sidecar (Path.segments path)) t')
    (hpath : filePath (some path) = .ok path) : SameBut path t t' := by
  have hnormal := normalize_of_filePath hpath
  have hsome := Path.segments_ne_nil hnormal (filePath_eq_ok.mp hpath).2
  have hd := isSidecar_sidecar (Path.segments path)
  have hother : ∀ q, Path.normalize q ≠ path → Path.segments q ≠ Path.segments path := by
    intro q hq heq
    exact hq (by rw [Path.normalize_eq_iff.mpr heq, hnormal])
  have hentry : ∀ e : Entry, e.path ≠ path → Path.segments e.path ≠ Path.segments path :=
    fun e he => hother e.path (e.path_normal.symm ▸ he)
  refine ⟨fun q => ?_, fun q content => ?_, fun q hq e => ?_, fun folder o => ⟨?_, ?_⟩,
    fun o hfolder hrecurse hlimit hfilter hnames => ⟨?_, ?_⟩, fun file data append hbelow => ?_⟩
  · change holds t' q = _ ↔ holds t q = _
    rw [h.orderly.rooted.holds_iff, h.orderly'.rooted.holds_iff]
    exact and_congr_right fun hfree => exists_congr fun content => h.file_iff (not_or.mp hfree).2
  · change Disk.read t' q = _ ↔ Disk.read t q = _
    rw [h.orderly.rooted.read_iff, h.orderly'.rooted.read_iff]
    exact and_congr_right fun hfree => h.file_iff (not_or.mp hfree).2
  · constructor
    · rintro ⟨e', hentry, rfl⟩
      exact h.symm.entry_of_entry hsome (hother q hq) hentry
    · rintro ⟨e', hentry, rfl⟩
      exact h.entry_of_entry hsome (hother q hq) hentry
  · exact h.orderly'.level_eq_ok_iff.trans
      ((and_congr_right fun _ => h.folder_iff).trans h.orderly.level_eq_ok_iff.symm)
  · intro es es' hlevel hlevel' e he
    obtain ⟨hfree, hfolder⟩ := h.orderly.level_eq_ok_iff.mp ⟨es, hlevel⟩
    rw [Except.ok.inj (hlevel.symm.trans (h.orderly.level_eq hfree hfolder o)),
      Except.ok.inj (hlevel'.symm.trans (h.orderly'.level_eq hfree (h.folder_iff.mpr hfolder) o)),
      ((split_perm _).map _).mem_iff, ((split_perm _).map _).mem_iff,
      h.mem_items_iff hsome (hentry e he)]
  · rw [h.orderly.listing_fails_iff hfolder hrecurse hlimit hfilter,
      h.orderly'.listing_fails_iff hfolder hrecurse hlimit hfilter]
    exact exists_congr fun p => and_congr_left fun _ => h.folder_iff
  · intro es es' hlist hlist' e he
    rw [h.orderly.mem_listing_timeless_iff hfolder hrecurse hlimit hfilter hnames hlist,
      h.orderly'.mem_listing_timeless_iff hfolder hrecurse hlimit hfilter hnames hlist']
    refine exists_congr fun p => ?_
    rw [h.folder_iff, h.mem_items_iff hsome (hentry e he)]
  · unfold Backend.store
    rw [runFrom_onFile, runFrom_onFile]
    cases hfile : filePath file with
    | error e => simp
    | ok q => exact h.write_ok_iff (segments_of_filePath hfile ▸ hbelow)

end Tree.Twins

/-- What comes of metadata that a file is given, from one state to the next. -/
structure Annotated (path : String) (m : Texts) (s s' : Tree) : Prop where
  /-- The file has them until it is taken away or given others. -/
  lasting : ∀ rest, (∀ c ∈ rest, ¬ Supersedes (Path.segments path) c) →
    Reports (after backend s' rest) path (Json.ofTexts m)
  deleted : ∀ rest paths, (∃ q ∈ paths, Path.segments (Path.orRoot q) = Path.segments path) →
    backend.holds (after backend s' (rest ++ [.delete paths])) path ≠ .ok true
  /-- A file that was away and has come back has none. -/
  renewed : ∀ rest more, backend.holds (after backend s' rest) path ≠ .ok true →
    (∀ c ∈ more, ¬ Annotates (Path.segments path) c) →
    backend.holds (after backend s' (rest ++ more)) path = .ok true →
    Reports (after backend s' (rest ++ more)) path .empty
  elsewhere : ∀ rest, (∀ c ∈ rest, ¬ WritesBelow (sidecar (Path.segments path)) c) →
    SameBut path (after backend s rest) (after backend s' rest)
  /-- Below the sidecar nothing can be written. -/
  below : ∀ file data append, WritesBelow (sidecar (Path.segments path)) (.write file data append) →
    ((backend.store file data append).runFrom s').1 ≠ .ok ()

theorem after_append (s : Tree) (changes more : List Change) :
    after backend s (changes ++ more) = after backend (after backend s changes) more :=
  List.foldl_append

/-- A file that is left after deletes was there, and none of them was for it. -/
theorem Tree.Orderly.left_of_deletes (h : t.Orderly) (hfree : ¬ Reserved path)
    (hsome : Path.segments path ≠ []) {names : List String}
    (hfile : (names.foldl (fun s q => ((backend.delete q).runFrom s).2) t).nodes.get?
      (Path.segments path) = some (.file content)) :
    t.nodes.get? (Path.segments path) = some (.file content) ∧
      ∀ q ∈ names, Path.segments q ≠ Path.segments path := by
  induction names generalizing t with
  | nil => exact ⟨hfile, by simp⟩
  | cons q rest ih =>
    obtain ⟨hfirst, hrest⟩ := ih (h.delete q) hfile
    refine ⟨h.file_of_delete hfirst, List.forall_mem_cons.mpr ⟨fun hsame => ?_, hrest⟩⟩
    have hfree' : ¬ Reserved q := by rwa [Reserved, hsame]
    exact h.no_file_of_delete hfree' (hsame ▸ hsome) (hsame ▸ hfirst)

theorem Tree.Orderly.not_held_delete (h : t.Orderly) (hsome : Path.segments path ≠ [])
    {paths : List (Option String)}
    (hmem : ∃ q ∈ paths, Path.segments (Path.orRoot q) = Path.segments path) :
    backend.holds (Change.apply backend (.delete paths) t) path ≠ .ok true := by
  intro hheld
  obtain ⟨hfree, content, hfile⟩ := ((h.after [.delete paths]).rooted.holds_iff).mp hheld
  change (Change.apply backend (.delete paths) t).nodes.get? _ = _ at hfile
  rw [Change.apply_delete] at hfile
  obtain ⟨q, hq, hsame⟩ := hmem
  refine (h.left_of_deletes hfree hsome hfile).2 _ (List.mem_map_of_mem hq) ?_
  rw [Path.segments_normalize, hsame]

theorem Tree.Orderly.annotated_done (h : t.Orderly) (hpath : filePath (some path) = .ok path)
    (hfree : ¬ Reserved path)
    (hfile : t.nodes.get? (Path.segments path) = some (.file content))
    (hable : t.Detachable (Path.segments path)) (m : Texts) :
    ∃ u, (Disk.setMetadata path m).runFrom t = (.ok (), u) ∧ Annotated path m t u := by
  obtain ⟨u, hrun, hread⟩ := annotate_done h hfree hfile hable m
  have hsome := h.ne_nil_of_file hfile
  have hplain := (not_or.mp hfree).2
  have hu : u.Orderly := by
    have hu := h.setMetadata path m
    rwa [hrun] at hu
  have hnoted : u.Noted (Path.segments path) m := by
    have hother : Path.segments path ≠ sidecar (Path.segments path) := fun heq =>
      hplain (heq ▸ isSidecar_sidecar _)
    exact ⟨⟨content, by rw [hread, if_neg hother, hfile]⟩, by rw [hread, if_pos rfl]⟩
  have htwins : t.Twins (sidecar (Path.segments path)) u :=
    ⟨h, hu, fun p hp => by rw [hread, if_neg hp], hable.2, by simp [hnoted.note]⟩
  refine ⟨u, hrun, fun rest hrest => ?_, fun rest paths hmem => ?_,
    fun rest more hgone hmore hheld => ?_, fun rest hrest => ?_, fun file data append hbelow => ?_⟩
  · have hlater := hu.after rest
    have hnoted' := hnoted.after hu hplain rest hrest
    obtain ⟨kept, hkept⟩ := hnoted'.stored
    exact hlater.reports hpath hfree hkept (hnoted'.readMetadata hlater)
  · rw [after_append]
    exact (hu.after rest).not_held_delete hsome hmem
  · have hthen := hu.after rest
    rw [after_append] at hheld ⊢
    have hlater := hthen.after more
    obtain ⟨-, kept, hkept⟩ := hlater.rooted.holds_iff.mp hheld
    have hnone : (Storage.after backend u rest).Unnoted (Path.segments path) :=
      hthen.unnoted hsome fun content hthere =>
        hgone (hthen.rooted.holds_iff.mpr ⟨hfree, content, hthere⟩)
    exact hlater.reports hpath hfree hkept ((hnone.after hthen hsome more hmore).readMetadata hlater
      (clean_segments path) hsome)
  · exact (htwins.after (isSidecar_sidecar _) rest hrest).sameBut hpath
  · intro hok
    unfold Backend.store at hok
    rw [runFrom_onFile] at hok
    cases hname : filePath file with
    | error e => simp [hname] at hok
    | ok q =>
      rw [hname] at hok
      obtain ⟨hpasses, -⟩ := (Disk.write_ok_iff hu).mp hok
      have hsub : sidecar (Path.segments path) <+: Path.segments q :=
        segments_of_filePath hname ▸ hbelow
      by_cases heq : sidecar (Path.segments path) = Path.segments q
      · exact hpasses.free (Or.inr (heq ▸ isSidecar_sidecar _))
      · obtain ⟨more, hmore⟩ := hsub
        exact (hu.way hpasses.named hpasses.clear).1
          ⟨_, more, _, fun hnil => heq (by simpa [hnil] using hmore), hmore.symm, hnoted.note⟩

/-- Metadata of a stored file whose sidecar has a name that the file system takes. A folder of
that name is the only thing in the way. -/
theorem metadata_law (hfresh : t.Untouched) (changes : List Change) {file : Option String}
    (hpath : filePath file = .ok path)
    (hheld : backend.holds (after backend (backend.init.runFrom t).2 changes) path = .ok true)
    (hproper : Proper (sidecar (Path.segments path))) (m : Texts) :
    let s := after backend (backend.init.runFrom t).2 changes
    (s.nodes.get? (sidecar (Path.segments path)) = some .folder →
      ∃ e, (backend.annotate file m).runFrom s = (.error e, s)) ∧
    (s.nodes.get? (sidecar (Path.segments path)) ≠ some .folder →
      ∃ s', (backend.annotate file m).runFrom s = (.ok (), s') ∧ Annotated path m s s') := by
  intro s
  have h : s.Orderly := orderly_after hfresh changes
  obtain ⟨hfree, content, hfile⟩ := h.rooted.holds_iff.mp hheld
  have hnormal := normalize_of_filePath hpath
  have hself : filePath (some path) = .ok path :=
    filePath_eq_ok.mpr ⟨hnormal, (filePath_eq_ok.mp hpath).2⟩
  have hrun : (backend.annotate file m).runFrom s = (Disk.setMetadata path m).runFrom s := by
    unfold Backend.annotate
    rw [runFrom_onFile, hpath]
    rfl
  rw [hrun]
  constructor
  · intro hfolder
    exact annotate_refused h m (Or.inr (Or.inr fun hable => hable.2 hfolder))
  · intro hplain
    exact h.annotated_done hself hfree hfile ⟨hproper, hplain⟩ m

/-- A file that is given metadata and written again. -/
theorem metadata_law_again :
    let s := after backend (backend.init.runFrom .empty).2 [.write (some "a") [1] false]
    let m : Texts := OrderedMap.empty.insert "k" "v"
    backend.holds s "a" = .ok true ∧ ∃ s',
      (backend.annotate (some "/a") m).runFrom s = (.ok (), s') ∧
      Reports (after backend s' [.write (some "a") [2] true]) "a" (Json.ofTexts m) := by
  intro s m
  have hpath : filePath (some "a") = .ok "a" := by decide
  obtain ⟨h, hread⟩ : s.Orderly ∧ ∀ p, s.nodes.get? p = _ :=
    first_write untouched_empty hpath (by decide) (by decide) [1] (by decide) false
  have hheld : backend.holds s "a" = .ok true :=
    h.rooted.holds_iff.mpr ⟨by decide, [1], by rw [hread, if_pos rfl]⟩
  have hplain : s.nodes.get? (sidecar (Path.segments "a")) ≠ some .folder := by
    rw [hread, if_neg (by decide), if_neg (by decide)]
    simp
  have hfile : filePath (some "/a") = .ok "a" := by decide
  obtain ⟨-, hdone⟩ := metadata_law untouched_empty [.write (some "a") [1] false] hfile hheld
    (by decide) m
  obtain ⟨s', hrun, hannotated⟩ := hdone hplain
  exact ⟨hheld, s', hrun, hannotated.lasting [.write (some "a") [2] true] (by simp [Supersedes])⟩

/-- Only the last name of a path is looked at, so a sidecar and a folder can be in each other's
way: metadata of a file are refused, and a write elsewhere is refused once there are metadata. -/
theorem sidecar_in_the_way :
    let s := after backend (backend.init.runFrom .empty).2 [.write (some "a") [1] false]
    let s' := after backend s [.write (some "a.attr/x") [1] false]
    let s'' := after backend s [.annotate (some "a") .empty]
    (Proper (sidecar (Path.segments "a")) ∧ backend.holds s' "a" = .ok true ∧
      ((backend.annotate (some "a") .empty).runFrom s').1 ≠ .ok ()) ∧
    ((backend.store (some "a.attr/x") [1] false).runFrom s).1 = .ok () ∧
      ((backend.store (some "a.attr/x") [1] false).runFrom s'').1 ≠ .ok () := by
  intro s s' s''
  have hpath : filePath (some "a") = .ok "a" := by decide
  have hbelow : filePath (some "a.attr/x") = .ok "a.attr/x" := by decide
  have hfree : ¬ Reserved "a" := by decide
  have hplace : Path.segments "a.attr/x" = ["a.attr", "x"] := by decide
  have hsidecar : sidecar (Path.segments "a") = ["a.attr"] := by decide
  obtain ⟨h, hread⟩ : s.Orderly ∧ ∀ p, s.nodes.get? p = _ :=
    first_write untouched_empty hpath hfree (by decide) [1] (by decide) false
  have hfile : s.nodes.get? (Path.segments "a") = some (.file [1]) := by rw [hread, if_pos rfl]
  have hnone : s.nodes.get? ["a.attr"] = none := by
    rw [hread, if_neg (by decide), if_neg (by decide)]
  have hclear : ¬ s.Blocked (Path.segments "a.attr/x") := by
    rintro ⟨q, rest, content, -, hsplit, hthere⟩
    rw [hread] at hthere
    split at hthere
    · next hq =>
      rw [hq, hplace, show Path.segments "a" = ["a"] by decide] at hsplit
      simp at hsplit
    · split at hthere <;> simp at hthere
  have hplain : s.nodes.get? (Path.segments "a.attr/x") ≠ some .folder := by
    rw [hread, if_neg (by decide), if_neg (by decide)]
    simp
  have hfree' : ¬ Reserved "a.attr/x" := by decide
  obtain ⟨u, hwrite, hwritten⟩ := write_done h hfree' (by decide)
      (by decide) hplain hclear [1] false
  have hstate : s' = u := by
    change Change.apply backend _ s = u
    rw [Change.apply_write, hbelow]
    exact congrArg Prod.snd hwrite
  have hu : u.Orderly := hstate ▸ h.after _
  have hkept : u.nodes.get? (Path.segments "a") = some (.file [1]) := by
    rw [hwritten.read, if_neg (by decide), if_neg (by decide), hfile]
  have hfolder : u.nodes.get? (sidecar (Path.segments "a")) = some .folder := by
    rw [hwritten.read, hsidecar, if_neg (by decide), if_pos (by decide)]
  obtain ⟨e, hrefused⟩ := annotate_refused hu .empty (Or.inr (Or.inr fun hable => hable.2 hfolder))
  obtain ⟨v, hannotate, hannotated⟩ := h.annotated_done hpath hfree hfile
    ⟨by decide, by rw [hsidecar, hnone]; simp⟩ .empty
  have hstate' : s'' = v := by
    change Change.apply backend _ s = v
    rw [Change.apply_annotate, hpath]
    exact congrArg Prod.snd hannotate
  refine ⟨⟨by decide, ?_, ?_⟩, ?_, ?_⟩
  · rw [hstate]
    exact hu.rooted.holds_iff.mpr ⟨hfree, [1], hkept⟩
  · have hcall : (backend.annotate (some "a") .empty).runFrom u = (.error e, u) := by
      unfold Backend.annotate
      rw [runFrom_onFile, hpath]
      exact hrefused
    rw [hstate, hcall]
    simp
  · unfold Backend.store
    rw [runFrom_onFile, hbelow]
    exact congrArg Prod.fst hwrite
  · rw [hstate']
    exact hannotated.below (some "a.attr/x") [1] false
      (show sidecar (Path.segments "a") <+: Path.segments "a.attr/x" by decide)

end Depot.Storage.Disk
