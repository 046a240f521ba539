import Depot.Proofs.Disk.Contents

/-!
Two trees that differ in the sidecar of one file at most. Whatever is done to both of them, they
stay so, as long as nothing is written below the place of the sidecar: there a sidecar stands
in the way of a write, and nowhere else.
-/
namespace Depot.Storage.Disk

/-- Two trees in order that are the same but for one place, which is no folder in either. -/
structure Tree.Twins (d : Place) (t t' : Tree) : Prop where
  orderly : t.Orderly
  orderly' : t'.Orderly
  same : ∀ p, p ≠ d → t'.nodes.get? p = t.nodes.get? p
  plain : t.nodes.get? d ≠ some .folder
  plain' : t'.nodes.get? d ≠ some .folder

variable {t t' u u' : Tree} {d p q here names : Place} {path name : String} {content data : Bytes}
  {n : Node} {goal : Tree.Goal} {links : Nat} {append : Bool}

/-! ### Looking places up -/

/-- A look-up depends on what stands on the way alone. -/
theorem Tree.Rooted.walk_congr (h : t.Rooted) (h' : t'.Rooted) (hclean : Clean (here ++ names))
    (hsame : ∀ q, q <+: here ++ names → t'.nodes.get? q = t.nodes.get? q) :
    t'.walk goal links here names = t.walk goal links here names := by
  induction names generalizing here with
  | nil => rw [Tree.walk, Tree.walk]
  | cons name rest ih =>
    have hnext : here ++ [name] <+: here ++ name :: rest := ⟨rest, by simp⟩
    rw [h.walk_clean hclean, h'.walk_clean hclean, hsame here (List.prefix_append _ _),
      hsame _ hnext, ih (by simpa using hclean) (by simpa using hsame)]

theorem Tree.Rooted.stat_congr (h : t.Rooted) (h' : t'.Rooted) (hclean : Clean p)
    (hsame : ∀ q, q <+: p → t'.nodes.get? q = t.nodes.get? q) : t'.stat p = t.stat p := by
  have hwalk : t'.walk .target linkLimit [] p = t.walk .target linkLimit [] p :=
    h.walk_congr h' (by simpa using hclean) (by simpa using hsame)
  have hlocate : t'.locate .target p = t.locate .target p := by
    rw [Tree.locate, Tree.locate, hwalk]
  unfold Tree.stat
  rw [hlocate]
  cases hfound : t.locate .target p with
  | error e => rfl
  | ok q =>
    obtain ⟨rfl, hproper, -⟩ := h.locate_eq_ok hclean hfound
    simp only [hproper.node?, hsame q (List.prefix_refl q)]

theorem Tree.Rooted.test_congr (h : t.Rooted) (h' : t'.Rooted) (hclean : Clean p)
    (hsame : ∀ q, q <+: p → t'.nodes.get? q = t.nodes.get? q) (f : Node → Bool) :
    t'.test p f = t.test p f := by
  rw [Tree.test, Tree.test, h.stat_congr h' hclean hsame]

theorem Tree.Rooted.fileAbove_congr (h : t.Rooted) (h' : t'.Rooted) (hclean : Clean p)
    (hsame : ∀ q, q <+: p → t'.nodes.get? q = t.nodes.get? q) :
    fileAbove t' p = fileAbove t p := by
  have hgo : ∀ above : List Place, (∀ q ∈ above, q <+: p) →
      fileAbove.go t' above = fileAbove.go t above := by
    intro above
    induction above with
    | nil => intro _; rfl
    | cons q rest ih =>
      intro hsub
      obtain ⟨hq, hrest⟩ := List.forall_mem_cons.mp hsub
      have hask : t'.isFile q = t.isFile q :=
        h.test_congr h' (hclean.sublist hq.sublist) (fun r hr => hsame r (hr.trans hq)) _
      rw [fileAbove.go, fileAbove.go, hask, ih hrest]
  refine hgo _ fun q hq => ?_
  obtain ⟨k, -, rfl⟩ := List.mem_map.mp (List.mem_reverse.mp hq)
  exact List.take_prefix _ _

/-! ### Writes that the file system refuses -/

/-- Where every proper place on the way is taken nothing is made. -/
theorem Tree.Grown.same (hgrown : t.Grown t' p)
    (htaken : ∀ q, q <+: p → Proper q → t.nodes.get? q ≠ none) (q : Place) :
    t'.nodes.get? q = t.nodes.get? q := by
  cases hold : t.nodes.get? q with
  | some n => exact hgrown.kept q n hold
  | none =>
    rw [Option.eq_none_iff_forall_ne_some]
    intro n hn
    rcases hgrown.new q n hn with hsome | ⟨-, hsub⟩
    · rw [hold] at hsome
      simp at hsome
    · exact htaken q hsub (hgrown.rooted.proper q n hn) hold

/-- The folders that are made on the way to a place: those whose places are proper. -/
theorem makeFolders_read (h : t.Rooted) (hclean : Clean p) (hnul : Tree.hasNul p = false)
    (hnear : Tree.isTooLong p = false) (hclear : t.Clear p) (q : Place) :
    ((makeFolders p).runFrom t).2.nodes.get? q =
      if q <+: p ∧ Proper q then some .folder else t.nodes.get? q := by
  have hgood : ∀ p, Proper p → t.Clear p → ∀ q, ((makeFolders p).runFrom t).2.nodes.get? q =
      if q <+: p ∧ Proper q then some .folder else t.nodes.get? q := by
    intro p hp hclear q
    obtain ⟨t', hrun, hpaved⟩ := makeFolders_spec h hp hclear
    have hproper : q <+: p ∧ Proper q ↔ q <+: p :=
      and_iff_left_of_imp fun hsub => hp.sublist hsub.sublist
    rw [hrun, hpaved.2, if_congr hproper rfl rfl]
  induction p using List.reverseRecOn generalizing q with
  | nil => exact hgood [] .nil hclear q
  | append_singleton init name ih =>
    by_cases hp : Proper (init ++ [name])
    · exact hgood _ hp hclear q
    have hinit : init <+: init ++ [name] := List.prefix_append init [name]
    have hway : ∀ r, r <+: init ++ [name] ∧ Proper r ↔ r <+: init ∧ Proper r := fun r =>
      ⟨fun ⟨hsub, hr⟩ => ⟨(List.prefix_concat_iff.mp hsub).resolve_left fun heq =>
        hp (heq ▸ hr), hr⟩,
        fun ⟨hsub, hr⟩ => ⟨hsub.trans hinit, hr⟩⟩
    rw [if_congr (hway q) rfl rfl]
    by_cases hmissing : ∃ r, r <+: init ∧ Proper r ∧ t.nodes.get? r = none
    · -- The call for the place itself fails for want of its folder, so those above it come first.
      obtain ⟨r, ⟨more, rfl⟩, hr, hnone⟩ := hmissing
      have hstray : (ensureFolder (r ++ more ++ [name])).runFrom t = (.error .noEntry, t) := by
        rw [List.append_assoc] at hclean hnul hnear hclear ⊢
        exact ensureFolder_stray (locate_stray h hclean hnul hnear
          (fun s content hs => hclear s content (hs.trans (List.prefix_append _ _))) hr
            hnone (by simp))
      have hnul' : Tree.hasNul (r ++ more) = false := by
        rw [Tree.hasNul, List.any_append, Bool.or_eq_false_iff] at hnul
        exact hnul.1
      have hread : ∀ q, _ := ih (hclean.sublist hinit.sublist) hnul'
        (isTooLong_of_sublist hinit.sublist hnear)
          (fun s content hs => hclear s content (hs.trans hinit))
      have hrooted := (makeFolders_grown h (hclean.sublist hinit.sublist)).rooted
      rw [makeFolders_concat, Os.runFrom_tryCatch, hstray]
      rcases hrun : (makeFolders (r ++ more)).runFrom t with ⟨answer, t₁⟩
      rw [hrun] at hread hrooted
      cases answer with
      | error e => simpa [Os.runFrom_bind, hrun] using hread q
      | ok _ =>
        have hlast := (ensureFolder_grown hrooted hclean).same (fun s hsub hs => ?_) q
        · simpa [Os.runFrom_bind, hrun] using hlast.trans (hread q)
        · rw [hread, if_pos ((hway s).mp ⟨hsub, hs⟩)]
          simp
    · push Not at hmissing
      rw [(makeFolders_grown h hclean).same (fun r hsub hr =>
        hmissing r ((hway r).mp ⟨hsub, hr⟩).1 hr) q]
      split
      · next hq =>
        obtain ⟨n, hn⟩ := Option.ne_none_iff_exists'.mp (hmissing q hq.1 hq.2)
        cases n with
        | folder => exact hn
        | file content => exact absurd hn (hclear q content (hq.1.trans hinit))
        | link target => exact absurd hn (h.free q target)
      · rfl

/-- What a write to a place that the file system refuses leaves behind. -/
theorem write_improper (h : t.Orderly) (hpasses : t.Passes path)
    (himproper : ¬ Proper (Path.segments path)) (data : Bytes) (append : Bool) :
    (∃ e, ((write path data append).runFrom t).1 = .error e) ∧
    ∀ q, ((write path data append).runFrom t).2.nodes.get? q =
      if Tree.hasNul (Path.segments path).dropLast = false ∧
          q <+: (Path.segments path).dropLast ∧ Proper q then some .folder
      else t.nodes.get? q := by
  have hclean := clean_segments path
  have hclear := (h.way hpasses.named hpasses.clear).2
  rw [write_started hpasses, Os.runFrom_act, Os.runFrom_bind]
  cases hnul : Tree.hasNul (Path.segments path).dropLast with
  | true =>
    obtain ⟨e, hrun⟩ : ∃ e, (makeFolders _).runFrom t = (.error e, t) := makeFolders_nul hnul
    rw [hrun]
    exact ⟨⟨_, rfl⟩, fun q => by simp⟩
  | false =>
    have hread := makeFolders_read h.rooted hclean.dropLast hnul
        (near_above hpasses.clear hnul) hclear
    have hgrown := makeFolders_grown h.rooted hclean.dropLast
    rcases hmade : (makeFolders (Path.segments path).dropLast).runFrom t with ⟨r, t₁⟩
    rw [hmade] at hread hgrown
    simp only [true_and]
    cases r with
    | error e => exact ⟨⟨_, rfl⟩, hread⟩
    | ok _ =>
      have hother : (Path.segments path).head? ≠ some temporaryFolder := fun hfirst =>
        hpasses.free (Or.inl hfirst)
      obtain ⟨e, t₂, hfill, hsame⟩ := fill_refused hgrown.rooted
        (h.swept.grown hgrown (head?_dropLast_ne hother)) hclean himproper data append
      simp only [hfill]
      exact ⟨⟨_, rfl⟩, fun q => hsame.nodes ▸ hread q⟩

/-- A write that passes its checks goes through if the file system takes the place. -/
theorem write_proper (h : t.Orderly) (hpasses : t.Passes path)
    (hproper : Proper (Path.segments path)) (data : Bytes) (append : Bool) :
    ∃ u, (write path data append).runFrom t = (.ok (), u) ∧
      t.Written u (Path.segments path) (t.filled (Path.segments path) data append) := by
  refine write_done h hpasses.free hpasses.named hproper (fun hthere => ?_)
    (h.way hpasses.named hpasses.clear).1 data append
  have hask := hpasses.plain
  rw [h.rooted.isFolder_eq hproper, hthere] at hask
  simp at hask

/-- The writes that go through. -/
theorem write_ok_iff (h : t.Orderly) :
    ((write path data append).runFrom t).1 = .ok () ↔
      t.Passes path ∧ Proper (Path.segments path) := by
  constructor
  · intro hok
    by_cases hpasses : t.Passes path
    · refine ⟨hpasses, ?_⟩
      by_contra himproper
      obtain ⟨⟨e, he⟩, -⟩ := write_improper h hpasses himproper data append
      rw [hok] at he
      simp at he
    · obtain ⟨e, hrun⟩ := write_refused hpasses data append
      rw [hrun] at hok
      simp at hok
  · rintro ⟨hpasses, hproper⟩
    obtain ⟨u, hrun, -⟩ := write_proper h hpasses hproper data append
    rw [hrun]

/-- A delete without anything to take away changes nothing. -/
theorem delete_nothing (h : t.Orderly) (hsome : Path.segments path ≠ [])
    (hcause : Reserved path ∨ t.nodes.get? (Path.segments path) = none) :
    ((delete path).runFrom t).2 = t := by
  have hends := delete_ends h path
  generalize (delete path).runFrom t = ended at hends ⊢
  cases hends with
  | refused => rfl
  | ignored => rfl
  | emptied hroot => exact absurd hroot hsome
  | halved e content hfree hfile =>
    rw [hfile] at hcause
    simp [hfree] at hcause
  | taken n hfree _ hthere =>
    rw [hthere] at hcause
    simp [hfree] at hcause

/-- What stands at a place is taken away, with what goes with it if that can be removed. -/
theorem delete_something (h : t.Orderly) (hfree : ¬ Reserved path)
    (hsome : Path.segments path ≠ []) (hthere : t.nodes.get? (Path.segments path) = some n) :
    (∃ content, n = .file content ∧ ¬ t.Detachable (Path.segments path) ∧
      ((delete path).runFrom t).2 = t.remove (Path.segments path)) ∨
    ((∀ content, n = .file content → t.Detachable (Path.segments path)) ∧
      t.Cut ((delete path).runFrom t).2 (Path.segments path)) := by
  have hends := delete_ends h path
  generalize (delete path).runFrom t = ended at hends ⊢
  cases hends with
  | refused e hcause =>
    rcases hcause with hcause | hcause | hcause
    · exact absurd hcause hfree
    · exact absurd (h.rooted.proper _ _ hthere) hcause
    · exact absurd hcause (h.rooted.not_blocked hthere)
  | ignored _ habsent =>
    rw [hthere] at habsent
    simp at habsent
  | emptied hroot => exact absurd hroot hsome
  | halved e content _ hfile hstuck =>
    exact Or.inl ⟨content, Option.some.inj (hthere.symm.trans hfile), hstuck, rfl⟩
  | taken n' _ _ hthere' hable hcut =>
    obtain rfl := Option.some.inj (hthere.symm.trans hthere')
    exact Or.inr ⟨hable, hcut⟩

/-- A delete of the root leaves the two folders that are always there. -/
theorem delete_root (h : t.Orderly) (hroot : Path.segments path = []) :
    ((delete path).runFrom t).2.Bare := by
  have hends := delete_ends h path
  generalize (delete path).runFrom t = ended at hends ⊢
  cases hends with
  | refused e hcause =>
    rw [hroot] at hcause
    rcases hcause with hcause | hcause | hcause
    · simp [Reserved, IsSidecar, hroot] at hcause
    · exact absurd .nil hcause
    · exact absurd hcause (h.rooted.not_blocked h.root)
  | ignored _ habsent =>
    rw [hroot, h.root] at habsent
    simp at habsent
  | emptied _ _ hbare => exact hbare
  | halved e content _ hfile =>
    rw [hroot, h.root] at hfile
    simp at hfile
  | taken _ _ hsome => exact absurd hroot hsome

/-- Metadata are written when the file is there and its sidecar could be removed. -/
theorem annotate_done (h : t.Orderly) (hfree : ¬ Reserved path)
    (hfile : t.nodes.get? (Path.segments path) = some (.file content))
    (hable : t.Detachable (Path.segments path)) (m : Texts) :
    ∃ u, (setMetadata path m).runFrom t = (.ok (), u) ∧ ∀ p, u.nodes.get? p =
      if p = sidecar (Path.segments path) then some (.file (Bytes.utf8 (Json.ofTexts m).render))
      else t.nodes.get? p := by
  have hends := annotate_ends h path m
  generalize (setMetadata path m).runFrom t = ended at hends ⊢
  cases hends with
  | refused e hcause =>
    rcases hcause with hcause | hcause | hcause
    · exact absurd hcause hfree
    · exact absurd hfile (hcause content)
    · exact absurd hable hcause
  | done _ _ _ _ hread => exact ⟨_, rfl, hread⟩

theorem annotate_refused (h : t.Orderly) (m : Texts)
    (hcause : Reserved path ∨ (∀ content, t.nodes.get? (Path.segments path) ≠
      some (.file content)) ∨
      ¬ t.Detachable (Path.segments path)) :
    ∃ e, (setMetadata path m).runFrom t = (.error e, t) := by
  by_cases hstuck : ¬ Reserved path ∧ (∃ content,
      t.nodes.get? (Path.segments path) = some (.file content)) ∧
        ¬ t.Detachable (Path.segments path)
  · obtain ⟨hfree, ⟨content, hfile⟩, hstuck⟩ := hstuck
    obtain ⟨e, hexec⟩ := create_refused h.rooted (clean_segments path)
        (h.ne_nil_of_file hfile) hstuck
    refine ⟨e.toFault, ?_⟩
    unfold setMetadata
    rw [Action.runFrom_bind, Action.runFrom_ask, place?_free hfree]
    dsimp only
    rw [Action.runFrom_bind, Os.runFrom_act, Os.runFrom_ask, h.rooted.isFile_eq_true hfile]
    simp only [Except.mapError, if_true]
    rw [Os.runFrom_act, Os.performAll, Os.runFrom_bind, Os.runFrom_perform, hexec]
    rfl
  · have hends := annotate_ends h path m
    generalize (setMetadata path m).runFrom t = ended at hends ⊢
    cases hends with
    | refused e => exact ⟨e, rfl⟩
    | done content hfree hfile =>
      rcases hcause with hcause | hcause | hcause
      · exact absurd hcause hfree
      · exact absurd hfile (hcause content)
      · exact absurd ⟨hfree, ⟨content, hfile⟩, hcause⟩ hstuck

/-! ### What keeps twins alike -/

namespace Tree.Twins

variable {r : Place}

theorem symm (h : t.Twins d t') : t'.Twins d t :=
  ⟨h.orderly', h.orderly, fun p hp => (h.same p hp).symm, h.plain', h.plain⟩

theorem refl (h : t.Orderly) (hplain : t.nodes.get? d ≠ some .folder) : t.Twins d t :=
  ⟨h, h, fun _ _ => rfl, hplain, hplain⟩

/-- On the way to a place that is not below the odd one nothing differs. -/
theorem way (h : t.Twins d t') (hp : ¬ d <+: p) (q : Place) (hq : q <+: p) :
    t'.nodes.get? q = t.nodes.get? q :=
  h.same q fun heq => hp (heq ▸ hq)

theorem passes_iff (h : t.Twins d t') (hpath : ¬ d <+: Path.segments path) :
    t'.Passes path ↔ t.Passes path := by
  have hclean := clean_segments path
  have hfolder : t'.isFolder (Path.segments path) = t.isFolder (Path.segments path) :=
    h.orderly.rooted.test_congr h.orderly'.rooted hclean (h.way hpath) _
  have hfile := h.orderly.rooted.fileAbove_congr h.orderly'.rooted hclean (h.way hpath)
  exact ⟨fun ⟨hfree, hnamed, hplain, hclear⟩ => ⟨hfree, hnamed, hfolder ▸ hplain, hfile ▸ hclear⟩,
    fun ⟨hfree, hnamed, hplain, hclear⟩ =>
      ⟨hfree, hnamed, hfolder.symm ▸ hplain, hfile.symm ▸ hclear⟩⟩

theorem blocked_iff (h : t.Twins d t') (hp : ¬ d <+: p) : t'.Blocked p ↔ t.Blocked p := by
  unfold Tree.Blocked
  refine exists₃_congr fun q rest content => and_congr_right fun _ => ?_
  refine and_congr_right fun hsplit => ?_
  rw [h.way hp q (hsplit ▸ List.prefix_append q rest)]

/-- A write goes through in both or in neither. -/
theorem write_ok_iff (h : t.Twins d t') (hpath : ¬ d <+: Path.segments path) :
    ((Disk.write path data append).runFrom t').1 = .ok () ↔
      ((Disk.write path data append).runFrom t).1 = .ok () := by
  rw [Disk.write_ok_iff h.orderly, Disk.write_ok_iff h.orderly', h.passes_iff hpath]

theorem write (h : t.Twins d t') (hd : IsSidecar d) (hpath : ¬ d <+: Path.segments path)
    (data : Bytes) (append : Bool) :
    ((Disk.write path data append).runFrom t).2.Twins d
      ((Disk.write path data append).runFrom t').2 := by
  have hu := h.orderly.write path data append
  have hu' := h.orderly'.write path data append
  by_cases hpasses : t.Passes path
  case neg =>
    obtain ⟨e, hrun⟩ := write_refused hpasses data append
    obtain ⟨e', hrun'⟩ := write_refused (mt (h.passes_iff hpath).mp hpasses) data append
    rwa [hrun, hrun']
  have hpasses' := (h.passes_iff hpath).mpr hpasses
  by_cases hproper : Proper (Path.segments path)
  · have hother : Path.segments path ≠ d := fun heq => hpasses.free (Or.inr (heq ▸ hd))
    obtain ⟨u, hrun, hwritten⟩ := write_proper h.orderly hpasses hproper data append
    obtain ⟨u', hrun', hwritten'⟩ := write_proper h.orderly' hpasses' hproper data append
    rw [hrun] at hu ⊢
    rw [hrun'] at hu' ⊢
    have hcontent : t'.filled (Path.segments path) data append =
        t.filled (Path.segments path) data append := by
      rw [Tree.filled, Tree.filled, Tree.contentAt, Tree.contentAt, h.same _ hother]
    refine ⟨hu, hu', fun p hp => ?_, ?_, ?_⟩
    · rw [hwritten.read, hwritten'.read, hcontent, h.same p hp]
    · rw [hwritten.read, if_neg hother.symm, if_neg hpath]
      exact h.plain
    · rw [hwritten'.read, if_neg hother.symm, if_neg hpath]
      exact h.plain'
  · have hread := (write_improper h.orderly hpasses hproper data append).2
    have hread' := (write_improper h.orderly' hpasses' hproper data append).2
    have hodd : ¬ (Tree.hasNul (Path.segments path).dropLast = false ∧
        d <+: (Path.segments path).dropLast ∧ Proper d) := by
      rintro ⟨-, hsub, -⟩
      exact hpath (hsub.trans (List.dropLast_prefix _))
    refine ⟨hu, hu', fun p hp => ?_, ?_, ?_⟩
    · rw [hread, hread', h.same p hp]
    · rw [hread, if_neg hodd]
      exact h.plain
    · rw [hread', if_neg hodd]
      exact h.plain'

/-- What is left of one tree when a place is taken away is left of the other. -/
theorem left_of_cut (h : t.Twins d t') (hu : u.Orderly) (hd : IsSidecar d) (hother : p ≠ d)
    (hcut : t.Cut u p) (hcut' : t'.Cut u' p) (hq : q ≠ d) (hn : u.nodes.get? q = some n) :
    u'.nodes.get? q = some n := by
  have halong : ∀ q, t'.Along p q → t.Along p q := by
    rintro q (hsub | ⟨hq, content, hfile⟩)
    · exact Or.inl hsub
    · exact Or.inr ⟨hq, content, h.same p hother ▸ hfile⟩
  have hplain : ∀ q n, q ≠ d → u.nodes.get? q = some n →
      ¬ (n = .folder ∧ q ≠ [] ∧ q <+: p.dropLast) → u'.nodes.get? q = some n := by
    intro q n hq hn hoff
    rcases hcut'.kept q n (h.same q hq ▸ hcut.old q n hn) with hkept | hgone | hway
    · exact hkept
    · rw [hcut.gone q (halong q hgone)] at hn
      simp at hn
    · exact absurd hway hoff
  -- A folder on the way is left because something in it is, maybe further down.
  induction hdepth : p.length - q.length using Nat.strong_induction_on generalizing q n with
  | _ depth ih =>
    by_cases hway : n = .folder ∧ q ≠ [] ∧ q <+: p.dropLast
    case neg => exact hplain q n hq hn hway
    obtain ⟨rfl, hsome, hsub⟩ := hway
    obtain ⟨name, n, hchild⟩ := hcut.used q hsome hsub hn
    by_cases hodd : q ++ [name] = d
    · have hnode := hcut.old _ n hchild
      rw [hodd] at hchild hnode
      cases n with
      | folder => exact absurd hnode h.plain
      | link target => exact absurd hchild (hu.rooted.free _ target)
      | file content =>
        obtain ⟨r, kept, m, hr, heq, hname, hfile, -⟩ := hu.attached d content hd hchild
        have hleft := hplain r _ (fun hrd => hname (hrd ▸ hd)) hfile (by simp)
        have habove : r.dropLast = q := by
          rw [← dropLast_sidecar, ← heq, ← hodd, List.dropLast_concat]
        rw [← habove]
        exact hcut'.rooted.above_dropLast hleft hr
    · refine hcut'.rooted.above q name n ?_
      by_cases hway : n = .folder ∧ q ++ [name] ≠ [] ∧ q ++ [name] <+: p.dropLast
      · have hlength := hway.2.2.length_le
        rw [List.length_append, List.length_singleton, List.length_dropLast] at hlength
        refine ih _ ?_ hodd hchild rfl
        rw [List.length_append, List.length_singleton]
        omega
      · exact hplain _ n hodd hchild hway

theorem cut (h : t.Twins d t') (hu : u.Orderly) (hu' : u'.Orderly) (hd : IsSidecar d)
    (hother : p ≠ d) (hcut : t.Cut u p) (hcut' : t'.Cut u' p) : u.Twins d u' where
  orderly := hu
  orderly' := hu'
  same q hq := by
    apply Option.ext
    intro n
    exact ⟨h.symm.left_of_cut hu' hd hother hcut' hcut hq, h.left_of_cut hu hd hother hcut hcut' hq⟩
  plain hfolder := h.plain (hcut.old _ _ hfolder)
  plain' hfolder := h.plain' (hcut'.old _ _ hfolder)

theorem detachable_iff (h : t.Twins d t') (p : Place) : t'.Detachable p ↔ t.Detachable p := by
  unfold Tree.Detachable
  by_cases hodd : sidecar p = d
  · rw [hodd]
    simp [h.plain, h.plain']
  · rw [h.same _ hodd]

/-- A delete leaves twins, also where it fails. -/
theorem delete (h : t.Twins d t') (hd : IsSidecar d) (path : String) :
    ((Disk.delete path).runFrom t).2.Twins d ((Disk.delete path).runFrom t').2 := by
  have hu := h.orderly.delete path
  have hu' := h.orderly'.delete path
  by_cases hroot : Path.segments path = []
  · have hbare := delete_root h.orderly hroot
    have hbare' := delete_root h.orderly' hroot
    have hodd : ¬ (d = [] ∨ d = [temporaryFolder]) := by
      rintro (rfl | rfl)
      · simp [IsSidecar] at hd
      · exact absurd hd (by decide)
    refine ⟨hu, hu', fun p _ => by rw [hbare, hbare'], ?_, ?_⟩
    · rw [hbare, if_neg hodd]
      simp
    · rw [hbare', if_neg hodd]
      simp
  by_cases hfree : Reserved path
  · rwa [delete_nothing h.orderly hroot (Or.inl hfree),
      delete_nothing h.orderly' hroot (Or.inl hfree)]
  have hother : Path.segments path ≠ d := fun heq => hfree (Or.inr (heq ▸ hd))
  cases hthere : t.nodes.get? (Path.segments path) with
  | none =>
    rwa [delete_nothing h.orderly hroot (Or.inr hthere),
      delete_nothing h.orderly' hroot (Or.inr ((h.same _ hother).trans hthere))]
  | some n =>
    have hends := delete_something h.orderly hfree hroot hthere
    have hends' := delete_something h.orderly' hfree hroot ((h.same _ hother).trans hthere)
    rw [h.detachable_iff] at hends'
    rcases hends with ⟨content, hfile, hstuck, hstate⟩ | ⟨hable, hcut⟩
    · rcases hends' with ⟨_, _, _, hstate'⟩ | ⟨hable, _⟩
      · rw [hstate] at hu ⊢
        rw [hstate'] at hu' ⊢
        refine ⟨hu, hu', fun p hp => ?_, ?_, ?_⟩
        · rw [Tree.get?_remove, Tree.get?_remove, h.same p hp]
        · rw [Tree.get?_remove, if_neg hother.symm]
          exact h.plain
        · rw [Tree.get?_remove, if_neg hother.symm]
          exact h.plain'
      · exact absurd (hable content hfile) hstuck
    · rcases hends' with ⟨content, hfile, hstuck, _⟩ | ⟨_, hcut'⟩
      · exact absurd (hable content hfile) hstuck
      · exact h.cut hu hu' hd hother hcut hcut'

/-- New metadata leave twins, be they of the file itself. -/
theorem setMetadata (h : t.Twins d t') (hd : IsSidecar d) (path : String) (m : Texts) :
    ((Disk.setMetadata path m).runFrom t).2.Twins d ((Disk.setMetadata path m).runFrom t').2 := by
  have hu := h.orderly.setMetadata path m
  have hu' := h.orderly'.setMetadata path m
  by_cases hcause : Reserved path ∨
      (∀ content, t.nodes.get? (Path.segments path) ≠ some (.file content)) ∨
      ¬ t.Detachable (Path.segments path)
  · have hcause' : Reserved path ∨
        (∀ content, t'.nodes.get? (Path.segments path) ≠ some (.file content)) ∨
        ¬ t'.Detachable (Path.segments path) := by
      rcases hcause with hfree | hcause
      · exact Or.inl hfree
      · by_cases hfree : Reserved path
        · exact Or.inl hfree
        · have hother : Path.segments path ≠ d := fun heq => hfree (Or.inr (heq ▸ hd))
          rw [h.detachable_iff, h.same _ hother]
          exact Or.inr hcause
    obtain ⟨e, hrun⟩ := annotate_refused h.orderly m hcause
    obtain ⟨e', hrun'⟩ := annotate_refused h.orderly' m hcause'
    rwa [hrun, hrun']
  · push Not at hcause
    obtain ⟨hfree, ⟨content, hfile⟩, hable⟩ := hcause
    have hother : Path.segments path ≠ d := fun heq => hfree (Or.inr (heq ▸ hd))
    obtain ⟨u, hrun, hread⟩ := annotate_done h.orderly hfree hfile hable m
    obtain ⟨u', hrun', hread'⟩ := annotate_done h.orderly' hfree ((h.same _ hother).trans hfile)
      ((h.detachable_iff _).mpr hable) m
    rw [hrun] at hu ⊢
    rw [hrun'] at hu' ⊢
    refine ⟨hu, hu', fun p hp => by rw [hread, hread', h.same p hp], ?_, ?_⟩
    · rw [hread]
      split
      · simp
      · exact h.plain
    · rw [hread']
      split
      · simp
      · exact h.plain'

end Tree.Twins

def WritesBelow (d : Place) : Change → Prop
  | .write path _ _ => d <+: Path.segments (Path.orRoot path)
  | _ => False

theorem segments_of_filePath {file : Option String} (hpath : filePath file = .ok path) :
    Path.segments path = Path.segments (Path.orRoot file) := by
  obtain ⟨rfl, -⟩ := filePath_eq_ok.mp hpath
  exact Path.segments_normalize _

namespace Tree.Twins

theorem apply (h : t.Twins d t') (hd : IsSidecar d) (c : Change) (hc : ¬ WritesBelow d c) :
    (c.apply backend t).Twins d (c.apply backend t') := by
  cases c with
  | write path data append =>
    rw [Change.apply_write, Change.apply_write]
    cases hpath : filePath path with
    | error e => exact h
    | ok p => exact h.write hd (segments_of_filePath hpath ▸ hc) data append
  | annotate path m =>
    rw [Change.apply_annotate, Change.apply_annotate]
    cases filePath path with
    | error e => exact h
    | ok p => exact h.setMetadata hd p m
  | delete paths =>
    rw [Change.apply_delete, Change.apply_delete]
    induction paths.map fun p => Path.normalize (Path.orRoot p) generalizing t t' with
    | nil => exact h
    | cons p rest ih => exact ih (h.delete hd p)

theorem after (h : t.Twins d t') (hd : IsSidecar d) (changes : List Change)
    (hchanges : ∀ c ∈ changes, ¬ WritesBelow d c) :
    (after backend t changes).Twins d (after backend t' changes) := by
  induction changes generalizing t t' with
  | nil => exact h
  | cons c rest ih =>
    obtain ⟨hc, hrest⟩ := List.forall_mem_cons.mp hchanges
    exact ih (h.apply hd c hc) hrest

end Tree.Twins

end Depot.Storage.Disk
