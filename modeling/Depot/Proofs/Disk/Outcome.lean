import Depot.Proofs.Disk.Change
import Depot.Proofs.Disk.Refusal

/-!
What each operation on a file tree can come to, for any path. A write that the file system
refuses may leave folders behind, and a delete whose sidecar cannot be removed has already
taken the file away; any other failure changes nothing.
-/
namespace Depot.Storage.Disk

def IsSidecar (p : Place) : Prop := p.getLast?.any isSidecarName = true

def Reserved (path : String) : Prop :=
  (Path.segments path).head? = some temporaryFolder ∨ IsSidecar (Path.segments path)

instance (p : Place) : Decidable (IsSidecar p) := inferInstanceAs (Decidable (_ = _))

instance (path : String) : Decidable (Reserved path) := inferInstanceAs (Decidable (_ ∨ _))

/-- What every operation keeps. A file with the name of a sidecar is one, and it has been
written by the store. -/
structure Tree.Orderly (t : Tree) : Prop where
  rooted : t.Rooted
  root : t.nodes.get? [] = some .folder
  swept : t.Swept
  attached : ∀ p content, IsSidecar p → t.nodes.get? p = some (.file content) →
    ∃ r kept m, r ≠ [] ∧ p = sidecar r ∧ ¬ IsSidecar r ∧
      t.nodes.get? r = some (.file kept) ∧ content = Bytes.utf8 (Json.ofTexts m).render

def Tree.Detachable (t : Tree) (p : Place) : Prop :=
  Proper (sidecar p) ∧ t.nodes.get? (sidecar p) ≠ some .folder

structure Tree.Written (t t' : Tree) (p : Place) (content : Bytes) : Prop where
  named : p ≠ []
  proper : Proper p
  free : ¬ t.Blocked p
  plain : t.nodes.get? p ≠ some .folder
  rooted : t'.Rooted
  read : ∀ q, t'.nodes.get? q =
    if q = p then some (.file content) else if q <+: p then some .folder else t.nodes.get? q

structure Tree.Pruned (t t' : Tree) (p : Place) : Prop where
  rooted : t'.Rooted
  old : ∀ q n, t'.nodes.get? q = some n → t.nodes.get? q = some n
  kept : ∀ q n, t.nodes.get? q = some n →
    t'.nodes.get? q = some n ∨ (n = .folder ∧ q ≠ [] ∧ q <+: p)
  used : ∀ q, q ≠ [] → q <+: p → t'.nodes.get? q = some .folder →
    ∃ name n, t'.nodes.get? (q ++ [name]) = some n
  dates : ∀ q, ¬ q <+: p → t'.times.last q = t.times.last q

/-- What goes with a place: all below it, and the sidecar of a file. -/
def Tree.Along (t : Tree) (p q : Place) : Prop :=
  p <+: q ∨ (q = sidecar p ∧ ∃ content, t.nodes.get? p = some (.file content))

/-- A place has been taken away with what goes with it, and then the folders above it that were
left empty. -/
structure Tree.Cut (t t' : Tree) (p : Place) : Prop where
  rooted : t'.Rooted
  gone : ∀ q, t.Along p q → t'.nodes.get? q = none
  old : ∀ q n, t'.nodes.get? q = some n → t.nodes.get? q = some n
  kept : ∀ q n, t.nodes.get? q = some n → t'.nodes.get? q = some n ∨ t.Along p q ∨
    (n = .folder ∧ q ≠ [] ∧ q <+: p.dropLast)
  used : ∀ q, q ≠ [] → q <+: p.dropLast → t'.nodes.get? q = some .folder →
    ∃ name n, t'.nodes.get? (q ++ [name]) = some n
  dates : ∀ q, ¬ q <+: p.dropLast → t'.times.last q = t.times.last q

/-- The checks of a write, all of which come before its first change. -/
structure Tree.Passes (t : Tree) (path : String) : Prop where
  free : ¬ Reserved path
  named : Path.segments path ≠ []
  plain : t.isFolder (Path.segments path) = .ok false
  clear : fileAbove t (Path.segments path) = .ok none

inductive Tree.WriteEnds (t : Tree) (path : String) (content : Bytes) :
    Except Fault Unit × Tree → Prop
  | refused (e : Fault) {t' : Tree} (same : t.Same t') (cause : Reserved path ∨
      Path.segments path = [] ∨ ¬ Proper (Path.segments path) ∨
      t.nodes.get? (Path.segments path) = some .folder ∨
      t.Blocked (Path.segments path)) : WriteEnds t path content (.error e, t')
  | abandoned (e : Fault) {t' : Tree} (passes : t.Passes path)
      (improper : ¬ Proper (Path.segments path))
      (whole : Tree.hasNul (Path.segments path).dropLast = false)
      (missing : ∃ p, p <+: (Path.segments path).dropLast ∧ Proper p ∧ t.nodes.get? p = none)
      (grown : t.Grown t' (Path.segments path).dropLast) :
      WriteEnds t path content (.error e, t')
  | done {t' : Tree} (free : ¬ Reserved path)
      (written : t.Written t' (Path.segments path) content) :
      WriteEnds t path content (.ok (), t')

inductive Tree.DeleteEnds (t : Tree) (path : String) : Except Fault Unit × Tree → Prop
  | refused (e : Fault) (cause : Reserved path ∨ ¬ Proper (Path.segments path) ∨
      t.Blocked (Path.segments path)) : DeleteEnds t path (.error e, t)
  | ignored (free : ¬ Reserved path) (absent : t.nodes.get? (Path.segments path) = none)
      (unblocked : Proper (Path.segments path) → ¬ t.Blocked (Path.segments path)) :
      DeleteEnds t path (.ok (), t)
  | emptied {t' : Tree} (root : Path.segments path = []) (rooted : t'.Rooted) (bare : t'.Bare) :
      DeleteEnds t path (.ok (), t')
  | halved (e : Fault) (content : Bytes) (free : ¬ Reserved path)
      (file : t.nodes.get? (Path.segments path) = some (.file content))
      (stuck : ¬ t.Detachable (Path.segments path)) :
      DeleteEnds t path (.error e, t.remove (Path.segments path))
  | taken {t' : Tree} (n : Node) (free : ¬ Reserved path) (named : Path.segments path ≠ [])
      (there : t.nodes.get? (Path.segments path) = some n)
      (able : ∀ content, n = .file content → t.Detachable (Path.segments path))
      (cut : t.Cut t' (Path.segments path)) : DeleteEnds t path (.ok (), t')

inductive Tree.AnnotateEnds (t : Tree) (path : String) (m : Texts) :
    Except Fault Unit × Tree → Prop
  | refused (e : Fault) (cause : Reserved path ∨
      (∀ content, t.nodes.get? (Path.segments path) ≠ some (.file content)) ∨
      ¬ t.Detachable (Path.segments path)) : AnnotateEnds t path m (.error e, t)
  | done {t' : Tree} (content : Bytes) (free : ¬ Reserved path)
      (file : t.nodes.get? (Path.segments path) = some (.file content)) (rooted : t'.Rooted)
      (read : ∀ p, t'.nodes.get? p =
        if p = sidecar (Path.segments path) then
          some (.file (Bytes.utf8 (Json.ofTexts m).render))
        else t.nodes.get? p) : AnnotateEnds t path m (.ok (), t')

variable {t t' : Tree} {p q : Place} {path : String} {data content : Bytes} {append : Bool}
  {n : Node}

theorem clean_segments (path : String) : Clean (Path.segments path) :=
  fun _ hname => Path.clean_of_mem_segments hname

theorem isSidecar_sidecar (p : Place) : IsSidecar (sidecar p) := by
  rw [IsSidecar, sidecar, List.getLast?_concat]
  exact isSidecarName_extended _

theorem clean_sidecar (hclean : Clean p) (hsome : p ≠ []) : Clean (sidecar p) := by
  obtain ⟨init, name, rfl⟩ := List.eq_nil_or_concat p |>.resolve_left hsome
  rw [List.concat_eq_append] at hclean ⊢
  rw [sidecar_concat]
  intro part hpart
  rcases List.mem_append.mp hpart with hinit | hlast
  · exact hclean part (List.mem_append_left _ hinit)
  · rw [List.mem_singleton.mp hlast]
    exact clean_extended (hclean name (by simp))

theorem place?_reserved (h : Reserved path) :
    place? path =
      .error (.invalidPath (some path) "the name is reserved by the local storage backend") :=
  if_pos h

theorem place?_free (h : ¬ Reserved path) : place? path = .ok (Path.segments path) := if_neg h

/-- A place on the way to another one has a next one. -/
theorem exists_next (hsub : q <+: p) (hne : q ≠ p) : ∃ name, q ++ [name] <+: p := by
  obtain ⟨rest, rfl⟩ := hsub
  cases rest with
  | nil => simp at hne
  | cons name more => exact ⟨name, more, by simp⟩

def fill (p : Place) (data : Bytes) (append : Bool) : Os Unit :=
  if append then Os.perform (.extend p data) else overwrite p data

def Tree.filled (t : Tree) (p : Place) (data : Bytes) (append : Bool) : Bytes :=
  if append then t.contentAt p ++ data else stored data

theorem Tree.filled_new (hnone : t.nodes.get? p = none) (hsmall : data.length ≤ writeLimit) :
    t.filled p data append = data := by
  cases append with
  | false => exact stored_of_le hsmall
  | true => simp [filled, contentAt, hnone]

theorem write_started (h : t.Passes path) (data : Bytes) (append : Bool) :
    (write path data append).runFrom t =
      (do
        makeFolders (Path.segments path).dropLast
        fill (Path.segments path) data append).act.runFrom t := by
  have hroot : Path.isRoot path = false := by simpa [Path.isRoot] using h.named
  unfold write
  simp only [hroot, Bool.false_eq_true, if_false, Action.runFrom_bind, Action.runFrom_ask,
    place?_free h.free, Os.runFrom_act, Os.runFrom_ask, h.plain, h.clear, Except.mapError]
  rw [Os.runFrom_bind]
  rcases hmade : (makeFolders (Path.segments path).dropLast).runFrom t with ⟨r, t₁⟩
  cases r with
  | error e => rfl
  | ok _ => cases append <;> rfl

theorem write_refused (h : ¬ t.Passes path) (data : Bytes) (append : Bool) :
    ∃ e, (write path data append).runFrom t = (.error e, t) := by
  unfold write
  by_cases hroot : Path.isRoot path = true
  · exact ⟨_, by simp only [hroot, if_true]; rfl⟩
  have hsome : Path.segments path ≠ [] := by simpa [Path.isRoot] using hroot
  rw [Bool.not_eq_true] at hroot
  simp only [hroot, Bool.false_eq_true, if_false, Action.runFrom_bind, Action.runFrom_ask]
  by_cases hfree : Reserved path
  · exact ⟨_, by rw [place?_reserved hfree]⟩
  simp only [place?_free hfree, Os.runFrom_act, Os.runFrom_ask]
  cases hfolder : t.isFolder (Path.segments path) with
  | error e => exact ⟨_, rfl⟩
  | ok there =>
    cases there with
    | true => exact ⟨_, rfl⟩
    | false =>
      simp only [Except.mapError, Bool.false_eq_true, if_false, Action.runFrom_bind,
        Os.runFrom_act, Os.runFrom_ask]
      cases hfile : fileAbove t (Path.segments path) with
      | error e => exact ⟨_, rfl⟩
      | ok found =>
        cases found with
        | some q => exact ⟨_, rfl⟩
        | none => exact absurd ⟨hfree, hsome, hfolder, hfile⟩ h

/-- Why a write does not pass its checks. -/
theorem Tree.Orderly.not_passes (h : t.Orderly) (hfails : ¬ t.Passes path) :
    Reserved path ∨ Path.segments path = [] ∨ ¬ Proper (Path.segments path) ∨
      t.nodes.get? (Path.segments path) = some .folder ∨ t.Blocked (Path.segments path) := by
  by_contra hnone
  push Not at hnone
  obtain ⟨hfree, hsome, hproper, hplain, hclear⟩ := hnone
  refine hfails ⟨hfree, hsome, by rw [h.rooted.isFolder_eq hproper, decide_eq_false hplain], ?_⟩
  rcases fileAbove_spec h.rooted (hproper.sublist (List.dropLast_sublist _)) (by simp [h.root]) with
    ⟨hnone, -⟩ | ⟨hblocked, -⟩
  · exact hnone
  · exact absurd hblocked hclear

theorem fill_refused (h : t.Rooted) (hswept : t.Swept) (hclean : Clean p) (hp : ¬ Proper p)
    (data : Bytes) (append : Bool) :
    ∃ e t', (fill p data append).runFrom t = (.error e, t') ∧ t.Same t' := by
  cases append with
  | false => exact overwrite_refused h hswept hclean hp data
  | true =>
    obtain ⟨e, hexec⟩ := h.exec_extend_refused hclean hp data
    refine ⟨e, t, ?_, .refl t⟩
    rw [fill, if_pos rfl, Os.runFrom_perform, hexec]

theorem fill_done (h : t.Rooted) (hswept : t.Swept) (hp : Proper p) (hseat : t.Seated p)
    (hplain : t.nodes.get? p ≠ some .folder) (hother : p.head? ≠ some temporaryFolder)
    (data : Bytes) (append : Bool) :
    ∃ t', (fill p data append).runFrom t = (.ok (), t') ∧ t'.Rooted ∧
      ∀ q, t'.nodes.get? q =
        if q = p then some (.file (t.filled p data append)) else t.nodes.get? q := by
  cases append with
  | false => exact overwrite_spec h hswept hp hseat hplain hother data
  | true =>
    refine ⟨_, ?_, h.put hp hseat hplain (by simp), fun q => Tree.get?_put ..⟩
    rw [fill, Tree.filled, if_pos rfl, if_pos rfl, Os.runFrom_perform,
      h.exec_extend hp hseat hplain]

/-- New folders leave the folder of temporary files as it was. -/
theorem Tree.Swept.grown (hswept : t.Swept) (hgrown : t.Grown t' p)
    (hother : p.head? ≠ some temporaryFolder) : t'.Swept where
  there := hgrown.kept _ _ hswept.there
  bare name := by
    cases hn : t'.nodes.get? [temporaryFolder, name] with
    | none => rfl
    | some n =>
      rcases hgrown.new _ n hn with hold | ⟨-, hsub⟩
      · rw [hswept.bare] at hold
        simp at hold
      · exact absurd (head?_of_initial hsub (by simp)).symm hother

/-- Where no file is found above a place, its folder is there or nothing stands for it. -/
theorem Tree.Orderly.way (h : t.Orderly) (hsome : p ≠ []) (hfile : fileAbove t p = .ok none) :
    ¬ t.Blocked p ∧ t.Clear p.dropLast := by
  have habove : ∀ q rest content, rest ≠ [] → p = q ++ rest →
      t.nodes.get? q ≠ some (.file content) := by
    intro q rest content hrest hsplit
    by_cases hq : q = []
    · rw [hq, h.root]
      simp
    · exact no_file_above h.rooted hfile hq hrest hsplit
  constructor
  · rintro ⟨q, rest, content, hrest, hsplit, hthere⟩
    exact habove q rest content hrest hsplit hthere
  · intro q content hsub
    obtain ⟨rest, hrest⟩ := hsub
    refine habove q (rest ++ [p.getLast hsome]) content (by simp) ?_
    rw [← List.append_assoc, hrest, List.dropLast_append_getLast]

/-- A write to a proper place that nothing stands against. -/
theorem Tree.Orderly.filled (h : t.Orderly) (hsome : p ≠ []) (hp : Proper p)
    (hother : p.head? ≠ some temporaryFolder) (hplain : t.nodes.get? p ≠ some .folder)
    (hfile : fileAbove t p = .ok none) (data : Bytes) (append : Bool) :
    ∃ t₁ t', (makeFolders p.dropLast).runFrom t = (.ok (), t₁) ∧
      (fill p data append).runFrom t₁ = (.ok (), t') ∧
      t.Written t' p (t.filled p data append) := by
  obtain ⟨hfree, hclear⟩ := h.way hsome hfile
  obtain ⟨t₁, hmade, hpaved⟩ :=
    makeFolders_spec h.rooted (hp.sublist (List.dropLast_sublist p)) hclear
  have hgrown := makeFolders_grown h.rooted (Clean.dropLast hp.clean)
  rw [hmade] at hgrown
  have hsame : t₁.nodes.get? p = t.nodes.get? p := by
    rw [hpaved.2, if_neg (not_prefix_dropLast hsome)]
  obtain ⟨t', hrun, hrooted, hread⟩ := fill_done hpaved.1
    (h.swept.grown hgrown (head?_dropLast_ne hother)) hp
    (fun _ => hpaved.folder) (hsame ▸ hplain) hother data append
  refine ⟨t₁, t', hmade, hrun, hsome, hp, hfree, hplain, hrooted, fun q => ?_⟩
  have hcontent : t₁.filled p data append = t.filled p data append := by
    rw [Tree.filled, Tree.filled, Tree.contentAt, Tree.contentAt, hsame]
  rw [hread, hpaved.2, hcontent]
  by_cases hq : q = p
  · rw [if_pos hq, if_pos hq]
  · have hsub : q <+: p.dropLast ↔ q <+: p := by
      refine ⟨fun hsub => hsub.trans (List.dropLast_prefix p), fun hsub => ?_⟩
      exact prefix_dropLast hsub (hsub.length_le.lt_of_ne fun hlength =>
        hq (hsub.eq_of_length hlength))
    rw [if_neg hq, if_neg hq, if_congr hsub rfl rfl]

theorem write_ends (h : t.Orderly) (path : String) (data : Bytes) (append : Bool) :
    t.WriteEnds path (t.filled (Path.segments path) data append)
      ((write path data append).runFrom t) := by
  by_cases hpasses : t.Passes path
  case neg =>
    obtain ⟨e, hrun⟩ := write_refused hpasses data append
    rw [hrun]
    exact .refused e (.refl t) (h.not_passes hpasses)
  obtain ⟨hfree, hsome, hask, hfile⟩ := hpasses
  have hplain : t.nodes.get? (Path.segments path) ≠ some .folder := fun hthere => by
    rw [(h.rooted.isFolder_iff (clean_segments path)).mpr hthere] at hask
    simp at hask
  rw [write_started ⟨hfree, hsome, hask, hfile⟩, Os.runFrom_act]
  have hother : (Path.segments path).head? ≠ some temporaryFolder := fun hfirst =>
      hfree (Or.inl hfirst)
  by_cases hproper : Proper (Path.segments path)
  · obtain ⟨t₁, t', hmade, hfill, hwritten⟩ :=
      h.filled hsome hproper hother hplain hfile data append
    rw [Os.runFrom_bind, hmade]
    dsimp only
    rw [hfill]
    exact .done hfree hwritten
  · have hgrown := makeFolders_grown h.rooted (clean_segments path).dropLast
    rcases hmade : (makeFolders (Path.segments path).dropLast).runFrom t with ⟨r, t₁⟩
    rw [hmade] at hgrown
    have hswept := h.swept.grown hgrown (head?_dropLast_ne hother)
    obtain ⟨e, t₂, hend, hsame⟩ : ∃ e t₂, Os.runFrom (do
        makeFolders (Path.segments path).dropLast
        fill (Path.segments path) data append) t = (.error e, t₂) ∧ t₁.Same t₂ := by
      rw [Os.runFrom_bind, hmade]
      cases r with
      | error e => exact ⟨e, t₁, rfl, .refl t₁⟩
      | ok _ => exact fill_refused hgrown.rooted hswept (clean_segments path) hproper data append
    rw [hend]
    have hgrown := hgrown.trans (.of_same hgrown.rooted hsame _) (List.prefix_refl _)
    rcases hgrown.made with hsame | ⟨p, hsub, hnone, hfolder⟩
    · exact .refused e.toFault hsame (Or.inr (Or.inr (Or.inl hproper)))
    · refine .abandoned e.toFault ⟨hfree, hsome, hask, hfile⟩ hproper ?_
        ⟨p, hsub, hgrown.rooted.proper _ _ hfolder, hnone⟩ hgrown
      by_contra hnul
      obtain ⟨e', hrun⟩ := makeFolders_nul (t := t) ((Bool.not_eq_false _).mp hnul)
      rw [hmade, Prod.mk.injEq] at hrun
      rw [hsame.nodes, hrun.2, hnone] at hfolder
      simp at hfolder

theorem prune_spec (h : t.Rooted) (hfolder : t.nodes.get? p = some .folder) :
    ∃ t', (prune p.reverse).runFrom t = (.ok (), t') ∧ t.Pruned t' p := by
  induction p using List.reverseRecOn generalizing t with
  | nil =>
    exact ⟨t, rfl, h, fun _ _ hn => hn, fun _ _ hn => Or.inl hn,
      fun q hq hsub => absurd (List.prefix_nil.mp hsub) hq, fun _ _ => rfl⟩
  | append_singleton init name ih =>
    have hexec := h.exec_removeFolder hfolder
    rw [List.reverse_concat, prune, Os.runFrom_tryCatch, Os.runFrom_bind, List.reverse_cons,
      List.reverse_reverse, Os.runFrom_perform, hexec]
    by_cases hempty : t.children (init ++ [name]) = []
    · have h₁ := h.remove (Tree.children_eq_nil.mp hempty)
      have hinit : (t.remove (init ++ [name])).nodes.get? init = some .folder := by
        rw [Tree.get?_remove, if_neg (by simp), h.above _ _ _ hfolder]
      obtain ⟨t', hrun, hpruned⟩ := ih h₁ hinit
      refine ⟨t', by simp only [hempty, if_true, hrun], hpruned.rooted, fun q n hn => ?_,
        fun q n hn => ?_, fun q hq hsub hthere => ?_, fun q hq => ?_⟩
      · have hold := hpruned.old q n hn
        rw [Tree.get?_remove] at hold
        split at hold
        · simp at hold
        · exact hold
      · by_cases hlast : q = init ++ [name]
        · rw [hlast, hfolder] at hn
          exact Or.inr ⟨(Option.some.inj hn).symm, by simp [hlast], hlast ▸ List.prefix_refl _⟩
        · rw [← if_neg hlast (t := none) (e := t.nodes.get? q), ← Tree.get?_remove] at hn
          exact (hpruned.kept q n hn).imp id fun hgone =>
            ⟨hgone.1, hgone.2.1, hgone.2.2.trans (List.prefix_append _ _)⟩
      · rcases List.prefix_concat_iff.mp hsub with hlast | hsub
        · have hold := hpruned.old q _ hthere
          rw [Tree.get?_remove, if_pos hlast] at hold
          simp at hold
        · exact hpruned.used q hq hsub hthere
      · have hinit : ¬ q <+: init := fun hsub => hq (hsub.trans (List.prefix_append _ _))
        have hne : q ≠ (init ++ [name]).dropLast := by
          rw [List.dropLast_concat]
          exact fun heq => hinit (heq ▸ List.prefix_refl _)
        rw [hpruned.dates q hinit, Tree.last_remove_of_clean
          (h.proper _ _ hfolder).clean (by simp) hne]
    · refine ⟨t, by rw [if_neg hempty]; rfl, h, fun _ _ hn => hn, fun _ _ hn => Or.inl hn,
        fun q hq hsub _ => ?_, fun _ _ => rfl⟩
      by_cases hlast : q = init ++ [name]
      · obtain ⟨child, hchild⟩ := List.exists_mem_of_ne_nil _ hempty
        exact ⟨child, hlast ▸ Tree.mem_children.mp hchild⟩
      · obtain ⟨next, rest, hrest⟩ := exists_next hsub hlast
        exact ⟨next, h.exists_above _ rest (hrest ▸ hfolder)⟩

/-- What is left once the folders above a place that has been taken away are pruned. -/
theorem Tree.Pruned.cut {t₁ : Tree} (hpruned : t₁.Pruned t' p.dropLast)
    (hgone : ∀ q, t.Along p q → t₁.nodes.get? q = none)
    (hsame : ∀ q, ¬ t.Along p q → t₁.nodes.get? q = t.nodes.get? q)
    (hdates : ∀ q, q ≠ p.dropLast → t₁.times.last q = t.times.last q) : t.Cut t' p where
  rooted := hpruned.rooted
  gone q hq := by
    rw [Option.eq_none_iff_forall_ne_some]
    intro n hn
    have hold := hpruned.old q n hn
    rw [hgone q hq] at hold
    simp at hold
  old q n hn := by
    have hold := hpruned.old q n hn
    by_cases hq : t.Along p q
    · rw [hgone q hq] at hold
      simp at hold
    · rw [← hsame q hq, hold]
  kept q n hn := by
    by_cases hq : t.Along p q
    · exact Or.inr (Or.inl hq)
    · rw [← hsame q hq] at hn
      exact (hpruned.kept q n hn).imp id Or.inr
  used := hpruned.used
  dates q hq := (hpruned.dates q hq).trans (hdates q fun heq => hq (heq ▸ List.prefix_refl _))

/-- A folder goes with all that is below it. -/
theorem remove_folder (h : t.Rooted) (hsome : p ≠ []) (hfolder : t.nodes.get? p = some .folder) :
    ∃ t', (removePlace p).runFrom t = (.ok (), t') ∧ t.Cut t' p := by
  have habove : (t.removeBelow p).nodes.get? p.dropLast = some .folder := by
    rw [Tree.get?_removeBelow, if_neg (not_prefix_dropLast hsome), h.above_dropLast hfolder hsome]
  obtain ⟨t', hrun, hpruned⟩ := prune_spec (h.removeBelow p) habove
  have hplain : ∀ q, t.Along p q ↔ p <+: q := by simp [Tree.Along, hfolder]
  refine ⟨t', ?_, hpruned.cut (fun q hq => ?_) (fun q hq => ?_) fun q hq => ?_⟩
  · unfold removePlace
    rw [Os.runFrom_bind, Os.runFrom_ask, h.isFolder_eq (h.proper p _ hfolder), hfolder]
    simp only [decide_true, if_true, if_neg hsome]
    rw [Os.runFrom_bind, Os.runFrom_perform, h.exec_removeTree hfolder]
    exact hrun
  · rw [Tree.get?_removeBelow, if_pos ((hplain q).mp hq)]
  · rw [Tree.get?_removeBelow, if_neg fun hsub => hq ((hplain q).mpr hsub)]
  · exact Tree.last_removeBelow_of_clean (h.proper _ _ hfolder).clean hsome hq

/-- The sidecar of a file is removed, is not there, or cannot be removed. -/
theorem detach_ends (h : t.Rooted) (hclean : Clean p) (hsome : p ≠ [])
    (hseat : t.nodes.get? p.dropLast = some .folder) :
    (∃ e, ¬ t.Detachable p ∧
      (Os.allowing (· = .noEntry) (Os.perform (.unlink (sidecar p)))).runFrom t = (.error e, t)) ∨
    ∃ t', t.Detachable p ∧
      (Os.allowing (· = .noEntry) (Os.perform (.unlink (sidecar p)))).runFrom t = (.ok (), t') ∧
      t'.Rooted ∧ (∀ q, t'.nodes.get? q = if q = sidecar p then none else t.nodes.get? q) ∧
      ∀ q, q ≠ p.dropLast → t'.times.last q = t.times.last q := by
  have habsent : t.nodes.get? (sidecar p) = none → ∀ q,
      t.nodes.get? q = if q = sidecar p then none else t.nodes.get? q := by
    intro hnone q
    split
    · next hq => rw [hq, hnone]
    · rfl
  unfold Os.allowing
  rw [Os.runFrom_tryCatch, Os.runFrom_perform]
  cases hnode : t.nodes.get? (sidecar p) with
  | some n =>
    cases n with
    | link target => exact absurd hnode (h.free _ target)
    | file content =>
      rw [h.exec_unlink hnode]
      exact Or.inr ⟨_, ⟨h.proper _ _ hnode, by simp [hnode]⟩, rfl,
        h.remove (h.leaf_of_file hnode), fun q => Tree.get?_remove, fun q hq =>
          Tree.last_remove_of_clean (h.proper _ _ hnode).clean (by simp [sidecar])
            (by rwa [dropLast_sidecar])⟩
    | folder =>
      have hexec : (Call.unlink (sidecar p)).exec t = .error .isDirectory := by
        have hlocate : t.locate .itself (sidecar p) = .ok (sidecar p) := h.locate_of_node hnode
        simp only [Call.exec, hlocate, ok_bind, (h.proper _ _ hnode).node?, hnode]
      rw [hexec]
      exact Or.inl ⟨.isDirectory, fun hdetach => hdetach.2 hnode, rfl⟩
  | none =>
    by_cases hproper : Proper (sidecar p)
    · rw [← dropLast_sidecar] at hseat
      rw [h.exec_unlink_absent hproper hnode (h.not_blocked_of_folder hseat)]
      exact Or.inr ⟨t, ⟨hproper, by simp [hnode]⟩, rfl, h, habsent hnode, fun _ _ => rfl⟩
    · obtain ⟨e, he, hlocate⟩ : ∃ e, e ≠ .noEntry ∧ t.locate .itself (sidecar p) = .error e :=
        h.locate_seated (clean_sidecar hclean hsome) (by simp [sidecar])
          (by rw [dropLast_sidecar, hseat]) hproper
      have hexec : (Call.unlink (sidecar p)).exec t = .error e := by simp [Call.exec, hlocate]
      rw [hexec]
      exact Or.inl ⟨e, fun hdetach => hproper hdetach.1, by simp [he]⟩

/-- A file goes with its sidecar. One that cannot be removed stays, with the folders. -/
theorem remove_file (h : t.Rooted) (hsidecar : ¬ IsSidecar p) (hsome : p ≠ [])
    (hfile : t.nodes.get? p = some (.file content)) :
    (∃ e, ¬ t.Detachable p ∧ (removePlace p).runFrom t = (.error e, t.remove p)) ∨
    ∃ t', t.Detachable p ∧ (removePlace p).runFrom t = (.ok (), t') ∧ t.Cut t' p := by
  have h₁ := h.remove (h.leaf_of_file hfile)
  have hproper := h.proper p _ hfile
  have hother : sidecar p ≠ p := fun heq => hsidecar (heq ▸ isSidecar_sidecar p)
  have habove : (t.remove p).nodes.get? p.dropLast = some .folder := by
    rw [Tree.get?_remove, if_neg (dropLast_ne hsome), h.above_dropLast hfile hsome]
  have hrun : (removePlace p).runFrom t = Os.runFrom (do
      Os.allowing (· = .noEntry) (Os.perform (.unlink (sidecar p)))
      prune p.dropLast.reverse) (t.remove p) := by
    unfold removePlace
    rw [Os.runFrom_bind, Os.runFrom_ask, h.isFolder_eq hproper, hfile]
    simp only [Option.some.injEq, reduceCtorEq, decide_false, Bool.false_eq_true, if_false]
    rw [Os.runFrom_bind, Os.runFrom_get]
    simp only [h.exec_unlink hfile]
    rw [Os.runFrom_bind, Os.runFrom_set]
  have hsame : (t.remove p).Detachable p ↔ t.Detachable p := by
    rw [Tree.Detachable, Tree.get?_remove, if_neg hother, Tree.Detachable]
  rw [hrun, Os.runFrom_bind]
  rcases detach_ends h₁ hproper.clean hsome habove with ⟨e, hstuck, hdetach⟩ |
    ⟨t₂, hable, hdetach, h₂, hread₂, hdates₂⟩
  · exact Or.inl ⟨e, fun hable => hstuck (hsame.mpr hable), by rw [hdetach]⟩
  · have habove₂ : t₂.nodes.get? p.dropLast = some .folder := by
      rw [hread₂, if_neg, habove]
      intro heq
      have hlength := congrArg List.length heq
      rw [sidecar, List.length_append, List.length_singleton] at hlength
      omega
    obtain ⟨t', hprune, hpruned⟩ := prune_spec h₂ habove₂
    refine Or.inr ⟨t', hsame.mp hable, by rw [hdetach]; exact hprune,
      hpruned.cut (fun q hq => ?_) (fun q hq => ?_) fun q hq => ?_⟩
    · rw [hread₂, Tree.get?_remove]
      rcases hq with hsub | ⟨hq, -⟩
      · by_cases hne : q = p
        · simp [hne]
        · simp [hne, h.none_below hfile hsub hne]
      · simp [hq]
    · rw [hread₂, if_neg fun heq => hq (Or.inr ⟨heq, content, hfile⟩), Tree.get?_remove,
        if_neg fun heq : q = p => hq (Or.inl (heq ▸ List.prefix_refl p))]
    · rw [hdates₂ q hq, Tree.last_remove_of_clean hproper.clean hsome hq]

/-- Under a file nothing stands, but the file system does not say that it is missing. -/
theorem remove_blocked (h : t.Rooted) (hproper : Proper p) (hblocked : t.Blocked p) :
    (removePlace p).runFrom t = (.error .notDirectory, t) := by
  have hplain : t.nodes.get? p ≠ some .folder := fun hfolder => h.not_blocked hfolder hblocked
  have hlocate : t.locate .itself p = .error .notDirectory := h.locate_blocked hproper hblocked
  have hexec : (Call.unlink p).exec t = .error .notDirectory := by
    simp only [Call.exec, hlocate, error_bind]
  unfold removePlace
  rw [Os.runFrom_bind, Os.runFrom_ask, h.isFolder_eq hproper, decide_eq_false hplain]
  simp only [Bool.false_eq_true, if_false]
  rw [Os.runFrom_bind, Os.runFrom_get]
  simp only [hexec]
  rw [Os.runFrom_throw]

/-- Where nothing stands nothing is removed. A refusal has a cause other than that. -/
theorem remove_absent (h : t.Rooted) (hclean : Clean p) (hnone : t.nodes.get? p = none) :
    ((Proper p → ¬ t.Blocked p) ∧ (removePlace p).runFrom t = (.ok (), t)) ∨
      ((¬ Proper p ∨ t.Blocked p) ∧ ∃ e, (removePlace p).runFrom t = (.error e, t)) := by
  have hno : t.isFolder p ≠ .ok true := fun hask => by
    rw [(h.isFolder_iff hclean).mp hask] at hnone
    simp at hnone
  by_cases hblocked : Proper p ∧ t.Blocked p
  · exact Or.inr ⟨Or.inr hblocked.2, _, remove_blocked h hblocked.1 hblocked.2⟩
  rw [not_and] at hblocked
  unfold removePlace
  rw [Os.runFrom_bind, Os.runFrom_ask]
  cases hask : t.isFolder p with
  | error e =>
    refine Or.inr ⟨Or.inl fun hproper => ?_, e, rfl⟩
    rw [h.isFolder_eq hproper] at hask
    simp at hask
  | ok there =>
    cases there with
    | true => exact absurd hask hno
    | false =>
      simp only [Bool.false_eq_true, if_false]
      rw [Os.runFrom_bind, Os.runFrom_get]
      by_cases hproper : Proper p
      · have hexec := h.exec_unlink_absent hproper hnone (hblocked hproper)
        exact Or.inl ⟨hblocked, by simp only [hexec]; rfl⟩
      · obtain ⟨e, hlocate⟩ : ∃ e, t.locate .itself p = .error e := h.locate_refused hclean hproper
        have hexec : (Call.unlink p).exec t = .error e := by
          simp only [Call.exec, hlocate, error_bind]
        by_cases he : e = .noEntry
        · exact Or.inl ⟨hblocked, by simp only [hexec, he]; rfl⟩
        · exact Or.inr ⟨Or.inl hproper, e, by simp only [hexec]; rw [Os.runFrom_throw]⟩

/-- A write that nothing stands against goes through. -/
theorem write_done (h : t.Orderly) (hfree : ¬ Reserved path) (hsome : Path.segments path ≠ [])
    (hproper : Proper (Path.segments path))
    (hplain : t.nodes.get? (Path.segments path) ≠ some .folder)
    (hclear : ¬ t.Blocked (Path.segments path)) (data : Bytes) (append : Bool) :
    ∃ t', (write path data append).runFrom t = (.ok (), t') ∧
      t.Written t' (Path.segments path) (t.filled (Path.segments path) data append) := by
  have hends := write_ends h path data append
  generalize (write path data append).runFrom t = ended at hends ⊢
  cases hends with
  | refused e _ hcause =>
    rcases hcause with hcause | hcause | hcause | hcause | hcause
    · exact absurd hcause hfree
    · exact absurd hcause hsome
    · exact absurd hproper hcause
    · exact absurd hcause hplain
    · exact absurd hcause hclear
  | abandoned e _ himproper _ _ _ => exact absurd hproper himproper
  | done _ hwritten => exact ⟨_, rfl, hwritten⟩

theorem delete_ends (h : t.Orderly) (path : String) :
    t.DeleteEnds path ((delete path).runFrom t) := by
  unfold delete
  rw [Action.runFrom_bind, Action.runFrom_ask]
  by_cases hfree : Reserved path
  · rw [place?_reserved hfree]
    exact .refused _ (Or.inl hfree)
  rw [place?_free hfree]
  dsimp only
  rw [Os.runFrom_act]
  by_cases hsome : Path.segments path = []
  · obtain ⟨t', hrun, hrooted, hbare⟩ := clear_spec h.rooted h.root h.swept
    rw [hsome, hrun]
    exact .emptied hsome hrooted hbare
  cases hnode : t.nodes.get? (Path.segments path) with
  | none =>
    rcases remove_absent h.rooted (clean_segments path) hnode with
        ⟨hclear, hrun⟩ | ⟨hcause, e, hrun⟩
    · rw [hrun]
      exact .ignored hfree hnode hclear
    · rw [hrun]
      exact .refused _ (Or.inr hcause)
  | some n =>
    cases n with
    | link target => exact absurd hnode (h.rooted.free _ target)
    | folder =>
      obtain ⟨t', hrun, hcut⟩ := remove_folder h.rooted hsome hnode
      rw [hrun]
      exact .taken .folder hfree hsome hnode (by simp) hcut
    | file content =>
      have hsidecar : ¬ IsSidecar (Path.segments path) := fun hname => hfree (Or.inr hname)
      rcases remove_file h.rooted hsidecar hsome hnode with
        ⟨e, hstuck, hrun⟩ | ⟨t', hable, hrun, hcut⟩
      · rw [hrun]
        exact .halved _ content hfree hnode hstuck
      · rw [hrun]
        exact .taken (.file content) hfree hsome hnode (fun _ _ => hable) hcut

/-- No sidecar is written where none could be removed. -/
theorem create_refused (h : t.Rooted) (hclean : Clean p) (hsome : p ≠ [])
    (hstuck : ¬ t.Detachable p) : ∃ e, (Call.create (sidecar p)).exec t = .error e := by
  by_cases hproper : Proper (sidecar p)
  · have hfolder : t.nodes.get? (sidecar p) = some .folder := by
      by_contra hplain
      exact hstuck ⟨hproper, hplain⟩
    have hlocate : t.locate .output (sidecar p) = .ok (sidecar p) := h.locate_of_node hfolder
    exact ⟨.isDirectory, by simp only [Call.exec, hlocate, ok_bind, hproper.node?, hfolder]⟩
  · obtain ⟨e, hlocate⟩ : ∃ e, t.locate .output (sidecar p) = .error e :=
      h.locate_refused (clean_sidecar hclean hsome) hproper
    exact ⟨e, by simp only [Call.exec, hlocate, error_bind]⟩

theorem annotate_ends (h : t.Orderly) (path : String) (m : Texts) :
    t.AnnotateEnds path m ((setMetadata path m).runFrom t) := by
  unfold setMetadata
  rw [Action.runFrom_bind, Action.runFrom_ask]
  by_cases hfree : Reserved path
  · rw [place?_reserved hfree]
    exact .refused _ (Or.inl hfree)
  rw [place?_free hfree]
  dsimp only
  rw [Action.runFrom_bind, Os.runFrom_act, Os.runFrom_ask]
  have hmissing : t.isFile (Path.segments path) ≠ .ok true → ∀ content,
      t.nodes.get? (Path.segments path) ≠ some (.file content) := fun hask content hfile =>
    hask ((h.rooted.isFile_iff (clean_segments path)).mpr ⟨content, hfile⟩)
  cases hask : t.isFile (Path.segments path) with
  | error e => exact .refused _ (Or.inr (Or.inl (hmissing (by simp [hask]))))
  | ok there =>
    cases there with
    | false => exact .refused _ (Or.inr (Or.inl (hmissing (by simp [hask]))))
    | true =>
      obtain ⟨content, hfile⟩ := (h.rooted.isFile_iff (clean_segments path)).mp hask
      have hsome : Path.segments path ≠ [] := by
        intro hnil
        rw [hnil, h.root] at hfile
        simp at hfile
      have hseat : t.Seated (sidecar (Path.segments path)) := by
        intro _
        rw [dropLast_sidecar]
        exact h.rooted.above_dropLast hfile hsome
      simp only [Except.mapError, if_true]
      rw [Os.runFrom_act]
      by_cases hable : t.Detachable (Path.segments path)
      · obtain ⟨t', hrooted, hread, hrun⟩ := fill_spec h.rooted hable.1 hseat hable.2
          (Bytes.utf8 (Json.ofTexts m).render)
        rw [hrun []]
        exact .done content hfree hfile hrooted hread
      · obtain ⟨e, hexec⟩ := create_refused h.rooted (clean_segments path) hsome hable
        rw [Os.performAll, Os.runFrom_bind, Os.runFrom_perform, hexec]
        exact .refused _ (Or.inr (Or.inr hable))

end Depot.Storage.Disk
