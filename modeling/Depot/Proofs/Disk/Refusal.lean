import Depot.Proofs.Disk.Call
import Depot.Proofs.OrderedMap

/-!
Places that the file system may refuse: their names stand for themselves, but may be too long
or have a NUL character. Only a proper place in a folder that is there is ever found, so what a
call refuses it leaves alone. A name is looked at only where its folder is there, so the
folders above a name that will be refused are made all the same.
-/
namespace Depot.Storage.Disk

def Clean (p : Place) : Prop := ∀ name ∈ p, Path.Clean name

variable {t t' t'' : Tree} {p q here names rest : Place} {name : String} {goal : Tree.Goal}
  {links : Nat} {n : Node} {content data : Bytes}

theorem Clean.sublist (hclean : Clean p) (hsub : q.Sublist p) : Clean q :=
  fun name hname => hclean name (hsub.subset hname)

theorem Clean.dropLast (hclean : Clean p) : Clean p.dropLast :=
  hclean.sublist (List.dropLast_sublist p)

theorem Clean.left (hclean : Clean (p ++ q)) : Clean p :=
  hclean.sublist (List.sublist_append_left p q)

namespace Tree

theorem above_of_clean (hclean : Clean p) (hsome : p ≠ []) : above p = p.dropLast := by
  obtain ⟨name, hname⟩ := List.exists_mem_of_ne_nil p hsome
  refine if_neg fun hup => (hclean name hname).2.2.2 ?_
  exact of_decide_eq_true (List.all_eq_true.mp hup name hname)

variable (hclean : Clean p) (hsome : p ≠ [])
include hclean hsome

theorem last_remove_of_clean (hq : q ≠ p.dropLast) : (t.remove p).times.last q = t.times.last q :=
  last_remove (above_of_clean hclean hsome ▸ hq)

theorem last_removeBelow_of_clean (hq : q ≠ p.dropLast) :
    (t.removeBelow p).times.last q = t.times.last q :=
  last_removeBelow (above_of_clean hclean hsome ▸ hq)

end Tree

namespace Tree.Rooted

theorem walk_eq_ok (h : t.Rooted) (hclean : Clean (here ++ names))
    (hok : t.walk goal links here names = .ok q) :
    q = here ++ names ∧ (∀ name ∈ names, name.utf8ByteSize ≤ nameLimit) ∧
      (names ≠ [] → t.nodes.get? (here ++ names.dropLast) = some .folder) := by
  induction names generalizing here with
  | nil =>
    rw [walk, Except.ok.injEq] at hok
    simp [hok]
  | cons name rest ih =>
    rw [h.walk_clean hclean] at hok
    cases hhere : t.nodes.get? here with
    | none => simp [hhere] at hok
    | some node =>
      cases node with
      | file content => simp [hhere] at hok
      | link target => simp [hhere] at hok
      | folder =>
        simp only [hhere] at hok
        split at hok
        · simp at hok
        · next hshort =>
          have hshort := Nat.le_of_not_lt hshort
          cases hchild : t.nodes.get? (here ++ [name]) with
          | none =>
            simp only [hchild] at hok
            split at hok
            · next hrest =>
              obtain rfl := Except.ok.inj hok
              subst hrest
              simpa [hhere] using hshort
            · simp at hok
          | some node =>
            simp only [hchild] at hok
            rw [List.append_cons] at hclean
            obtain ⟨hq, hrest, hfolder⟩ := ih hclean hok
            refine ⟨by simp [hq], List.forall_mem_cons.mpr ⟨hshort, hrest⟩, fun _ => ?_⟩
            cases rest with
            | nil => simpa using hhere
            | cons next others => simpa using hfolder (by simp)

/-- Only a proper place in a folder is found, and where it is looked for. -/
theorem locate_eq_ok (h : t.Rooted) (hclean : Clean p) (hok : t.locate goal p = .ok q) :
    q = p ∧ Proper p ∧ t.Seated p := by
  unfold locate at hok
  split at hok
  · simp at hok
  · next hnul =>
    split at hok
    · simp at hok
    · next hnear =>
      obtain ⟨rfl, hshort, hfolder⟩ := h.walk_eq_ok (by rwa [List.nil_append]) hok
      refine ⟨rfl, ⟨hclean, hshort, ?_, by simpa using hnear⟩, hfolder⟩
      simpa [hasNul] using hnul

theorem locate_refused (h : t.Rooted) (hclean : Clean p) (hp : ¬ Proper p) :
    ∃ e, t.locate goal p = .error e := by
  cases hlocate : t.locate goal p with
  | error e => exact ⟨e, rfl⟩
  | ok q => exact absurd (h.locate_eq_ok hclean hlocate).2.1 hp

/-- In a folder that is there a place is not refused for being missing. -/
theorem locate_seated (h : t.Rooted) (hclean : Clean p) (hsome : p ≠ [])
    (hfolder : t.nodes.get? p.dropLast = some .folder) (hp : ¬ Proper p) :
    ∃ e, e ≠ .noEntry ∧ t.locate goal p = .error e := by
  unfold locate
  split
  · exact ⟨.nulByte, by simp, rfl⟩
  · next hnul =>
    split
    · exact ⟨.nameTooLong, by simp, rfl⟩
    · next hnear =>
      have hsplit : p.dropLast ++ [p.getLast hsome] = p := List.dropLast_append_getLast hsome
      have hlong : nameLimit < (p.getLast hsome).utf8ByteSize := by
        refine Nat.lt_of_not_le fun hshort => hp ⟨hclean, fun name hname => ?_, ?_, ?_⟩
        · rw [← hsplit, List.mem_append, List.mem_singleton] at hname
          rcases hname with hname | rfl
          · exact (h.proper _ _ hfolder).short name hname
          · exact hshort
        · simpa [hasNul] using hnul
        · simpa using hnear
      refine ⟨.nameTooLong, by simp, ?_⟩
      rw [← hsplit]
      exact h.walk_overlong (by rwa [List.nil_append, hsplit]) (by simpa using hfolder) hlong

theorem stat_eq_ok (h : t.Rooted) (hclean : Clean p) :
    t.stat p = .ok n ↔ t.nodes.get? p = some n := by
  refine ⟨fun hok => ?_, h.stat_of_node⟩
  unfold stat at hok
  cases hlocate : t.locate .target p with
  | error e => simp [hlocate] at hok
  | ok q =>
    obtain ⟨rfl, -, -⟩ := h.locate_eq_ok hclean hlocate
    simp only [hlocate, node?_of_clean hclean] at hok
    cases hnode : t.nodes.get? q with
    | none => simp [hnode] at hok
    | some m =>
      rw [hnode] at hok
      rw [Except.ok.inj hok]

theorem test_eq_true (h : t.Rooted) (hclean : Clean p) {f : Node → Bool} :
    t.test p f = .ok true ↔ ∃ n, t.nodes.get? p = some n ∧ f n = true := by
  unfold test
  cases hstat : t.stat p with
  | ok n =>
    have hnode := (h.stat_eq_ok hclean).mp hstat
    simp [hnode]
  | error e =>
    have hnone : ∀ n, t.nodes.get? p ≠ some n := by
      intro n hn
      rw [h.stat_of_node hn] at hstat
      simp at hstat
    simp only [hnone, false_and, exists_false, iff_false]
    split
    · simp
    · simp

theorem isFolder_iff (h : t.Rooted) (hclean : Clean p) :
    t.isFolder p = .ok true ↔ t.nodes.get? p = some .folder := by
  rw [isFolder, h.test_eq_true hclean]
  constructor
  · rintro ⟨n, hn, hfolder⟩
    cases n with
    | folder => exact hn
    | file content => simp at hfolder
    | link target => simp at hfolder
  · exact fun hn => ⟨.folder, hn, rfl⟩

theorem isFile_iff (h : t.Rooted) (hclean : Clean p) :
    t.isFile p = .ok true ↔ ∃ content, t.nodes.get? p = some (.file content) := by
  rw [isFile, h.test_eq_true hclean]
  constructor
  · rintro ⟨n, hn, hfile⟩
    cases n with
    | folder => simp at hfile
    | file content => exact ⟨content, hn⟩
    | link target => simp at hfile
  · rintro ⟨content, hn⟩
    exact ⟨.file content, hn, rfl⟩

/-- What comes after a place has been found. -/
theorem located {α : Type} {f : Place → Except OsFault α} {x : α} (h : t.Rooted) (hclean : Clean p)
    (hok : (t.locate goal p >>= f) = .ok x) : Proper p ∧ t.Seated p ∧ f p = .ok x := by
  cases hlocate : t.locate goal p with
  | error e => simp [hlocate] at hok
  | ok q =>
    obtain ⟨rfl, hp, hseat⟩ := h.locate_eq_ok hclean hlocate
    rw [hlocate] at hok
    exact ⟨hp, hseat, hok⟩

/-! What a call has done that was not refused. -/

theorem exec_makeFolder_eq_ok (h : t.Rooted) (hclean : Clean p)
    (hok : (Call.makeFolder p).exec t = .ok t') :
    Proper p ∧ t.Seated p ∧ t.nodes.get? p = none ∧ t' = t.put p .folder := by
  obtain ⟨hp, hseat, hafter⟩ := h.located hclean hok
  cases hnode : t.nodes.get? p with
  | some n => simp [hp.node?, hnode] at hafter
  | none => exact ⟨hp, hseat, rfl, Except.ok.inj
      (hok.symm.trans (h.exec_makeFolder hp hseat hnode))⟩

theorem exec_create_eq_ok (h : t.Rooted) (hclean : Clean p)
    (hok : (Call.create p).exec t = .ok t') :
    Proper p ∧ t.Seated p ∧ t.nodes.get? p ≠ some .folder ∧ t' = t.put p (.file []) := by
  obtain ⟨hp, hseat, hafter⟩ := h.located hclean hok
  have hplain : t.nodes.get? p ≠ some .folder := fun hfolder => by
    simp [hp.node?, hfolder] at hafter
  exact ⟨hp, hseat, hplain, Except.ok.inj (hok.symm.trans (h.exec_create hp hseat hplain))⟩

theorem add_eq_ok (h : t.Rooted) (hclean : Clean p) (hok : t.add p data = .ok t') :
    Proper p ∧ t.Seated p ∧ t.nodes.get? p ≠ some .folder ∧
      t' = t.put p (.file (t.contentAt p ++ data)) := by
  obtain ⟨hp, hseat, hafter⟩ := h.located hclean hok
  have hplain : t.nodes.get? p ≠ some .folder := fun hfolder => by
    simp [hp.node?, hfolder] at hafter
  exact ⟨hp, hseat, hplain, Except.ok.inj (hok.symm.trans (h.exec_extend hp hseat hplain data))⟩

theorem exec_rename_eq_ok (h : t.Rooted) (hn : t.nodes.get? q = some n) (hclean : Clean p)
    (hok : (Call.rename q p).exec t = .ok t') :
    Proper p ∧ t.Seated p ∧ t.nodes.get? p ≠ some .folder ∧ t' = (t.remove q).put p n := by
  have hafter := hok
  simp only [Call.exec] at hafter
  split at hafter
  · simp at hafter
  obtain ⟨hq, -, hafter⟩ := h.located (h.proper q n hn).clean hafter
  obtain ⟨hp, hseat, hafter⟩ := h.located hclean hafter
  have hplain : t.nodes.get? p ≠ some .folder := fun hfolder => by
    simp [hp.node?, hfolder, hq.node?, hn] at hafter
  exact ⟨hp, hseat, hplain, Except.ok.inj (hok.symm.trans (h.exec_rename hn hp hseat hplain))⟩

theorem exec_unlink_eq_ok (h : t.Rooted) (hclean : Clean p)
    (hok : (Call.unlink p).exec t = .ok t') :
    ∃ content, t.nodes.get? p = some (.file content) ∧ t' = t.remove p := by
  obtain ⟨hp, -, hafter⟩ := h.located hclean hok
  rw [hp.node?] at hafter
  cases hnode : t.nodes.get? p with
  | none => simp [hnode] at hafter
  | some n =>
    cases n with
    | folder => simp [hnode] at hafter
    | link target => exact absurd hnode (h.free p target)
    | file content => exact ⟨content, rfl, Except.ok.inj (hok.symm.trans (h.exec_unlink hnode))⟩

theorem exec_removeFolder_eq_ok (h : t.Rooted) (hclean : Clean p)
    (hok : (Call.removeFolder p).exec t = .ok t') :
    t.nodes.get? p = some .folder ∧ t.children p = [] ∧ t' = t.remove p := by
  obtain ⟨hp, -, hafter⟩ := h.located hclean hok
  rw [hp.node?] at hafter
  cases hnode : t.nodes.get? p with
  | none => simp [hnode] at hafter
  | some n =>
    cases n with
    | file content => simp [hnode] at hafter
    | link target => exact absurd hnode (h.free p target)
    | folder =>
      rw [h.exec_removeFolder hnode] at hok
      split at hok
      · next hempty => exact ⟨rfl, hempty, (Except.ok.inj hok).symm⟩
      · simp at hok

theorem exec_removeTree_eq_ok (h : t.Rooted) (hclean : Clean p)
    (hok : (Call.removeTree p).exec t = .ok t') :
    t.nodes.get? p = some .folder ∧ t' = t.removeBelow p := by
  obtain ⟨hp, -, hafter⟩ := h.located hclean hok
  rw [hp.node?] at hafter
  cases hnode : t.nodes.get? p with
  | none => simp [hnode] at hafter
  | some n =>
    cases n with
    | file content => simp [hnode] at hafter
    | link target => exact absurd hnode (h.free p target)
    | folder => exact ⟨rfl, Except.ok.inj (hok.symm.trans (h.exec_removeTree hnode))⟩

end Tree.Rooted

/-- Nothing has changed but the dates of temporary files and of their folder. -/
structure Tree.Same (t t' : Tree) : Prop where
  nodes : t'.nodes = t.nodes
  dates : ∀ p, p.head? ≠ some temporaryFolder → t'.times.last p = t.times.last p

namespace Tree.Same

theorem refl (t : Tree) : t.Same t := ⟨rfl, fun _ _ => rfl⟩

theorem trans (h : t.Same t') (h' : t'.Same t'') : t.Same t'' :=
  ⟨h'.nodes.trans h.nodes, fun p hp => (h'.dates p hp).trans (h.dates p hp)⟩

theorem rooted (h : t.Same t') (hrooted : t.Rooted) : t'.Rooted := by
  constructor
  · simpa only [h.nodes] using hrooted.above
  · simpa only [h.nodes] using hrooted.free
  · simpa only [h.nodes] using hrooted.proper

end Tree.Same

/-- Folders on the way to a place have been added, and nothing else has changed. -/
structure Tree.Grown (t t' : Tree) (p : Place) : Prop where
  rooted : t'.Rooted
  kept : ∀ q n, t.nodes.get? q = some n → t'.nodes.get? q = some n
  new : ∀ q n, t'.nodes.get? q = some n → t.nodes.get? q = some n ∨ (n = .folder ∧ q <+: p)
  made : t.Same t' ∨ ∃ q, q <+: p ∧ t.nodes.get? q = none ∧ t'.nodes.get? q = some .folder

namespace Tree.Grown

theorem refl (h : t.Rooted) (p : Place) : t.Grown t p :=
  ⟨h, fun _ _ hn => hn, fun _ _ hn => .inl hn, .inl (.refl t)⟩

theorem of_same (h : t.Rooted) (hsame : t.Same t') (p : Place) : t.Grown t' p :=
  ⟨hsame.rooted h, by simp [hsame.nodes], by simp +contextual [hsame.nodes], .inl hsame⟩

theorem trans (h : t.Grown t' p) (h' : t'.Grown t'' q) (hsub : p <+: q) : t.Grown t'' q where
  rooted := h'.rooted
  kept r n hn := h'.kept r n (h.kept r n hn)
  new r n hn := by
    rcases h'.new r n hn with hold | hnew
    · exact (h.new r n hold).imp id fun hnew => ⟨hnew.1, hnew.2.trans hsub⟩
    · exact Or.inr hnew
  made := by
    rcases h'.made with hsame | ⟨r, hr, hnone, hfolder⟩
    · refine h.made.imp (·.trans hsame) fun ⟨r, hr, hnone, hfolder⟩ =>
        ⟨r, hr.trans hsub, hnone, ?_⟩
      rw [hsame.nodes, hfolder]
    · refine Or.inr ⟨r, hr, ?_, hfolder⟩
      rw [Option.eq_none_iff_forall_ne_some] at hnone ⊢
      exact fun n hn => hnone n (h.kept r n hn)

/-- A folder more. -/
theorem put (h : t.Rooted) (hp : Proper p) (hseat : t.Seated p) (hnone : t.nodes.get? p = none) :
    t.Grown (t.put p .folder) p where
  rooted := h.put hp hseat (by simp [hnone]) (by simp)
  kept q n hn := by
    rw [Tree.get?_put, if_neg, hn]
    rintro rfl
    simp [hnone] at hn
  new q n hn := by
    rw [Tree.get?_put] at hn
    split at hn
    · next hq => exact Or.inr ⟨(Option.some.inj hn).symm, hq ▸ List.prefix_refl _⟩
    · exact Or.inl hn
  made := Or.inr ⟨p, List.prefix_refl p, hnone, by rw [Tree.get?_put, if_pos rfl]⟩

end Tree.Grown

/-- A folder is refused, there already or made. -/
theorem ensureFolder_cases (h : t.Rooted) (hclean : Clean p) :
    (∃ e, (ensureFolder p).runFrom t = (.error e, t)) ∨
    (t.nodes.get? p = some .folder ∧ (ensureFolder p).runFrom t = (.ok (), t)) ∨
    ∃ t', (ensureFolder p).runFrom t = (.ok (), t') ∧ t.Grown t' p := by
  by_cases hfolder : t.nodes.get? p = some .folder
  · exact Or.inr (Or.inl ⟨hfolder, ensureFolder_there h hfolder⟩)
  unfold ensureFolder
  rw [Os.runFrom_tryCatch, Os.runFrom_perform]
  cases hexec : (Call.makeFolder p).exec t with
  | ok t' =>
    obtain ⟨hp, hseat, hnone, rfl⟩ := h.exec_makeFolder_eq_ok hclean hexec
    exact Or.inr (Or.inr ⟨_, rfl, .put h hp hseat hnone⟩)
  | error e =>
    left
    have hno : t.isFolder p ≠ .ok true := fun hask => hfolder ((h.isFolder_iff hclean).mp hask)
    by_cases he : e = .noEntry ∨ e = .nulByte
    · exact ⟨e, by simp [he]⟩
    · cases hask : t.isFolder p with
      | error e' => exact ⟨e', by simp [he, Os.runFrom_bind, hask]⟩
      | ok there =>
        cases there with
        | true => exact absurd hask hno
        | false => exact ⟨e, by simp [he, Os.runFrom_bind, hask]⟩

theorem ensureFolder_grown (h : t.Rooted) (hclean : Clean p) :
    t.Grown ((ensureFolder p).runFrom t).2 p := by
  rcases ensureFolder_cases h hclean with ⟨e, hrun⟩ | ⟨-, hrun⟩ | ⟨t', hrun, hgrown⟩
  · rw [hrun]
    exact .refl h p
  · rw [hrun]
    exact .refl h p
  · rw [hrun]
    exact hgrown

/-- Folders are made from the outermost on, until one is refused. -/
theorem makeFolders_grown (h : t.Rooted) (hclean : Clean p) :
    t.Grown ((makeFolders p).runFrom t).2 p := by
  induction p using List.reverseRecOn with
  | nil => exact ensureFolder_grown h hclean
  | append_singleton init name ih =>
    rw [makeFolders_concat, Os.runFrom_tryCatch]
    rcases ensureFolder_cases h hclean with ⟨e, hrun⟩ | ⟨-, hrun⟩ | ⟨t', hrun, hgrown⟩
    · rw [hrun]
      by_cases he : e = .noEntry
      · have habove := ih hclean.left
        simp only [he, ne_eq, not_true_eq_false, if_false, Os.runFrom_bind]
        rcases hmade : (makeFolders init).runFrom t with ⟨r, t₁⟩
        rw [hmade] at habove
        have hmore := habove.trans (.refl habove.rooted _) (List.prefix_append init [name])
        cases r with
        | error e₁ => exact hmore
        | ok _ => exact hmore.trans (ensureFolder_grown habove.rooted hclean) (List.prefix_refl _)
      · simp only [he, ne_eq, not_false_eq_true, if_true, Os.runFrom_bind, Os.runFrom_throw]
        exact .refl h _
    · rw [hrun]
      exact .refl h _
    · rw [hrun]
      exact hgrown

/-- A name with a NUL character is found before anything is made. -/
theorem makeFolders_nul (hnul : Tree.hasNul p = true) :
    ∃ e, (makeFolders p).runFrom t = (.error e, t) := by
  have hexec : (Call.makeFolder p).exec t = .error .nulByte := by
    simp [Call.exec, Tree.locate, hnul]
  have hensure : (ensureFolder p).runFrom t = (.error .nulByte, t) := by
    unfold ensureFolder
    rw [Os.runFrom_tryCatch, Os.runFrom_perform, hexec]
    simp [Os.runFrom_throw]
  refine ⟨.nulByte, ?_⟩
  cases p using List.reverseRecOn with
  | nil => simp [Tree.hasNul] at hnul
  | append_singleton init name =>
    rw [makeFolders_concat, Os.runFrom_tryCatch, hensure]
    simp [Os.runFrom_throw]

/-- What comes after a missing folder is not looked at. -/
theorem locate_stray (h : t.Rooted) (hclean : Clean (q ++ rest))
    (hnul : Tree.hasNul (q ++ rest) = false) (hnear : Tree.isTooLong (q ++ rest) = false)
    (hclear : t.Clear q) (hproper : Proper q) (hnone : t.nodes.get? q = none) (hrest : rest ≠ []) :
    t.locate goal (q ++ rest) = .error .noEntry := by
  have hwalk : t.walk goal linkLimit [] (q ++ rest) = .error .noEntry :=
    h.walk_missing (by rwa [List.nil_append]) hproper.short hrest hnone
      fun r content hsub => hclear r content hsub
  simp [Tree.locate, hnul, hnear, hwalk]

theorem ensureFolder_stray (hlocate : t.locate .itself p = .error .noEntry) :
    (ensureFolder p).runFrom t = (.error .noEntry, t) := by
  have hexec : (Call.makeFolder p).exec t = .error .noEntry := by simp [Call.exec, hlocate]
  unfold ensureFolder
  rw [Os.runFrom_tryCatch, Os.runFrom_perform, hexec]
  simp [Os.runFrom_throw]

/-- The first folder that is missing on the way is made if its name is good, whatever becomes of
the others. -/
theorem makeFolders_more (h : t.Rooted) (hclean : Clean p) (hnul : Tree.hasNul p = false)
    (hnear : Tree.isTooLong p = false) (hclear : t.Clear p) (hsub : q <+: p) (hproper : Proper q)
    (hnone : t.nodes.get? q = none) :
    ∃ q, q <+: p ∧ t.nodes.get? q = none ∧
      ((makeFolders p).runFrom t).2.nodes.get? q = some .folder := by
  have hgood : ∀ p, Proper p → t.Clear p → q <+: p → ∃ q, q <+: p ∧ t.nodes.get? q = none ∧
      ((makeFolders p).runFrom t).2.nodes.get? q = some .folder := by
    intro p hp hclear hsub
    obtain ⟨t', hrun, hpaved⟩ := makeFolders_spec h hp hclear
    exact ⟨q, hsub, hnone, by rw [hrun, hpaved.2, if_pos hsub]⟩
  induction p using List.reverseRecOn with
  | nil => exact hgood [] .nil hclear hsub
  | append_singleton init name ih =>
    by_cases hp : Proper (init ++ [name])
    · exact hgood _ hp hclear hsub
    -- The call for the place itself fails for want of its folder, so those above it come first.
    obtain ⟨more, rfl⟩ := (List.prefix_concat_iff.mp hsub).resolve_left fun heq =>
        hp (heq ▸ hproper)
    have hinit : (q ++ more).Sublist (q ++ more ++ [name]) := List.sublist_append_left _ _
    have hnul' : Tree.hasNul (q ++ more) = false := by
      rw [Tree.hasNul, List.any_append, Bool.or_eq_false_iff] at hnul
      exact hnul.1
    obtain ⟨r, hr, habsent, hmade⟩ := ih (hclean.sublist hinit) hnul'
      (isTooLong_of_sublist hinit hnear) hclear.left (List.prefix_append q more)
    have hstray : (ensureFolder (q ++ more ++ [name])).runFrom t = (.error .noEntry, t) := by
      rw [List.append_assoc] at hclean hnul hnear ⊢
      exact ensureFolder_stray (locate_stray h hclean hnul hnear
        (fun s content hs => hclear s content (hs.trans hsub)) hproper hnone (by simp))
    refine ⟨r, hr.trans (List.prefix_append _ _), habsent, ?_⟩
    rw [makeFolders_concat, Os.runFrom_tryCatch, hstray]
    have hrooted := (makeFolders_grown h (hclean.sublist hinit)).rooted
    rcases hrun : (makeFolders (q ++ more)).runFrom t with ⟨answer, t₁⟩
    rw [hrun] at hmade hrooted
    cases answer with
    | error e => simpa [Os.runFrom_bind, hrun] using hmade
    | ok _ =>
      have hkept := (ensureFolder_grown hrooted hclean).kept _ _ hmade
      simpa [Os.runFrom_bind, hrun] using hkept

/-- A search that finds no file has asked for all that is above. -/
theorem isFile_above (hnone : fileAbove t p = .ok none) (hq : q ≠ []) (hrest : rest ≠ [])
    (hsplit : p = q ++ rest) : t.isFile q = .ok false := by
  have hgo : ∀ above, fileAbove.go t above = .ok none → ∀ r ∈ above, t.isFile r = .ok false := by
    intro above
    induction above with
    | nil => simp
    | cons r more ih =>
      intro hnone
      rw [fileAbove.go] at hnone
      cases hask : t.isFile r with
      | error e => simp [hask] at hnone
      | ok there =>
        cases there with
        | true => simp [hask, pure, Except.pure] at hnone
        | false =>
          simp only [hask, ok_bind, Bool.false_eq_true, if_false] at hnone
          exact List.forall_mem_cons.mpr ⟨hask, ih hnone⟩
  have hlong := List.length_pos_iff.mpr hq
  have hmore := List.length_pos_iff.mpr hrest
  refine hgo _ hnone q ?_
  rw [List.mem_reverse, List.mem_map]
  refine ⟨q.length - 1, ?_, ?_⟩
  · rw [List.mem_range, hsplit, List.length_append]
    omega
  · rw [Nat.sub_add_cancel hlong, hsplit, List.take_left]

theorem no_file_above (h : t.Rooted) (hnone : fileAbove t p = .ok none) (hq : q ≠ [])
    (hrest : rest ≠ []) (hsplit : p = q ++ rest) : t.nodes.get? q ≠ some (.file content) := by
  intro hfile
  have hask := isFile_above hnone hq hrest hsplit
  rw [h.isFile_eq_true hfile] at hask
  simp at hask

/-- The folder of a place whose search ends is not too long to be asked for. -/
theorem near_above (hnone : fileAbove t p = .ok none) (hnul : Tree.hasNul p.dropLast = false) :
    Tree.isTooLong p.dropLast = false := by
  by_cases hfolder : p.dropLast = []
  · rw [hfolder]
    exact Proper.nil.near
  · rw [← Bool.not_eq_true]
    intro hlong
    have hsome : p ≠ [] := by
      rintro rfl
      exact hfolder rfl
    have hsplit : p = p.dropLast ++ [p.getLast hsome] := (List.dropLast_append_getLast hsome).symm
    have hask := isFile_above hnone hfolder (by simp) hsplit
    simp [Tree.isFile, Tree.test, Tree.stat, Tree.locate, hnul, hlong, Tree.meansAbsent] at hask

namespace Tree.Rooted

theorem exec_rename_refused (h : t.Rooted) (hclean : Clean p) (hp : ¬ Proper p) (source : Place) :
    ∃ e, (Call.rename source p).exec t = .error e := by
  obtain ⟨e, hlocate⟩ : ∃ e, t.locate .itself p = .error e := h.locate_refused hclean hp
  by_cases hnul : Tree.hasNul p = true
  · exact ⟨.nulByte, by simp [Call.exec, hnul]⟩
  · cases hold : t.locate .itself source with
    | error e' => exact ⟨e', by simp [Call.exec, hnul, hold]⟩
    | ok old => exact ⟨e, by simp [Call.exec, hnul, hold, hlocate]⟩

theorem exec_extend_refused (h : t.Rooted) (hclean : Clean p) (hp : ¬ Proper p) (data : Bytes) :
    ∃ e, (Call.extend p data).exec t = .error e := by
  obtain ⟨e, hlocate⟩ : ∃ e, t.locate .output p = .error e := h.locate_refused hclean hp
  exact ⟨e, by simp [Call.exec, Tree.add, hlocate]⟩

end Tree.Rooted

/-- The temporary file of an overwrite that is refused is taken away again. -/
theorem overwrite_refused (h : t.Rooted) (hswept : t.Swept) (hclean : Clean p) (hp : ¬ Proper p)
    (data : Bytes) : ∃ e t', (overwrite p data).runFrom t = (.error e, t') ∧ t.Same t' := by
  have hnone : t.nodes.get? [temporaryFolder, "0"] = none := hswept.bare "0"
  have hseat : t.Seated [temporaryFolder, "0"] := fun _ => hswept.there
  have hcreate := h.exec_create proper_temporary hseat (by simp [hnone])
  have h₁ := h.put (n := .file []) proper_temporary hseat (by simp [hnone]) (by simp)
  have hat₁ : (t.put [temporaryFolder, "0"] (.file [])).nodes.get? [temporaryFolder, "0"] =
      some (.file []) := by rw [Tree.get?_put, if_pos rfl]
  have hextend := h₁.exec_extend proper_temporary (h₁.seated hat₁) (by simp [hat₁]) (stored data)
  have hcontent : Tree.contentAt (t.put [temporaryFolder, "0"] (.file [])) [temporaryFolder, "0"] =
      [] := by simp [Tree.contentAt, hat₁]
  rw [hcontent, List.nil_append] at hextend
  have h₂ := h₁.put (n := .file (stored data)) proper_temporary (h₁.seated hat₁)
      (by simp [hat₁]) (by simp)
  have hat₂ : ((t.put [temporaryFolder, "0"] (.file [])).put [temporaryFolder, "0"]
      (.file (stored data))).nodes.get? [temporaryFolder, "0"] = some (.file (stored data)) := by
    rw [Tree.get?_put, if_pos rfl]
  obtain ⟨e, hrename⟩ := h₂.exec_rename_refused hclean hp [temporaryFolder, "0"]
  have hback : t.Same (((t.put [temporaryFolder, "0"] (.file [])).put [temporaryFolder, "0"]
      (.file (stored data))).remove [temporaryFolder, "0"]) := by
    refine ⟨?_, fun q hq => ?_⟩
    · simp only [Tree.put, Tree.remove, OrderedMap.erase_insert, OrderedMap.erase_of_new hnone]
    · have habove : Tree.above [temporaryFolder, "0"] = [temporaryFolder] := by decide
      have hout : ∀ rest, q ≠ temporaryFolder :: rest := by
        rintro rest rfl
        exact hq rfl
      rw [Tree.last_remove (habove ▸ hout []), Tree.last_put (hout _) (habove ▸ hout []),
        Tree.last_put (hout _) (habove ▸ hout [])]
  refine ⟨e, _, ?_, hback⟩
  unfold overwrite
  rw [Os.runFrom_bind, ensureFolder_there h hswept.there]
  dsimp only
  rw [Os.runFrom_bind, Os.runFrom_get]
  dsimp only
  rw [freshName_eq h hswept, Os.runFrom_tryCatch, Os.performAll_replaceCalls,
    Os.runFrom_performAll_of_ok t hcreate, Os.runFrom_performAll_of_ok _ hextend,
    Os.runFrom_performAll_of_ok _ (h₂.exec_sync hat₂)]
  simp only [Os.performAll, Os.runFrom_bind, Os.runFrom_perform, hrename, Os.allowing,
    Os.runFrom_tryCatch, h₂.exec_unlink hat₂, Os.runFrom_throw]

end Depot.Storage.Disk
