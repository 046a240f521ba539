import Depot.Proofs.Action
import Depot.Proofs.Disk.Tree
import Depot.Storage.Disk.Backend
import Mathlib.Data.Nat.Digits.Defs

/-!
What sequences of calls do to a tree without links. Each lemma gives the answer and what
stands at every place afterwards; in what order things came to be does not matter.
-/
namespace Depot.Storage.Disk

@[simp] theorem ok_bind {ε α β : Type} (x : α) (f : α → Except ε β) :
    (Except.ok x >>= f) = f x := rfl

@[simp] theorem error_bind {ε α β : Type} (e : ε) (f : α → Except ε β) :
    (Except.error e >>= f) = .error e := rfl

namespace Os

variable {α β : Type} (t : Tree)

def runFrom (a : Os α) (t : Tree) : Except OsFault α × Tree := Id.run (StateT.run (ExceptT.run a) t)

@[simp] theorem runFrom_pure (x : α) : runFrom (pure x : Os α) t = (.ok x, t) := rfl

@[simp] theorem runFrom_throw (e : OsFault) : runFrom (throw e : Os α) t = (.error e, t) := rfl

@[simp] theorem runFrom_get : runFrom (get : Os Tree) t = (.ok t, t) := rfl

@[simp] theorem runFrom_set (t' : Tree) : runFrom (set t' : Os PUnit) t = (.ok ⟨⟩, t') := rfl

theorem runFrom_bind (a : Os α) (f : α → Os β) :
    runFrom (a >>= f) t =
      match runFrom a t with
      | (.ok x, t') => runFrom (f x) t'
      | (.error e, t') => (.error e, t') := by
  unfold runFrom
  simp only [ExceptT.run_bind, StateT.run_bind]
  generalize StateT.run (ExceptT.run a) t = outcome
  obtain ⟨answer, t'⟩ := outcome
  cases answer <;> rfl

theorem runFrom_tryCatch (a : Os α) (f : OsFault → Os α) :
    runFrom (tryCatch a f) t =
      match runFrom a t with
      | (.ok x, t') => (.ok x, t')
      | (.error e, t') => runFrom (f e) t' := by
  unfold runFrom
  rw [ExceptT.run_tryCatch, StateT.run_bind]
  generalize StateT.run (ExceptT.run a) t = outcome
  obtain ⟨answer, t'⟩ := outcome
  cases answer <;> rfl

@[simp] theorem runFrom_ask (f : Tree → Except OsFault α) : runFrom (ask f) t = (f t, t) := by
  unfold ask
  rw [runFrom_bind, runFrom_get]
  cases hanswer : f t <;> simp [hanswer]

theorem runFrom_perform (c : Call) :
    runFrom (perform c) t =
      match c.exec t with
      | .ok t' => (.ok (), t')
      | .error e => (.error e, t) := by
  unfold perform
  rw [runFrom_bind, runFrom_get]
  cases hanswer : c.exec t <;> simp [hanswer]

theorem runFrom_performAll_of_ok {c : Call} {t' : Tree} (hexec : c.exec t = .ok t')
    (rest : List Call) : runFrom (performAll (c :: rest)) t = runFrom (performAll rest) t' := by
  rw [performAll, runFrom_bind, runFrom_perform, hexec]

theorem runFrom_act (a : Os α) :
    a.act.runFrom t = ((runFrom a t).1.mapError OsFault.toFault, (runFrom a t).2) := by
  unfold act Action.runFrom runFrom
  rw [ExceptT.run_adapt, StateT.run_map]
  generalize StateT.run (ExceptT.run a) t = outcome
  obtain ⟨answer, t'⟩ := outcome
  cases answer <;> rfl

end Os

variable {t t' : Tree} {p q : Place} {name : String} {n : Node} {data content : Bytes}

def Tree.Seated (t : Tree) (p : Place) : Prop :=
  p ≠ [] → t.nodes.get? p.dropLast = some .folder

def Tree.contentAt (t : Tree) (p : Place) : Bytes :=
  match t.nodes.get? p with
  | some (.file content) => content
  | _ => []

namespace Tree.Rooted

theorem seated (h : t.Rooted) (hn : t.nodes.get? p = some n) : t.Seated p := h.above_dropLast hn

theorem exec_makeFolder (h : t.Rooted) (hp : Proper p) (hseat : t.Seated p)
    (hnone : t.nodes.get? p = none) : (Call.makeFolder p).exec t = .ok (t.put p .folder) := by
  have hlocate : t.locate .itself p = .ok p := h.locate_ok hp hseat
  simp only [Call.exec, hlocate, ok_bind, hp.node?, hnone]

theorem exec_makeFolder_there (h : t.Rooted) (hn : t.nodes.get? p = some n) :
    (Call.makeFolder p).exec t = .error .alreadyThere := by
  have hlocate : t.locate .itself p = .ok p := h.locate_of_node hn
  simp only [Call.exec, hlocate, ok_bind, (h.proper p n hn).node?, hn]

theorem exec_makeFolder_absent (h : t.Rooted) (hp : Proper p) (hseat : ¬ t.Seated p)
    (hfree : ¬ t.Blocked p) : (Call.makeFolder p).exec t = .error .noEntry := by
  obtain ⟨hsome, hfolder⟩ := Classical.not_imp.mp hseat
  have hlocate : t.locate .itself p = .error .noEntry :=
    h.locate_absent hp hsome hfolder hfree
  simp only [Call.exec, hlocate, error_bind]

theorem exec_create (h : t.Rooted) (hp : Proper p) (hseat : t.Seated p)
    (hplain : t.nodes.get? p ≠ some .folder) :
    (Call.create p).exec t = .ok (t.put p (.file [])) := by
  have hlocate : t.locate .output p = .ok p := h.locate_ok hp hseat
  simp only [Call.exec, hlocate, ok_bind, hp.node?]

theorem exec_extend (h : t.Rooted) (hp : Proper p) (hseat : t.Seated p)
    (hplain : t.nodes.get? p ≠ some .folder) (data : Bytes) :
    (Call.extend p data).exec t = .ok (t.put p (.file (contentAt t p ++ data))) := by
  have hlocate : t.locate .output p = .ok p := h.locate_ok hp hseat
  simp only [Call.exec, add, hlocate, ok_bind, hp.node?, contentAt]
  cases hnode : t.nodes.get? p with
  | none => rfl
  | some node =>
    cases node with
    | folder => exact absurd hnode hplain
    | file content => rfl
    | link target => rfl

theorem exec_sync (h : t.Rooted) (hn : t.nodes.get? p = some n) : (Call.sync p).exec t = .ok t := by
  have hlocate : t.locate .target p = .ok p := h.locate_of_node hn
  simp only [Call.exec, hlocate, ok_bind, (h.proper p n hn).node?, hn]

theorem exec_rename (h : t.Rooted) (hn : t.nodes.get? q = some n) (hp : Proper p)
    (hseat : t.Seated p) (hplain : t.nodes.get? p ≠ some .folder) :
    (Call.rename q p).exec t = .ok ((t.remove q).put p n) := by
  have hold : t.locate .itself q = .ok q := h.locate_of_node hn
  have hnew : t.locate .itself p = .ok p := h.locate_ok hp hseat
  simp only [Call.exec, hp.hasNul, hold, hnew, ok_bind, (h.proper q n hn).node?, hn, hp.node?,
    Bool.false_eq_true, if_false]

theorem exec_unlink (h : t.Rooted) (hfile : t.nodes.get? p = some (.file content)) :
    (Call.unlink p).exec t = .ok (t.remove p) := by
  have hlocate : t.locate .itself p = .ok p := h.locate_of_node hfile
  simp only [Call.exec, hlocate, ok_bind, (h.proper p _ hfile).node?, hfile]

theorem exec_unlink_absent (h : t.Rooted) (hp : Proper p) (hnone : t.nodes.get? p = none)
    (hfree : ¬ t.Blocked p) : (Call.unlink p).exec t = .error .noEntry := by
  by_cases hseat : t.Seated p
  · have hlocate : t.locate .itself p = .ok p := h.locate_ok hp hseat
    simp only [Call.exec, hlocate, ok_bind, hp.node?, hnone]
  · obtain ⟨hsome, hfolder⟩ := Classical.not_imp.mp hseat
    have hlocate : t.locate .itself p = .error .noEntry :=
    h.locate_absent hp hsome hfolder hfree
    simp only [Call.exec, hlocate, error_bind]

theorem exec_removeFolder (h : t.Rooted) (hfolder : t.nodes.get? p = some .folder) :
    (Call.removeFolder p).exec t =
      if t.children p = [] then .ok (t.remove p) else .error .notEmpty := by
  have hlocate : t.locate .itself p = .ok p := h.locate_of_node hfolder
  simp only [Call.exec, hlocate, ok_bind, (h.proper p _ hfolder).node?, hfolder]

theorem exec_removeTree (h : t.Rooted) (hfolder : t.nodes.get? p = some .folder) :
    (Call.removeTree p).exec t = .ok (t.removeBelow p) := by
  have hlocate : t.locate .itself p = .ok p := h.locate_of_node hfolder
  simp only [Call.exec, hlocate, ok_bind, (h.proper p _ hfolder).node?, hfolder]

end Tree.Rooted

/-- A folder that is there already is left alone. -/
theorem ensureFolder_there (h : t.Rooted) (hfolder : t.nodes.get? p = some .folder) :
    (ensureFolder p).runFrom t = (.ok (), t) := by
  have hask := h.isFolder_eq (h.proper p _ hfolder)
  unfold ensureFolder
  rw [Os.runFrom_tryCatch, Os.runFrom_perform, h.exec_makeFolder_there hfolder]
  simp only [reduceCtorEq, or_self, if_false, Os.runFrom_bind, Os.runFrom_ask, hask, hfolder]
  rfl

theorem ensureFolder_new (h : t.Rooted) (hp : Proper p) (hseat : t.Seated p)
    (hnone : t.nodes.get? p = none) :
    (ensureFolder p).runFrom t = (.ok (), t.put p .folder) := by
  unfold ensureFolder
  rw [Os.runFrom_tryCatch, Os.runFrom_perform, h.exec_makeFolder hp hseat hnone]

theorem ensureFolder_absent (h : t.Rooted) (hp : Proper p) (hseat : ¬ t.Seated p)
    (hfree : ¬ t.Blocked p) : (ensureFolder p).runFrom t = (.error .noEntry, t) := by
  unfold ensureFolder
  rw [Os.runFrom_tryCatch, Os.runFrom_perform, h.exec_makeFolder_absent hp hseat hfree]
  rfl

def Tree.Paved (t t' : Tree) (p : Place) : Prop :=
  t'.Rooted ∧ ∀ q, t'.nodes.get? q = if q <+: p then some .folder else t.nodes.get? q

theorem paved_of_folder (h : t.Rooted) (hfolder : t.nodes.get? p = some .folder) :
    t.Paved t p := by
  refine ⟨h, fun q => ?_⟩
  by_cases hq : q <+: p
  · rw [if_pos hq]
    obtain ⟨rest, rfl⟩ := hq
    cases rest with
    | nil => simpa using hfolder
    | cons first others => exact h.above_append (by simp) hfolder
  · rw [if_neg hq]

theorem Tree.Paved.folder (h : t.Paved t' p) : t'.nodes.get? p = some .folder := by
  rw [h.2, if_pos (List.prefix_refl p)]

/-- One folder more. -/
theorem Tree.Paved.next (h : t.Paved t' p) (hp : Proper (p ++ [name]))
    (hnone : t.nodes.get? (p ++ [name]) = none) :
    (ensureFolder (p ++ [name])).runFrom t' = (.ok (), t'.put (p ++ [name]) .folder) ∧
      t.Paved (t'.put (p ++ [name]) .folder) (p ++ [name]) := by
  have hseat : t'.Seated (p ++ [name]) := by
    intro _
    rw [List.dropLast_concat]
    exact h.folder
  have hnew : t'.nodes.get? (p ++ [name]) = none := by
    have hlonger : ¬ p ++ [name] <+: p := by
      intro hle
      have hlength := hle.length_le
      rw [List.length_append, List.length_singleton] at hlength
      omega
    rw [h.2, if_neg hlonger, hnone]
  refine ⟨ensureFolder_new h.1 hp hseat hnew, h.1.put hp hseat (by simp [hnew]) (by simp), ?_⟩
  intro q
  rw [Tree.get?_put, h.2]
  by_cases hq : q = p ++ [name]
  · simp [hq]
  · simp [hq, List.prefix_concat_iff]

def Tree.Clear (t : Tree) (p : Place) : Prop :=
  ∀ q content, q <+: p → t.nodes.get? q ≠ some (.file content)

theorem Tree.Clear.not_blocked (hclear : t.Clear p) : ¬ t.Blocked p := by
  rintro ⟨q, rest, content, -, rfl, hfile⟩
  exact hclear q content (List.prefix_append q rest) hfile

theorem Tree.Clear.left (hclear : t.Clear (p ++ q)) : t.Clear p :=
  fun r content hr => hclear r content (hr.trans (List.prefix_append p q))

theorem Tree.Clear.cases (hclear : t.Clear p) (h : t.Rooted) :
    t.nodes.get? p = none ∨ t.nodes.get? p = some .folder := by
  cases hnode : t.nodes.get? p with
  | none => exact Or.inl rfl
  | some n =>
    cases n with
    | folder => exact Or.inr rfl
    | link target => exact absurd hnode (h.free p target)
    | file content => exact absurd hnode (hclear p content (List.prefix_refl p))

theorem makeFolders_concat (p : Place) (name : String) :
    makeFolders (p ++ [name]) =
      tryCatch (ensureFolder (p ++ [name])) (fun e => do
        if e ≠ .noEntry then throw e
        makeFolders p
        ensureFolder (p ++ [name])) := by
  unfold makeFolders
  rw [List.reverse_concat, ensureFolders, List.reverse_cons, List.reverse_reverse]

theorem makeFolders_spec (h : t.Rooted) (hp : Proper p) (hclear : t.Clear p) :
    ∃ t', (makeFolders p).runFrom t = (.ok (), t') ∧ t.Paved t' p := by
  induction p using List.reverseRecOn with
  | nil =>
    rcases hclear.cases h with hnone | hfolder
    · have hseat : t.Seated [] := by simp [Tree.Seated]
      refine ⟨_, ensureFolder_new h hp hseat hnone, h.put hp hseat (by simp [hnone]) (by simp), ?_⟩
      intro q
      rw [Tree.get?_put]
      simp
    · exact ⟨t, ensureFolder_there h hfolder, paved_of_folder h hfolder⟩
  | append_singleton init name ih =>
    rw [makeFolders_concat, Os.runFrom_tryCatch]
    rcases hclear.cases h with hnone | hfolder
    · by_cases hseat : t.Seated (init ++ [name])
      · have habove : t.nodes.get? init = some .folder := by
          simpa using hseat (by simp)
        obtain ⟨hrun, hpaved⟩ := (paved_of_folder h habove).next hp hnone
        exact ⟨_, by rw [hrun], hpaved⟩
      · obtain ⟨t₁, hrun₁, hpaved₁⟩ := ih hp.left hclear.left
        obtain ⟨hrun, hpaved⟩ := hpaved₁.next hp hnone
        refine ⟨_, ?_, hpaved⟩
        rw [ensureFolder_absent h hp hseat hclear.not_blocked]
        simp only [ne_eq, not_true_eq_false, if_false, Os.runFrom_bind, hrun₁, hrun]
    · rw [ensureFolder_there h hfolder]
      exact ⟨t, rfl, paved_of_folder h hfolder⟩

/-- No file is on the way, as the search for one finds. -/
theorem fileAbove_go (h : t.Rooted) (above : List Place) (habove : ∀ q ∈ above, Proper q) :
    (fileAbove.go t above = .ok none ∧ ∀ q ∈ above, ∀ content, t.nodes.get? q ≠
      some (.file content)) ∨
      ∃ q ∈ above, ∃ content, t.nodes.get? q = some (.file content) ∧
        fileAbove.go t above = .ok (some q) := by
  induction above with
  | nil => exact Or.inl ⟨rfl, by simp⟩
  | cons q rest ih =>
    by_cases hfile : ∃ content, t.nodes.get? q = some (.file content)
    · obtain ⟨content, hfile⟩ := hfile
      refine Or.inr ⟨q, List.mem_cons_self, content, hfile, ?_⟩
      rw [fileAbove.go, h.isFile_eq_true hfile]
      rfl
    · push Not at hfile
      have hgo : fileAbove.go t (q :: rest) = fileAbove.go t rest := by
        rw [fileAbove.go, h.isFile_eq_false (habove q List.mem_cons_self) hfile]
        rfl
      rw [hgo]
      rcases ih fun r hr => habove r (List.mem_cons_of_mem q hr) with
          ⟨hnone, hall⟩ | ⟨r, hr, hfound⟩
      · refine Or.inl ⟨hnone, fun r hr => ?_⟩
        rcases List.mem_cons.mp hr with rfl | hr
        · exact hfile
        · exact hall r hr
      · exact Or.inr ⟨r, List.mem_cons_of_mem q hr, hfound⟩

/-- The search finds a file just when there is one strictly above, provided the root is none. -/
theorem fileAbove_spec (h : t.Rooted) (hp : Proper p.dropLast)
    (hroot : ∀ content, t.nodes.get? [] ≠ some (.file content)) :
    (fileAbove t p = .ok none ∧ ¬ t.Blocked p) ∨
      (t.Blocked p ∧ ∃ q, fileAbove t p = .ok (some q)) := by
  have hmem : ∀ q, q ∈ ((List.range (p.length - 1)).map fun i => p.take (i + 1)).reverse ↔
      ∃ i, i < p.length - 1 ∧ p.take (i + 1) = q := by
    simp
  have habove : ∀ q ∈ ((List.range (p.length - 1)).map fun i => p.take (i + 1)).reverse,
      Proper q := by
    intro q hq
    obtain ⟨i, hi, rfl⟩ := (hmem q).mp hq
    refine hp.sublist ?_
    rw [List.dropLast_eq_take]
    exact List.take_sublist_take_left (by omega)
  rcases fileAbove_go h _ habove with ⟨hnone, hall⟩ | ⟨q, hq, content, hfile, hfound⟩
  · refine Or.inl ⟨hnone, ?_⟩
    rintro ⟨q, rest, content, hrest, hsplit, hfile⟩
    have hq : q ≠ [] := by
      intro hnil
      exact hroot content (hnil ▸ hfile)
    have hlong := List.length_pos_iff.mpr hq
    have hmore := List.length_pos_iff.mpr hrest
    have hlength : p.length = q.length + rest.length := by rw [hsplit, List.length_append]
    refine hall q ((hmem q).mpr ⟨q.length - 1, by omega, ?_⟩) content hfile
    rw [Nat.sub_add_cancel hlong, hsplit, List.take_left]
  · obtain ⟨i, hi, rfl⟩ := (hmem q).mp hq
    refine Or.inr ⟨⟨p.take (i + 1), p.drop (i + 1), content, ?_, ?_, hfile⟩, _, hfound⟩
    · rw [ne_eq, List.drop_eq_nil_iff]
      omega
    · exact (List.take_append_drop (i + 1) p).symm

structure Tree.Swept (t : Tree) : Prop where
  there : t.nodes.get? [temporaryFolder] = some .folder
  bare : ∀ name, t.nodes.get? [temporaryFolder, name] = none

theorem freshName_eq (h : t.Rooted) (hswept : t.Swept) : freshName t = "0" := by
  have hnone : t.namesIn [temporaryFolder] = [] := by
    rw [h.namesIn_eq hswept.there, Tree.children_eq_nil]
    exact hswept.bare
  unfold freshName
  simp only [hnone]
  decide

theorem proper_temporary : Proper [temporaryFolder, "0"] :=
  ⟨by decide, by decide, by decide, by decide⟩

/-- A text of digits has as many bytes as characters. -/
theorem size_of_digits (cs : List Char) (hdigits : ∀ c ∈ cs, c.isDigit = true) :
    (String.ofList cs).utf8ByteSize = cs.length := by
  induction cs with
  | nil => rfl
  | cons c rest ih =>
    obtain ⟨hc, hrest⟩ := List.forall_mem_cons.mp hdigits
    have hone : c.utf8Size = 1 := by
      rw [Char.utf8Size_eq_one_iff]
      simp only [Char.isDigit, Bool.and_eq_true, decide_eq_true_eq] at hc
      exact UInt32.le_trans hc.2 (by decide)
    have hsplit : String.ofList (c :: rest) = String.singleton c ++ String.ofList rest := by
      rw [← List.singleton_append, String.ofList_append]
      rfl
    rw [hsplit, String.utf8ByteSize_append, String.utf8ByteSize_singleton, hone, ih hrest,
      List.length_cons, Nat.add_comm]

/-- Numbers of at most 128 bits are names that the file system takes. -/
theorem proper_numbered {n : Nat} (hn : n < 2 ^ 128) : Proper [temporaryFolder, toString n] := by
  have hdigits : ∀ c ∈ Nat.toDigits 10 n, c.isDigit = true :=
    fun c => Nat.isDigit_of_mem_toDigits (by decide) (by decide)
  have hsize : (toString n).utf8ByteSize ≤ 39 := by
    refine (size_of_digits _ hdigits).trans_le ?_
    exact (Nat.length_toDigits_le_iff (by decide) (by decide)).mpr (hn.trans (by decide))
  have hchars : (toString n).toList = Nat.toDigits 10 n := String.toList_ofList
  have hother : ∀ c, c.isDigit = false → c ∉ (toString n).toList := by
    intro c hc hmem
    rw [hchars] at hmem
    simp [hdigits c hmem] at hc
  have hdot : ∀ s : String, '.' ∈ s.toList → toString n ≠ s := fun s hs heq =>
    hother '.' (by decide) (heq ▸ hs)
  have hclean : Path.Clean (toString n) := by
    refine ⟨fun hnil => ?_, hother _ (by decide), hdot _ (by decide), hdot _ (by decide)⟩
    rw [hnil] at hchars
    exact Nat.toDigits_ne_nil hchars.symm
  have hboth : ∀ {P : String → Prop}, P temporaryFolder → P (toString n) →
      ∀ name ∈ [temporaryFolder, toString n], P name := fun hfirst hlast =>
    List.forall_mem_cons.mpr ⟨hfirst, List.forall_mem_singleton.mpr hlast⟩
  refine ⟨hboth (by decide) hclean, hboth (by decide) (hsize.trans (by decide)),
    hboth (by decide) (hother _ (by decide)), ?_⟩
  refine decide_eq_false (Nat.not_lt.mpr ?_)
  have hfolder : temporaryFolder.utf8ByteSize = 4 := by decide
  have hlimit : placeLimit = 4000 := rfl
  rw [List.foldr_cons, List.foldr_cons, List.foldr_nil]
  omega

theorem proper_fresh (t : Tree) : Proper [temporaryFolder, freshName t] := by
  unfold freshName
  dsimp only
  generalize t.namesIn [temporaryFolder] = taken
  cases hfound : ((List.range (min (taken.length + 1) (2 ^ 128))).map toString).find?
      fun name => !taken.contains name with
  | none => exact proper_temporary
  | some name =>
    obtain ⟨n, hn, rfl⟩ := List.mem_map.mp (List.mem_of_find?_eq_some hfound)
    exact proper_numbered ((List.mem_range.mp hn).trans_le (Nat.min_le_right _ _))

/-- What a file is filled with stands there, and nothing else has changed. -/
theorem fill_spec (h : t.Rooted) (hp : Proper p) (hseat : t.Seated p)
    (hplain : t.nodes.get? p ≠ some .folder) (data : Bytes) :
    ∃ t', t'.Rooted ∧
      (∀ q, t'.nodes.get? q = if q = p then some (.file data) else t.nodes.get? q) ∧
      ∀ rest, (Os.performAll (.create p :: .extend p data :: rest)).runFrom t =
        (Os.performAll rest).runFrom t' := by
  have hcreate := h.exec_create hp hseat hplain
  have h₁ := h.put (n := .file []) hp hseat hplain (by simp)
  have hat₁ : (t.put p (.file [])).nodes.get? p = some (.file []) := by
    rw [Tree.get?_put, if_pos rfl]
  have hplain₁ : (t.put p (.file [])).nodes.get? p ≠ some .folder := by simp [hat₁]
  have hextend := h₁.exec_extend hp (h₁.seated hat₁) hplain₁ data
  have hcontent : Tree.contentAt (t.put p (.file [])) p = [] := by
    simp [Tree.contentAt, hat₁]
  rw [hcontent, List.nil_append] at hextend
  refine ⟨_, h₁.put (n := .file data) hp (h₁.seated hat₁) hplain₁ (by simp), fun q => ?_,
    fun rest => ?_⟩
  · rw [Tree.get?_put, Tree.get?_put]
    split
    · rfl
    · rfl
  · rw [Os.runFrom_performAll_of_ok t hcreate, Os.runFrom_performAll_of_ok _ hextend]

/-- What one write call takes is stored whole. -/
theorem stored_of_le (hsmall : data.length ≤ writeLimit) : stored data = data :=
  List.take_of_length_le hsmall

/-- The one write call of an overwrite adds what the system takes at a time. -/
theorem Os.performAll_replaceCalls (q p : Place) (data : Bytes) :
    Os.performAll (replaceCalls q p data) =
      Os.performAll [.create q, .extend q (stored data), .sync q, .rename q p] := rfl

theorem head?_of_initial (hq : q <+: p) (hsome : q ≠ []) : q.head? = p.head? := by
  obtain ⟨rest, rfl⟩ := hq
  obtain ⟨first, others, rfl⟩ := List.exists_cons_of_ne_nil hsome
  rfl

theorem Tree.Rooted.leaf_of_file (h : t.Rooted) (hfile : t.nodes.get? p = some (.file content))
    (name : String) : t.nodes.get? (p ++ [name]) = none := by
  cases hchild : t.nodes.get? (p ++ [name]) with
  | none => rfl
  | some n =>
    have hfolder := h.above p name n hchild
    rw [hfile] at hfolder
    simp at hfolder

/-- A file is written by way of a temporary one, which is gone afterwards. -/
theorem overwrite_spec (h : t.Rooted) (hswept : t.Swept) (hp : Proper p) (hseat : t.Seated p)
    (hplain : t.nodes.get? p ≠ some .folder) (hother : p.head? ≠ some temporaryFolder)
    (data : Bytes) :
    ∃ t', (overwrite p data).runFrom t = (.ok (), t') ∧ t'.Rooted ∧
      ∀ q, t'.nodes.get? q = if q = p then some (.file (stored data)) else t.nodes.get? q := by
  have hplain₀ : t.nodes.get? [temporaryFolder, "0"] ≠ some .folder := by simp [hswept.bare]
  obtain ⟨t₁, h₁, hread₁, hfill⟩ :=
    fill_spec h proper_temporary (fun _ => hswept.there) hplain₀ (stored data)
  have hat₁ : t₁.nodes.get? [temporaryFolder, "0"] = some (.file (stored data)) := by
    rw [hread₁, if_pos rfl]
  have hfree : ∀ q, q <+: p → q ≠ [temporaryFolder, "0"] := by
    intro q hq heq
    apply hother
    rw [← head?_of_initial hq (by simp [heq]), heq]
    rfl
  have hseat₁ : t₁.Seated p := by
    intro hsome
    rw [hread₁, if_neg (hfree _ (List.dropLast_prefix p)), hseat hsome]
  have hplain₁ : t₁.nodes.get? p ≠ some .folder := by
    rw [hread₁, if_neg (hfree p (List.prefix_refl p))]
    exact hplain
  have hrename := h₁.exec_rename hat₁ hp hseat₁ hplain₁
  have h₂ := h₁.remove (h₁.leaf_of_file hat₁)
  have hread₂ : ∀ q, (t₁.remove [temporaryFolder, "0"]).nodes.get? q = t.nodes.get? q := by
    intro q
    rw [Tree.get?_remove, hread₁]
    split
    · next hq => rw [hq, hswept.bare]
    · rfl
  refine ⟨_, ?_, h₂.put (n := .file (stored data)) hp ?_ ?_ (by simp), fun q => ?_⟩
  · unfold overwrite
    rw [Os.runFrom_bind, ensureFolder_there h hswept.there]
    dsimp only
    rw [Os.runFrom_bind, Os.runFrom_get]
    dsimp only
    rw [freshName_eq h hswept, Os.runFrom_tryCatch, Os.performAll_replaceCalls, hfill,
      Os.runFrom_performAll_of_ok t₁ (h₁.exec_sync hat₁), Os.runFrom_performAll_of_ok t₁ hrename]
    rfl
  · intro hsome
    rw [hread₂, hseat hsome]
  · rw [hread₂]
    exact hplain
  · rw [Tree.get?_put, hread₂]

end Depot.Storage.Disk
