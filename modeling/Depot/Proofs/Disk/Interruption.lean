import Depot.Proofs.Disk.Litter
import Depot.Proofs.Disk.Upkeep

/-!
Where the operations may fail or be stopped, and what is left there. A write makes folders and
works on a temporary file until this takes the place of the old content in one step; an append
works in the place itself. A delete removes folders bit by bit, a file before its sidecar. New
metadata are written into the sidecar itself.
-/
namespace Depot.Storage.Disk

variable {s t u : Tree} {p q : Place} {path name : String} {content data : Bytes}
  {short : Nat → Prop} {P : Bytes → Prop}

namespace Script

/-! ### Folders -/

/-- A folder is made in one call; a refusal leaves the tree as it was. -/
theorem always_ensureFolder (h : t.Rooted) (hclean : Clean p) :
    (Script.ensureFolder p).Always short t (fun _ u => t.Grown u p) (· = t) (t.Grown · p) := by
  have hrefl : t.Grown t p := .refl h p
  have hcall : (perform (.makeFolder p)).Always short t (fun _ u => t.Grown u p) (· = t)
      (t.Grown · p) := by
    refine always_perform trivial (fun u hexec => ?_) rfl hrefl
    obtain ⟨hp, hseat, hnone, rfl⟩ := h.exec_makeFolder_eq_ok hclean hexec
    exact ⟨.put h hp hseat hnone, .put h hp hseat hnone⟩
  refine hcall.tryCatch fun e u hu => ?_
  subst hu
  refine .ite (fun _ => always_error rfl hrefl) fun _ => ?_
  refine always_ask_bind rfl hrefl fun there _ => ?_
  exact .ite (fun _ => always_error rfl hrefl) fun _ => always_ok hrefl hrefl

theorem makeFolders_concat (p : Place) (name : String) :
    Script.makeFolders (p ++ [name]) =
      tryCatch (Script.ensureFolder (p ++ [name])) (fun e => do
        if e ≠ .noEntry then throw e
        Script.makeFolders p
        Script.ensureFolder (p ++ [name])) := by
  unfold Script.makeFolders
  rw [List.reverse_concat, Script.ensureFolders, List.reverse_cons, List.reverse_reverse]

theorem keeps_makeFolders (h : t.Rooted) (hclean : Clean p) :
    (Script.makeFolders p).Keeps short (t.Grown · p) t := by
  induction p using List.reverseRecOn with
  | nil =>
    refine (always_ensureFolder h hclean).keeps (fun _ _ hu => hu) (fun u hu => ?_) fun _ hu => hu
    exact hu ▸ .refl h []
  | append_singleton init name ih =>
    have hsub : init <+: init ++ [name] := List.prefix_append _ _
    have hrefl : t.Grown t (init ++ [name]) := .refl h _
    have hmore : ∀ u, t.Grown u init → t.Grown u (init ++ [name]) := fun u hu =>
      hu.trans (.refl hu.rooted _) hsub
    have habove : (Script.makeFolders init).Always short t (fun _ u => t.Grown u init)
        (t.Grown · (init ++ [name])) (t.Grown · (init ++ [name])) :=
      (ih hclean.left).mono (fun _ _ hu => hu) hmore hmore
    rw [makeFolders_concat]
    refine (always_ensureFolder h hclean).tryCatch fun e u hu => ?_
    subst hu
    refine .ite (fun _ => always_error hrefl hrefl) fun _ => habove.bind fun _ v hv => ?_
    have hlast : ∀ w, v.Grown w (init ++ [name]) → u.Grown w (init ++ [name]) := fun w hw =>
      hv.trans hw hsub
    refine (always_ensureFolder hv.rooted hclean).keeps (fun _ => hlast) (fun w hw => ?_) hlast
    exact hmore w (hw ▸ hv)

/-! ### Temporary files -/

theorem performAll_cons (c : Call) (rest : List Call) :
    Script.performAll (c :: rest) = perform c >>= fun _ => Script.performAll rest := rfl

section Temporary

variable (htemporary : Proper [temporaryFolder, name])
include htemporary

theorem always_create (h : t.Sound) :
    (perform (.create [temporaryFolder, name])).Always short t (fun _ u => t.Holding name [] u)
      t.Littered t.Littered := by
  refine always_perform trivial (fun u hexec => ?_) (.refl h) (.refl h)
  obtain ⟨-, -, -, rfl⟩ := h.rooted.exec_create_eq_ok htemporary.clean hexec
  have hnew := (Tree.Littered.refl h).holding htemporary []
  exact ⟨hnew, hnew.littered⟩

theorem always_store (h : t.Holding name [] u) :
    (perform (.write [temporaryFolder, name] data)).Always short u
      (fun _ v => ∃ content, Takes short data content ∧ t.Holding name content v)
      t.Littered t.Littered := by
  have hadded : ∀ data v, u.add [temporaryFolder, name] data = .ok v → t.Holding name data v := by
    intro data v hadd
    obtain ⟨-, -, -, rfl⟩ := h.littered.sound.rooted.add_eq_ok htemporary.clean hadd
    have hempty : u.contentAt [temporaryFolder, name] = [] := by simp [Tree.contentAt, h.file]
    rw [hempty, List.nil_append]
    exact h.littered.holding htemporary data
  refine always_write (fun content v htakes hadd => ?_) (fun n v hadd => ?_) h.littered h.littered
  · exact ⟨⟨content, htakes, hadded content v hadd⟩, (hadded content v hadd).littered⟩
  · exact ⟨(hadded _ v hadd).littered, (hadded _ v hadd).littered⟩

omit htemporary in
theorem always_sync (h : t.Holding name content u) :
    (perform (.sync [temporaryFolder, name])).Always short u (fun _ v => t.Holding name content v)
      t.Littered t.Littered := by
  refine always_perform trivial (fun v hexec => ?_) h.littered h.littered
  obtain rfl := Except.ok.inj ((h.littered.sound.rooted.exec_sync h.file).symm.trans hexec)
  exact ⟨h, h.littered⟩

theorem keeps_unlink (h : t.Littered u) :
    (perform (.unlink [temporaryFolder, name])).Keeps short t.Littered u := by
  refine always_perform trivial (fun v hexec => ?_) h h
  obtain ⟨content, hfile, rfl⟩ := h.sound.rooted.exec_unlink_eq_ok htemporary.clean hexec
  exact ⟨h.remove hfile, h.remove hfile⟩

theorem keeps_discardTemporary (h : t.Littered u) :
    (discardTemporary name).Keeps short t.Littered u :=
  (keeps_unlink htemporary h).allowing (fun _ hv => hv) fun _ hv => hv

/-- Up to its renaming an overwrite has to do with the temporary file alone. -/
theorem always_replace (h : t.Sound) (hclean : Clean p)
    (hother : p.head? ≠ some temporaryFolder) :
    (Script.replace [temporaryFolder, name] p data).Always short t
      (fun _ u => t.Replaced short p data u) t.Littered
      (fun u => t.Littered u ∨ t.Replaced short p data u) := by
  have hearly : ∀ {c : Call} {u : Tree} {ok : Unit → Tree → Prop},
      (perform c).Always short u ok t.Littered t.Littered → (perform c).Always short u ok t.Littered
        (fun u => t.Littered u ∨ t.Replaced short p data u) :=
    fun hc => hc.mono (fun _ _ hv => hv) (fun _ hv => hv) fun _ => .inl
  have hcalls : (Script.performAll (replaceCalls [temporaryFolder, name] p data)).Always short t
      (fun _ u => t.Replaced short p data u) t.Littered
      (fun u => t.Littered u ∨ t.Replaced short p data u) := by
    rw [replaceCalls, performAll_cons]
    refine (hearly (always_create htemporary h)).bind fun _ u hu => ?_
    rw [performAll_cons]
    refine (hearly (always_store htemporary hu)).bind fun _ v ⟨content, htakes, hv⟩ => ?_
    rw [performAll_cons]
    refine (hearly (always_sync hv)).bind fun _ w hw => ?_
    rw [performAll_cons]
    have hrename : (perform (.rename [temporaryFolder, name] p)).Always short w
        (fun _ u => t.Replaced short p data u) t.Littered
        (fun u => t.Littered u ∨ t.Replaced short p data u) := by
      refine always_perform trivial (fun x hexec => ?_) hw.littered (.inl hw.littered)
      have hx := hw.renamed hclean hother htakes hexec
      exact ⟨hx, .inr hx⟩
    exact hrename.bind fun _ x hx => always_ok hx (.inr hx)
  refine hcalls.tryCatch fun e u hu => ?_
  have haway : (Script.allowing (fun _ => true) (perform (.unlink [temporaryFolder, name]))).Always
      short u (fun _ => t.Littered) t.Littered
      (fun u => t.Littered u ∨ t.Replaced short p data u) :=
    (hearly (keeps_unlink htemporary hu)).allowing (fun _ hv => hv) fun _ => .inl
  exact haway.bind fun _ v hv => always_error hv (.inl hv)

end Temporary

theorem always_overwrite (h : t.Sound) (hclean : Clean p)
    (hother : p.head? ≠ some temporaryFolder) :
    (Script.overwrite p data).Always short t (fun _ u => t.Replaced short p data u) t.Littered
      (fun u => t.Littered u ∨ t.Replaced short p data u) := by
  have hfolder : (Script.ensureFolder [temporaryFolder]).Always short t (fun _ => t.Littered)
      t.Littered (fun u => t.Littered u ∨ t.Replaced short p data u) :=
    (always_ensureFolder h.rooted (h.rooted.proper _ _ h.there).clean).mono
      (fun _ _ => .of_grown h) (fun _ hu => hu.symm ▸ .refl h) fun _ hu => .inl (.of_grown h hu)
  refine hfolder.bind fun _ u hu => always_ask_bind hu (.inl hu) fun seen _ => ?_
  refine (always_replace (proper_fresh seen) hu.sound hclean hother).mono
    (fun _ _ => hu.replaced hother) (fun _ => hu.trans) fun v hv => ?_
  exact hv.imp hu.trans (hu.replaced hother)

end Script

/-! ### Writes -/

/-- How far a write has come, but for temporary files. What it may have put into the file is
described by `P`. -/
inductive Tree.Towards (s : Tree) (path : String) (P : Bytes → Prop) : Tree → Prop
  | before : Towards s path P s
  | amid {u : Tree} (passes : s.Passes path) (grown : s.Grown u (Path.segments path).dropLast) :
      Towards s path P u
  | after {u : Tree} {content : Bytes} (free : ¬ Reserved path) (filled : P content)
      (written : s.Written u (Path.segments path) content) : Towards s path P u

def Tree.Interrupted (s : Tree) (path : String) (P : Bytes → Prop) (t : Tree) : Prop :=
  ∃ u, s.Towards path P u ∧ u.Littered t

def Tree.Filling (s : Tree) (short : Nat → Prop) (path : String) (data : Bytes) (append : Bool)
    (content : Bytes) : Prop :=
  if append then ∃ n, content = s.contentAt (Path.segments path) ++ data.take n
  else Takes short data content

theorem Tree.Interrupted.mono {P' : Bytes → Prop} (h : s.Interrupted path P t)
    (himp : ∀ content, P content → P' content) : s.Interrupted path P' t := by
  obtain ⟨u, hu, hlittered⟩ := h
  refine ⟨u, ?_, hlittered⟩
  cases hu with
  | before => exact .before
  | amid hpasses hgrown => exact .amid hpasses hgrown
  | after hfree hfilled hwritten => exact .after hfree (himp _ hfilled) hwritten

theorem Tree.Interrupted.sound (h : s.Interrupted path P t) : t.Sound := by
  obtain ⟨u, -, hlittered⟩ := h
  exact hlittered.sound

theorem Tree.Interrupted.start (h : s.Sound) (path : String) (P : Bytes → Prop) :
    s.Interrupted path P s := ⟨s, .before, .refl h⟩

/-- Folders above a place leave the place itself alone. -/
theorem Tree.Grown.beyond (hgrown : t.Grown u p.dropLast) (hsome : p ≠ []) :
    u.nodes.get? p = t.nodes.get? p := by
  cases hold : t.nodes.get? p with
  | some n => exact hgrown.kept p n hold
  | none =>
    rw [Option.eq_none_iff_forall_ne_some]
    intro n hn
    rcases hgrown.new p n hn with hthere | ⟨-, hsub⟩
    · simp [hold] at hthere
    · exact absurd hsub (not_prefix_dropLast hsome)

namespace Tree.Towards

/-- Files elsewhere are as they were. -/
theorem file_iff (h : s.Towards path P u) (hq : ¬ Reserved path → q ≠ Path.segments path) :
    u.nodes.get? q = some (.file content) ↔ s.nodes.get? q = some (.file content) := by
  cases h with
  | before => rfl
  | amid hpasses hgrown =>
    exact ⟨fun hfile => (hgrown.new q _ hfile).resolve_right (by simp), hgrown.kept q _⟩
  | after hfree _ hwritten =>
    have hne := hq hfree
    rw [hwritten.read, if_neg hne]
    split
    · next hsub =>
      refine iff_of_false (by simp) fun hfile => ?_
      obtain ⟨rest, hrest⟩ := hsub
      exact hwritten.free ⟨q, rest, content, fun hnil => hne (by simpa [hnil] using hrest),
        hrest.symm, hfile⟩
    · rfl

/-- The file itself has its old content or what the write has stored. -/
theorem file_at (h : s.Towards path P u) :
    (¬ Reserved path ∧ ∃ content, P content ∧
      u.nodes.get? (Path.segments path) = some (.file content)) ∨
      ∀ content, u.nodes.get? (Path.segments path) = some (.file content) ↔
        s.nodes.get? (Path.segments path) = some (.file content) := by
  cases h with
  | before => exact Or.inr fun _ => Iff.rfl
  | amid hpasses hgrown =>
    exact Or.inr fun content =>
      ⟨fun hfile => (hgrown.new _ _ hfile).resolve_right (by simp), hgrown.kept _ _⟩
  | after hfree hfilled hwritten =>
    exact Or.inl ⟨hfree, _, hfilled, by rw [hwritten.read, if_pos rfl]⟩

/-- The only folders that are new are those above the file. -/
theorem folder_of (h : s.Towards path P u) (hfolder : u.nodes.get? q = some .folder) :
    s.nodes.get? q = some .folder ∨ ¬ Reserved path ∧ q <+: (Path.segments path).dropLast := by
  cases h with
  | before => exact Or.inl hfolder
  | amid hpasses hgrown =>
    exact (hgrown.new q _ hfolder).imp_right fun hnew => ⟨hpasses.free, hnew.2⟩
  | after hfree _ hwritten =>
    rw [hwritten.read] at hfolder
    split at hfolder
    · simp at hfolder
    · next hne =>
      split at hfolder
      · next hsub =>
        exact Or.inr ⟨hfree, prefix_dropLast hsub
          (hsub.length_le.lt_of_ne fun hlength => hne (hsub.eq_of_length hlength))⟩
      · exact Or.inl hfolder

theorem folder_kept (h : s.Towards path P u) (hfolder : s.nodes.get? q = some .folder) :
    u.nodes.get? q = some .folder := by
  cases h with
  | before => exact hfolder
  | amid hpasses hgrown => exact hgrown.kept q _ hfolder
  | after hfree _ hwritten =>
    have hne : q ≠ Path.segments path := by
      rintro rfl
      exact hwritten.plain hfolder
    rw [hwritten.read, if_neg hne, hfolder, ite_self]

end Tree.Towards

namespace Tree.Interrupted

/-- What stands where no temporary file can be is the same but for what the write has done. -/
theorem file_iff (ht : s.Interrupted path P t) (hother : q.head? ≠ some temporaryFolder)
    (hq : ¬ Reserved path → q ≠ Path.segments path) :
    t.nodes.get? q = some (.file content) ↔ s.nodes.get? q = some (.file content) := by
  obtain ⟨u, hu, hlittered⟩ := ht
  rw [hlittered.node_eq hother]
  exact hu.file_iff hq

theorem file_at (ht : s.Interrupted path P t) (hfree : ¬ Reserved path) :
    (∃ content, P content ∧ t.nodes.get? (Path.segments path) = some (.file content)) ∨
      ∀ content, t.nodes.get? (Path.segments path) = some (.file content) ↔
        s.nodes.get? (Path.segments path) = some (.file content) := by
  obtain ⟨u, hu, hlittered⟩ := ht
  rw [hlittered.node_eq (not_or.mp hfree).1]
  exact hu.file_at.imp_left And.right

/-- A file that was there is there still, with one content or another. -/
theorem file_kept (ht : s.Interrupted path P t) {q : Place}
    (hother : q.head? ≠ some temporaryFolder) (hfile : s.nodes.get? q = some (.file content)) :
    ∃ content', t.nodes.get? q = some (.file content') := by
  by_cases hown : Reserved path ∨ q ≠ Path.segments path
  · exact ⟨content, (ht.file_iff hother fun hfree => hown.resolve_left hfree).mpr hfile⟩
  · obtain ⟨hfree, heq⟩ := not_or.mp hown
    obtain rfl := not_not.mp heq
    rcases ht.file_at hfree with ⟨content', -, hnew⟩ | hsame
    · exact ⟨content', hnew⟩
    · exact ⟨content, (hsame content).mpr hfile⟩

end Tree.Interrupted

namespace Script

/-- What comes once the folders have been made. -/
theorem always_fill (hpasses : s.Passes path) (h : u.Sound)
    (hgrown : s.Grown u (Path.segments path).dropLast) (append : Bool) :
    (Script.fill (Path.segments path) data append).Always short u
      (fun _ => s.Interrupted path (s.Filling short path data append))
      (s.Interrupted path fun content => append = true ∧ s.Filling short path data append content)
      (s.Interrupted path (s.Filling short path data append)) := by
  have hclean := clean_segments path
  have hamid : ∀ P t, u.Littered t → s.Interrupted path P t := fun P t ht =>
    ⟨u, .amid hpasses hgrown, ht⟩
  cases append with
  | true =>
    have hadded : ∀ part n t, part = data.take n → u.add (Path.segments path) part = .ok t →
        ∀ P : Bytes → Prop, P (s.contentAt (Path.segments path) ++ part) →
          s.Interrupted path P t := by
      intro part n t hpart hadd P hP
      obtain ⟨hp, hseat, hplain, rfl⟩ := hgrown.rooted.add_eq_ok hclean hadd
      have hsame : u.contentAt (Path.segments path) = s.contentAt (Path.segments path) := by
        rw [Tree.contentAt, Tree.contentAt, hgrown.beyond hpasses.named]
      exact ⟨_, .after hpasses.free (hsame ▸ hP) (hgrown.written hpasses.named hp hseat hplain _),
        .refl (h.put_file hp hseat hplain _)⟩
    have hwhole : data = data.take data.length := List.take_length.symm
    refine always_extend (fun t hadd => ?_) (fun n t hadd => ?_) (hamid _ u (.refl h))
      (hamid _ u (.refl h))
    · have ht := hadded data _ t hwhole hadd (s.Filling short path data true) ⟨_, by rw [← hwhole]⟩
      exact ⟨ht, ht⟩
    · exact ⟨hadded _ n t rfl hadd _ ⟨rfl, n, rfl⟩, hadded _ n t rfl hadd _ ⟨n, rfl⟩⟩
  | false =>
    have hdone : ∀ t, u.Replaced short (Path.segments path) data t →
        s.Interrupted path (s.Filling short path data false) t := by
      rintro t ⟨content, htakes, hp, hseat, hplain, ht⟩
      exact ⟨_, .after hpasses.free htakes (hgrown.written hpasses.named hp hseat hplain _), ht⟩
    refine (always_overwrite h hclean (not_or.mp hpasses.free).1).mono (fun _ => hdone) (hamid _)
      fun t ht => ht.elim (hamid _ t) (hdone t)

/-- A write that fails has made folders and a temporary file at most, but an append may have added
a first part of its data. One that is stopped may be done as well. -/
theorem interrupted_write (h : s.Sound) (path : String) (data : Bytes) (append : Bool) :
    (Script.write path data append).Always short s
      (fun _ => s.Interrupted path (s.Filling short path data append))
      (s.Interrupted path fun content => append = true ∧ s.Filling short path data append content)
      (s.Interrupted path (s.Filling short path data append)) := by
  have hstart := Tree.Interrupted.start h path
  unfold Script.write
  refine .ite (fun _ => always_error (hstart _) (hstart _)) fun hroot => ?_
  by_cases hfree : Reserved path
  · rw [place?_reserved hfree]
    exact always_error (hstart _) (hstart _)
  rw [place?_free hfree]
  refine always_adapt_ask_bind (hstart _) (hstart _) fun there hthere => ?_
  refine .ite (fun _ => always_error (hstart _) (hstart _)) fun hplain => ?_
  refine always_adapt_ask_bind (hstart _) (hstart _) fun above habove => ?_
  cases above with
  | some q => exact always_error (hstart _) (hstart _)
  | none =>
    have hpasses : s.Passes path := by
      refine ⟨hfree, fun hnil => hroot (by simp [Path.isRoot, hnil]), ?_, habove⟩
      rw [hthere, (Bool.not_eq_true _).mp hplain]
    have hsound : ∀ u, s.Grown u (Path.segments path).dropLast → u.Sound := fun u hu =>
      h.grown hu (not_prefix_temporary (head?_dropLast_ne (not_or.mp hfree).1))
    have hamid : ∀ P u, s.Grown u (Path.segments path).dropLast → s.Interrupted path P u :=
      fun P u hu => ⟨u, .amid hpasses hu, .refl (hsound u hu)⟩
    refine Always.bind (.adapt ((keeps_makeFolders h.rooted (clean_segments path).dropLast).mono
      (fun _ _ hu => hu) (hamid _) (hamid _)) _) fun _ u hu => ?_
    exact (always_fill hpasses (hsound u hu) hu append).adapt _

end Script

/-! ### Deletes -/

namespace Script

theorem taken_unlink (h : s.Sound) (hclean : Clean p) :
    (perform (.unlink p)).Keeps short (s.Taken p) s := by
  refine always_perform trivial (fun u hexec => ?_) (.refl h p) (.refl h p)
  obtain ⟨content, hfile, rfl⟩ := h.rooted.exec_unlink_eq_ok hclean hexec
  exact ⟨.remove_file h hfile, .remove_file h hfile⟩

theorem taken_removeTree (h : s.Sound) (hclean : Clean p) (hsome : p ≠ [])
    (hother : p.head? ≠ some temporaryFolder) :
    (perform (.removeTree p)).Keeps short (s.Taken p) s := by
  refine always_removeTree (fun u hexec => ?_) (fun q u hthere hpart => ?_) (.refl h p) (.refl h p)
  · obtain ⟨-, rfl⟩ := h.rooted.exec_removeTree_eq_ok hclean hexec
    exact ⟨.removeBelow hsome hother h, .removeBelow hsome hother h⟩
  · obtain ⟨rfl, -, -⟩ := h.rooted.locate_eq_ok hclean hthere
    exact ⟨.emptied hsome hother h hpart, .emptied hsome hother h hpart⟩

/-- Folders are pruned until one cannot be removed, which is no failure. -/
theorem sound_prune {error : Tree → Prop} (h : t.Sound) (hclean : Clean p)
    (hother : p.head? ≠ some temporaryFolder) :
    (Script.prune p.reverse).Always short t (fun _ => Tree.Sound) error Tree.Sound := by
  induction p using List.reverseRecOn generalizing t error with
  | nil => exact always_ok h h
  | append_singleton init name ih =>
    have hinit : init.head? ≠ some temporaryFolder := by
      cases init with
      | nil => simp
      | cons first rest => exact hother
    have hcall : (perform (.removeFolder (init ++ [name]))).Keeps short Tree.Sound t := by
      refine always_perform trivial (fun u hexec => ?_) h h
      obtain ⟨-, hempty, rfl⟩ := h.rooted.exec_removeFolder_eq_ok hclean hexec
      have hleft := h.remove (Tree.children_eq_nil.mp hempty) (by simp)
        fun heq => hother (heq ▸ rfl)
      exact ⟨hleft, hleft⟩
    have hbody : (do
        perform (.removeFolder (init ++ [name]))
        Script.prune init.reverse).Keeps short Tree.Sound t :=
      Always.bind hcall fun _ u hu => ih hu hclean.left hinit
    rw [List.reverse_concat, Script.prune, List.reverse_cons, List.reverse_reverse]
    exact Always.tryCatch hbody fun _ u hu => always_ok hu hu

/-- The sidecar goes after its file, and then the folders that are left empty. -/
theorem taken_detach {r : Except OsFault Unit} (h : s.Taken p t) (hclean : Clean p)
    (hsome : p ≠ []) (hother : p.head? ≠ some temporaryFolder) :
    (Script.detach p r).Always short t (fun _ => Tree.Sound) (s.Taken p) Tree.Sound := by
  match r with
  | .error .noEntry => exact always_ok h.sound h.sound
  | .error .alreadyThere | .error .notDirectory | .error .isDirectory | .error .notEmpty
  | .error .nameTooLong | .error .tooManyLinks | .error .linkRefused | .error .nulByte
  | .error .outOfOrder => exact always_error h h.sound
  | .ok () =>
    have hcall : (perform (.unlink (sidecar p))).Always short t (fun _ => Tree.Sound) (s.Taken p)
        Tree.Sound := by
      refine always_perform trivial (fun u hexec => ?_) h h.sound
      obtain ⟨content, hfile, rfl⟩ :=
        h.sound.rooted.exec_unlink_eq_ok (clean_sidecar hclean hsome) hexec
      exact ⟨h.sound.remove_file hfile, h.sound.remove_file hfile⟩
    refine (hcall.allowing (fun _ hu => hu.sound) fun _ hu => hu.sound).bind fun _ u hu => ?_
    exact sound_prune hu hclean.dropLast (head?_dropLast_ne hother)

theorem always_of_taken {a : Script OsFault Unit} (h : a.Keeps short (s.Taken p) t) :
    a.Always short t (fun _ => Tree.Sound) (s.Taken p) Tree.Sound :=
  h.mono (fun _ _ hu => hu.sound) (fun _ hu => hu) fun _ hu => hu.sound

theorem taken_clear (h : s.Sound) : Script.clear.Keeps short (s.Taken []) s := by
  refine always_ask_bind (.refl h []) (.refl h []) fun seen hseen => ?_
  obtain rfl := Except.ok.inj hseen
  refine Keeps.forM (fun name hname u hu => ?_) (.refl h [])
  obtain ⟨hthere, hother⟩ := List.mem_filter.mp hname
  obtain ⟨n, hn⟩ := Tree.mem_names.mp hthere
  have hclean : Clean [name] := (h.rooted.proper _ n hn).clean
  have hhead : [name].head? ≠ some temporaryFolder := by simpa using hother
  have hmore : ∀ v, u.Taken [name] v → s.Taken [] v := fun v hv => hu.trans (q := [name]) hv
  refine always_ask_bind hu hu fun there _ => .ite (fun _ => ?_) fun _ => ?_
  · exact Always.keeps (taken_removeTree hu.sound hclean (by simp) hhead)
      (fun _ => hmore) hmore hmore
  · exact Always.keeps (taken_unlink hu.sound hclean) (fun _ => hmore) hmore hmore

/-- A delete that fails has taken nothing away but what is at its path or below it. -/
theorem taken_delete (h : s.Sound) (path : String) :
    (Script.delete path).Always short s (fun _ => Tree.Sound)
      (fun u => s.Taken (Path.segments path) u ∧ (Reserved path → u = s)) Tree.Sound := by
  have hrefl := Tree.Taken.refl h (Path.segments path)
  have hclean := clean_segments path
  unfold Script.delete
  by_cases hreserved : Reserved path
  · rw [place?_reserved hreserved]
    exact always_error ⟨hrefl, fun _ => rfl⟩ h
  rw [place?_free hreserved]
  have hother := (not_or.mp hreserved).1
  suffices hremoves : (Script.removePlace (Path.segments path)).Always short s
      (fun _ => Tree.Sound) (s.Taken (Path.segments path)) Tree.Sound from
    (hremoves.mono (fun _ _ hu => hu) (fun _ hu => ⟨hu, fun h => absurd h hreserved⟩)
      fun _ hu => hu).adapt _
  refine always_ask_bind hrefl h fun there hthere => ?_
  refine .ite (fun _ => .ite (fun hroot => ?_) fun hsome => ?_) fun hplain => ?_
  · rw [hroot]
    exact always_of_taken (taken_clear h)
  · refine (always_of_taken (taken_removeTree h hclean hsome hother)).bind fun _ u hu => ?_
    exact sound_prune hu hclean.dropLast (head?_dropLast_ne hother)
  · have hsome : Path.segments path ≠ [] := fun hroot => by
      rw [hroot, (h.rooted.isFolder_iff (by simp [Clean])).mpr h.root] at hthere
      exact hplain (Except.ok.inj hthere).symm
    refine always_atOnce trivial h (fun u hexec => ?_) fun e =>
      taken_detach hrefl hclean hsome hother
    obtain ⟨content, hfile, rfl⟩ := h.rooted.exec_unlink_eq_ok hclean hexec
    exact taken_detach (r := .ok ()) (.remove_file h hfile) hclean hsome hother

end Script

/-! ### Metadata and opening -/

inductive Tree.Scribbled (s : Tree) (path : String) (m : Texts) : Tree → Prop
  | before : Scribbled s path m s
  | amid {t : Tree} (n : Nat) (free : ¬ Reserved path)
      (file : ∃ content, s.nodes.get? (Path.segments path) = some (.file content))
      (plain : s.nodes.get? (sidecar (Path.segments path)) ≠ some .folder) (sound : t.Sound)
      (read : ∀ q, t.nodes.get? q = if q = sidecar (Path.segments path) then
        some (.file ((Bytes.utf8 (Json.ofTexts m).render).take n)) else s.nodes.get? q) :
      Scribbled s path m t

theorem Tree.Scribbled.sound {m : Texts} (h : s.Scribbled path m t) (hs : s.Sound) : t.Sound := by
  cases h with
  | before => exact hs
  | amid n hfree hfile hplain hsound hread => exact hsound

namespace Script

/-- As the text of the metadata is stored, some first part of it is in the new sidecar. -/
theorem scribbled_extend {m : Texts} (hclean : Clean (sidecar (Path.segments path)))
    (hu : u.Sound)
    (hread : u.nodes.get? (sidecar (Path.segments path)) = some (.file []))
    (hpart : ∀ n t, t.Sound → (∀ q, t.nodes.get? q = if q = sidecar (Path.segments path) then
      some (.file ((Bytes.utf8 (Json.ofTexts m).render).take n)) else u.nodes.get? q) →
        s.Scribbled path m t) :
    (perform (.extend (sidecar (Path.segments path))
      (Bytes.utf8 (Json.ofTexts m).render))).Keeps short (s.Scribbled path m) u := by
  generalize sidecar (Path.segments path) = d at hclean hread hpart ⊢
  generalize Bytes.utf8 (Json.ofTexts m).render = text at hpart ⊢
  have hadded : ∀ n v, u.add d (text.take n) = .ok v → s.Scribbled path m v := by
    intro n v hadd
    obtain ⟨hp, hseat, hplain, rfl⟩ := hu.rooted.add_eq_ok hclean hadd
    have hempty : u.contentAt d = [] := by simp [Tree.contentAt, hread]
    rw [hempty, List.nil_append]
    exact hpart n _ (hu.put_file hp hseat hplain _) fun q => Tree.get?_put
  have hbegun : s.Scribbled path m u := by
    refine hpart 0 u hu fun q => ?_
    split
    · next heq => rw [heq, hread, List.take_zero]
    · rfl
  refine always_extend (fun v hadd => ?_) (fun n v hadd => ?_) hbegun hbegun
  · rw [← List.take_length (l := text)] at hadd
    exact ⟨hadded _ v hadd, hadded _ v hadd⟩
  · exact ⟨hadded n v hadd, hadded n v hadd⟩

theorem scribbled_setMetadata (h : s.Sound) (path : String) (m : Texts) :
    (Script.setMetadata path m).Keeps short (s.Scribbled path m) s := by
  have hstart : s.Scribbled path m s := .before
  have hclean := clean_segments path
  unfold Script.setMetadata
  by_cases hfree : Reserved path
  · rw [place?_reserved hfree]
    exact always_error hstart hstart
  rw [place?_free hfree]
  refine always_adapt_ask_bind hstart hstart fun there hthere => ?_
  refine .ite (fun hheld => ?_) fun _ => always_error hstart hstart
  rw [hheld] at hthere
  have hfile := (h.rooted.isFile_iff hclean).mp hthere
  have hsome : Path.segments path ≠ [] := fun hroot => by
    obtain ⟨content, hfile⟩ := hfile
    simp [hroot, h.root] at hfile
  have hsidecar := clean_sidecar hclean hsome
  have hcreate : (perform (.create (sidecar (Path.segments path)))).Always short s
      (fun _ u => s.nodes.get? (sidecar (Path.segments path)) ≠ some .folder ∧ u.Sound ∧
        ∀ q, u.nodes.get? q =
          if q = sidecar (Path.segments path) then some (.file []) else s.nodes.get? q)
      (s.Scribbled path m) (s.Scribbled path m) := by
    refine always_perform trivial (fun u hexec => ?_) hstart hstart
    obtain ⟨hp, hseat, hplain, rfl⟩ := h.rooted.exec_create_eq_ok hsidecar hexec
    have hsound := h.put_file hp hseat hplain []
    exact ⟨⟨hplain, hsound, fun q => Tree.get?_put⟩,
      .amid 0 hfree hfile hplain hsound fun q => Tree.get?_put⟩
  refine Always.adapt (hcreate.bind fun _ u hcreated => ?_) _
  obtain ⟨hold, hu, hread⟩ := hcreated
  have hextend : (perform (.extend (sidecar (Path.segments path)) _)).Keeps short
      (s.Scribbled path m) u :=
    scribbled_extend hsidecar hu (by rw [hread, if_pos rfl]) fun n t ht hthen =>
      .amid n hfree hfile hold ht fun q => by
        rw [hthen, hread]
        split <;> rfl
  exact Always.bind hextend fun _ v hv => always_ok hv hv

/-- Opening a store does away with temporary files, as far as it comes. -/
theorem littered_init (h : s.Sound) : Script.init.Keeps short s.Littered s := by
  have hclean := (h.rooted.proper _ _ h.there).clean
  have hfolders : (Script.makeFolders [temporaryFolder]).Keeps short s.Littered s :=
    (keeps_makeFolders h.rooted hclean).keeps (fun _ _ => .of_grown h) (fun _ => .of_grown h)
      fun _ => .of_grown h
  refine Always.bind (hfolders.adapt _) fun _ u hu => Always.adapt ?_ _
  refine always_ask_bind hu hu fun seen hseen => Keeps.forM (fun name hname v hv => ?_) hu
  obtain rfl := Except.ok.inj hseen
  rw [hu.sound.rooted.namesIn_eq hu.sound.there] at hname
  obtain ⟨n, hn⟩ := Tree.mem_children.mp hname
  exact keeps_discardTemporary (hu.sound.rooted.proper _ n hn) hv

/-- Whatever becomes of an operation, the tree stays sound. -/
theorem sound_edit (h : s.Sound) (edit : Edit) : (Script.ofEdit edit).Keeps short Tree.Sound s := by
  cases edit with
  | write path data append =>
    exact (interrupted_write h path data append).keeps (fun _ _ hu => hu.sound)
      (fun _ hu => hu.sound) fun _ hu => hu.sound
  | delete path =>
    exact (taken_delete h path).keeps (fun _ _ hu => hu) (fun _ hu => hu.1.sound) fun _ hu => hu
  | setMetadata path m =>
    exact (scribbled_setMetadata h path m).keeps (fun _ _ hu => hu.sound h) (fun _ hu => hu.sound h)
      fun _ hu => hu.sound h

end Script

/-! ### What a store can come to -/

def reopened (t : Tree) : Tree := (backend.init.runFrom t).2

/-- The states of a store that has been opened in `t`. Any operation may fail half-way or be
stopped, opening it again included. -/
inductive Weathered (short : Nat → Prop) (t : Tree) : Tree → Prop
  | opened : Weathered short t (reopened t)
  | edited {s s' : Tree} {ending : Ending Fault Unit} (edit : Edit) (h : Weathered short t s)
      (ends : (Script.ofEdit edit).Ends short s ending s') : Weathered short t s'
  | again {s s' : Tree} {ending : Ending Fault Unit} (h : Weathered short t s)
      (ends : Script.init.Ends short s ending s') : Weathered short t s'

theorem Script.Keeps.ends {ε α : Type} {P : Tree → Prop} {a : Script ε α} {ending : Ending ε α}
    (h : a.Keeps short P t) (hends : a.Ends short t ending u) : P u := by
  have hu := h ending u hends
  match ending with
  | .answered (.ok _) => exact hu
  | .answered (.error _) => exact hu
  | .stopped => exact hu

theorem Weathered.sound (h : Weathered short t s) (hfresh : t.Untouched) : s.Sound := by
  induction h with
  | opened => exact (orderly_init hfresh).sound
  | edited edit _ hends ih => exact (Script.sound_edit ih edit).ends hends
  | again _ hends ih => exact ((Script.littered_init ih).ends hends).sound

/-- An operation in which nothing goes wrong is among those that count. -/
theorem Weathered.edit (h : Weathered short t s) (edit : Edit) :
    Weathered short t ((edit.act backend).runFrom s).2 := by
  have hends : (Script.ofEdit edit).Ends short s _ _ := Script.ends_fair _ s
  rw [Script.Spells.ofEdit edit s] at hends
  exact .edited edit h hends

theorem Weathered.after (h : Weathered short t s) (changes : List Change) :
    Weathered short t (after backend s changes) :=
  after_induction (fun c _ h => c.preserves (fun _ p data append h _ _ =>
    h.edit (.write p data append))
    (fun _ p h _ => h.edit (.delete p)) (fun _ p m h _ _ => h.edit (.setMetadata p m)) h) changes h

end Depot.Storage.Disk
