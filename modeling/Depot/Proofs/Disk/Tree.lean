import Depot.Path
import Depot.Proofs.OrderedMap
import Depot.Storage.Disk.Tree
import Mathlib.Data.List.Induction
import Mathlib.Data.List.Infix
import Mathlib.Data.List.Nodup

/-!
Trees without links. What stands at a place is found by looking the place up, and where
nothing stands the look-up fails in one of two ways: something on the way is a file, or
something on the way is not there.
-/
namespace Depot.Storage.Disk

/-- A place that the file system does not refuse, with names that stand for themselves. -/
structure Proper (p : Place) : Prop where
  clean : ∀ name ∈ p, Path.Clean name
  short : ∀ name ∈ p, name.utf8ByteSize ≤ nameLimit
  noNul : ∀ name ∈ p, '\x00' ∉ name.toList
  near : Tree.isTooLong p = false

namespace Tree

/-- Folders and files alone, each in a folder. The root need not be there. -/
structure Rooted (t : Tree) : Prop where
  above : ∀ p name n, t.nodes.get? (p ++ [name]) = some n → t.nodes.get? p = some .folder
  free : ∀ p target, t.nodes.get? p ≠ some (.link target)
  proper : ∀ p n, t.nodes.get? p = some n → Proper p

def Blocked (t : Tree) (p : Place) : Prop :=
  ∃ q rest content, rest ≠ [] ∧ p = q ++ rest ∧ t.nodes.get? q = some (.file content)

end Tree

variable {t : Tree} {p q here names rest : Place} {name : String} {n : Node} {goal : Tree.Goal}
  {links : Nat}

theorem isTooLong_of_sublist (hsub : q.Sublist p) (hp : Tree.isTooLong p = false) :
    Tree.isTooLong q = false := by
  have hsum : q.foldr (fun name n => name.utf8ByteSize + 1 + n) 0 ≤
      p.foldr (fun name n => name.utf8ByteSize + 1 + n) 0 := by
    clear hp
    induction hsub with
    | slnil => simp
    | cons name _ ih =>
      rw [List.foldr_cons]
      omega
    | cons_cons name _ ih =>
      rw [List.foldr_cons, List.foldr_cons]
      omega
  simp only [Tree.isTooLong, decide_eq_false_iff_not] at hp ⊢
  omega

theorem Proper.sublist (hp : Proper p) (hsub : q.Sublist p) : Proper q where
  clean name hname := hp.clean name (hsub.subset hname)
  short name hname := hp.short name (hsub.subset hname)
  noNul name hname := hp.noNul name (hsub.subset hname)
  near := isTooLong_of_sublist hsub hp.near

theorem Proper.left (hp : Proper (p ++ q)) : Proper p := hp.sublist (List.sublist_append_left p q)

theorem Proper.nil : Proper [] := ⟨by simp, by simp, by simp, by decide⟩

theorem Proper.hasNul (hp : Proper p) : Tree.hasNul p = false := by
  simpa [Tree.hasNul] using hp.noNul

/-- No place with names that stand for themselves leads above the root. -/
theorem node?_of_clean (hclean : ∀ name ∈ p, Path.Clean name) : t.node? p = t.nodes.get? p := by
  unfold Tree.node?
  split
  · next h =>
    obtain ⟨hsome, hup⟩ := h
    obtain ⟨name, hname⟩ := List.exists_mem_of_ne_nil p hsome
    simp only [Tree.reachesUp, List.all_eq_true, decide_eq_true_eq] at hup
    exact absurd (hup name hname) (hclean name hname).2.2.2
  · rfl

theorem Proper.node? (hp : Proper p) : t.node? p = t.nodes.get? p := node?_of_clean hp.clean

namespace Tree.Rooted

theorem above_append (h : t.Rooted) (hrest : rest ≠ []) (hn : t.nodes.get? (q ++ rest) = some n) :
    t.nodes.get? q = some .folder := by
  induction rest using List.reverseRecOn generalizing n with
  | nil => exact absurd rfl hrest
  | append_singleton init last ih =>
    rw [← List.append_assoc] at hn
    have hinit := h.above _ _ _ hn
    cases init with
    | nil => simpa using hinit
    | cons first others => exact ih (by simp) hinit

theorem exists_above (h : t.Rooted) (q rest : Place) (hn : t.nodes.get? (q ++ rest) = some n) :
    ∃ m, t.nodes.get? q = some m := by
  cases rest with
  | nil => exact ⟨n, by simpa using hn⟩
  | cons first others => exact ⟨.folder, h.above_append (by simp) hn⟩

theorem not_blocked (h : t.Rooted) (hn : t.nodes.get? p = some n) : ¬ t.Blocked p := by
  rintro ⟨q, rest, content, hrest, rfl, hfile⟩
  have hfolder := h.above_append hrest hn
  rw [hfile] at hfolder
  simp at hfolder

theorem not_blocked_of_folder (h : t.Rooted) (hfolder : t.nodes.get? p.dropLast = some .folder) :
    ¬ t.Blocked p := by
  rintro ⟨q, rest, content, hrest, rfl, hfile⟩
  rw [List.dropLast_append_of_ne_nil hrest] at hfolder
  cases hinit : rest.dropLast with
  | nil =>
    rw [hinit, List.append_nil, hfile] at hfolder
    simp at hfolder
  | cons first others =>
    have hq := h.above_append (by simp [hinit]) hfolder
    rw [hfile] at hq
    simp at hq

/-- Nothing lies under a file. -/
theorem none_below (h : t.Rooted) {content : Bytes} (hfile : t.nodes.get? q = some (.file content))
    (hsub : q <+: p) (hne : p ≠ q) : t.nodes.get? p = none := by
  obtain ⟨rest, rfl⟩ := hsub
  cases hn : t.nodes.get? (q ++ rest) with
  | none => rfl
  | some n =>
    have hrest : rest ≠ [] := by
      rintro rfl
      simp at hne
    have hfolder := h.above_append hrest hn
    rw [hfile] at hfolder
    simp at hfolder

/-- One name of a look-up. A name that is too long is refused only where its folder is there. -/
theorem walk_clean (h : t.Rooted) (hclean : ∀ part ∈ here ++ name :: rest, Path.Clean part) :
    t.walk goal links here (name :: rest) =
      match t.nodes.get? here with
      | some .folder =>
        if nameLimit < name.utf8ByteSize then .error .nameTooLong
        else
          match t.nodes.get? (here ++ [name]) with
          | none => if rest = [] then .ok (here ++ [name]) else .error .noEntry
          | some _ => t.walk goal links (here ++ [name]) rest
      | some _ => .error .notDirectory
      | none => .error .noEntry := by
  have hhere := node?_of_clean (t := t) fun part hpart => hclean part (List.mem_append_left _ hpart)
  have hnext := node?_of_clean (t := t) (p := here ++ [name]) fun part hpart =>
    hclean part (by
      rw [List.append_cons]
      exact List.mem_append_left _ hpart)
  obtain ⟨hfull, -, hdot, hdots⟩ := hclean name (by simp)
  have hup : name ≠ upward := hdots
  have hending : ¬ (goal = .output ∧ rest ≠ [] ∧ rest.all (· = "")) := by
    rintro ⟨-, hrest, hempty⟩
    obtain ⟨other, hother⟩ := List.exists_mem_of_ne_nil rest hrest
    have hfull := (hclean other (by simp [hother])).1
    exact hfull (by simpa using List.all_eq_true.mp hempty other hother)
  rw [walk, hhere]
  cases hnode : t.nodes.get? here with
  | none => rfl
  | some node =>
    cases node with
    | file content => rfl
    | link target => exact absurd hnode (h.free here target)
    | folder =>
      dsimp only
      rw [if_neg (by simp [hfull, hdot]), if_neg hup, if_neg hending, hnext]
      refine if_congr Iff.rfl rfl ?_
      cases hchild : t.nodes.get? (here ++ [name]) with
      | none => rfl
      | some node =>
        cases node with
        | link target => exact absurd hchild (h.free _ target)
        | file content => rfl
        | folder => rfl

theorem walk_cons (h : t.Rooted) (hp : Proper (here ++ name :: rest)) :
    t.walk goal links here (name :: rest) =
      match t.nodes.get? here with
      | some .folder =>
        match t.nodes.get? (here ++ [name]) with
        | none => if rest = [] then .ok (here ++ [name]) else .error .noEntry
        | some _ => t.walk goal links (here ++ [name]) rest
      | some _ => .error .notDirectory
      | none => .error .noEntry := by
  have hshort : ¬ nameLimit < name.utf8ByteSize := Nat.not_lt.mpr (hp.short name (by simp))
  rw [walk_clean h hp.clean]
  simp only [hshort, if_false]

/-- A place in a folder is found. -/
theorem walk_ok (h : t.Rooted) (hp : Proper (here ++ names))
    (hfolder : names ≠ [] → t.nodes.get? (here ++ names.dropLast) = some .folder) :
    t.walk goal links here names = .ok (here ++ names) := by
  induction names generalizing here with
  | nil => simp [walk]
  | cons name rest ih =>
    have hin := hfolder (by simp)
    have hhere : t.nodes.get? here = some .folder := by
      cases rest with
      | nil => simpa using hin
      | cons next others => exact h.above_append (by simp) hin
    rw [walk_cons h hp, hhere]
    dsimp only
    cases rest with
    | nil =>
      cases t.nodes.get? (here ++ [name]) with
      | none => rfl
      | some node => simp [walk]
    | cons next others =>
      rw [List.dropLast_cons_cons, List.append_cons] at hin
      have hnext : t.nodes.get? (here ++ [name]) = some .folder := by
        cases others with
        | nil => simpa using hin
        | cons last more => exact h.above_append (by simp) hin
      rw [hnext]
      dsimp only
      rw [List.append_cons here name (next :: others)] at hp ⊢
      exact ih hp fun _ => hin

/-- A place under a file is not looked for any further. -/
theorem walk_blocked (h : t.Rooted) (hp : Proper (here ++ names)) {content : Bytes}
    (hrest : rest ≠ []) (hnames : names = q ++ rest)
    (hfile : t.nodes.get? (here ++ q) = some (.file content)) :
    t.walk goal links here names = .error .notDirectory := by
  subst hnames
  induction q generalizing here with
  | nil =>
    obtain ⟨name, others, rfl⟩ := List.exists_cons_of_ne_nil hrest
    rw [List.append_nil] at hfile
    rw [List.nil_append, walk_cons h (by simpa using hp), hfile]
  | cons name others ih =>
    have hhere : t.nodes.get? here = some .folder := h.above_append (by simp) hfile
    rw [List.append_cons] at hfile
    have hnext : ∃ node, t.nodes.get? (here ++ [name]) = some node := by
      cases others with
      | nil => exact ⟨_, by simpa using hfile⟩
      | cons next more => exact ⟨_, h.above_append (by simp) hfile⟩
    obtain ⟨node, hnode⟩ := hnext
    rw [List.cons_append] at hp ⊢
    rw [walk_cons h hp, hhere, hnode]
    dsimp only
    rw [List.append_cons] at hp
    exact ih hfile hp

/-- The names after the first that is not there are not looked at. -/
theorem walk_missing (h : t.Rooted) (hclean : ∀ part ∈ here ++ (q ++ rest), Path.Clean part)
    (hshort : ∀ part ∈ q, part.utf8ByteSize ≤ nameLimit) (hrest : rest ≠ [])
    (hnone : t.nodes.get? (here ++ q) = none)
    (hfree : ∀ r content, r <+: q → t.nodes.get? (here ++ r) ≠ some (.file content)) :
    t.walk goal links here (q ++ rest) = .error .noEntry := by
  induction q generalizing here with
  | nil =>
    obtain ⟨name, others, rfl⟩ := List.exists_cons_of_ne_nil hrest
    rw [List.append_nil] at hnone
    rw [List.nil_append] at hclean ⊢
    rw [walk_clean h hclean, hnone]
  | cons name others ih =>
    rw [List.cons_append] at hclean ⊢
    rw [walk_clean h hclean]
    cases hhere : t.nodes.get? here with
    | none => rfl
    | some node =>
      cases node with
      | link target => exact absurd hhere (h.free _ target)
      | file content => exact absurd (by simpa using hhere) (hfree [] content List.nil_prefix)
      | folder =>
        dsimp only
        rw [if_neg (Nat.not_lt.mpr (hshort name List.mem_cons_self))]
        cases hchild : t.nodes.get? (here ++ [name]) with
        | none => simp [hrest]
        | some node =>
          rw [List.append_cons] at hclean hnone
          refine ih hclean (List.forall_mem_cons.mp hshort).2 hnone fun r content hsub => ?_
          rw [List.append_assoc]
          exact hfree (name :: r) content (List.cons_prefix_cons.mpr ⟨rfl, hsub⟩)

theorem walk_absent (h : t.Rooted) (hp : Proper (here ++ names)) (hnames : names ≠ [])
    (hfolder : t.nodes.get? (here ++ names.dropLast) = none)
    (hfree : ∀ q rest content, rest ≠ [] → names = q ++ rest →
      t.nodes.get? (here ++ q) ≠ some (.file content)) :
    t.walk goal links here names = .error .noEntry := by
  have hsplit := List.dropLast_append_getLast hnames
  rw [← hsplit] at hp ⊢
  refine walk_missing h hp.clean (fun part hpart => hp.short part (by simp [hpart]))
    (by simp) hfolder
    fun r content hsub => ?_
  obtain ⟨more, hmore⟩ := hsub
  refine hfree r (more ++ [names.getLast hnames]) content (by simp) ?_
  rw [← List.append_assoc, hmore, hsplit]

/-- A name that is too long is refused in a folder that is there. -/
theorem walk_overlong (h : t.Rooted) (hclean : ∀ part ∈ here ++ (names ++ [name]), Path.Clean part)
    (hfolder : t.nodes.get? (here ++ names) = some .folder)
    (hlong : nameLimit < name.utf8ByteSize) :
    t.walk goal links here (names ++ [name]) = .error .nameTooLong := by
  induction names generalizing here with
  | nil =>
    rw [List.append_nil] at hfolder
    rw [List.nil_append, walk_clean h (by simpa using hclean), hfolder]
    simp only [hlong, if_true]
  | cons first rest ih =>
    have hproper := h.proper _ _ hfolder
    have hshort := Nat.not_lt.mpr (hproper.short first (by simp))
    have hhere : t.nodes.get? here = some .folder := h.above_append (by simp) hfolder
    rw [List.append_cons] at hfolder
    obtain ⟨node, hnode⟩ := h.exists_above _ _ hfolder
    rw [List.cons_append] at hclean ⊢
    rw [walk_clean h hclean, hhere]
    simp only [hshort, if_false, hnode]
    rw [List.append_cons] at hclean
    exact ih hclean hfolder

theorem locate_ok (h : t.Rooted) (hp : Proper p)
    (hfolder : p ≠ [] → t.nodes.get? p.dropLast = some .folder) : t.locate goal p = .ok p := by
  have hnul : hasNul p = false := hp.hasNul
  rw [locate, hnul, hp.near, walk_ok h (by simpa using hp) (by simpa using hfolder)]
  simp

theorem locate_blocked (h : t.Rooted) (hp : Proper p) (hblocked : t.Blocked p) :
    t.locate goal p = .error .notDirectory := by
  obtain ⟨q, rest, content, hrest, hsplit, hfile⟩ := hblocked
  rw [locate, hp.hasNul, hp.near,
    walk_blocked h (by simpa using hp) hrest hsplit (by simpa using hfile)]
  simp

theorem locate_absent (h : t.Rooted) (hp : Proper p) (hsome : p ≠ [])
    (hfolder : t.nodes.get? p.dropLast ≠ some .folder) (hfree : ¬ t.Blocked p) :
    t.locate goal p = .error .noEntry := by
  have hnone : t.nodes.get? p.dropLast = none := by
    cases hnode : t.nodes.get? p.dropLast with
    | none => rfl
    | some node =>
      cases node with
      | folder => exact absurd hnode hfolder
      | link target => exact absurd hnode (h.free _ target)
      | file content =>
        exact absurd ⟨p.dropLast, [p.getLast hsome], content, by simp,
          (List.dropLast_append_getLast hsome).symm, hnode⟩ hfree
  have hwalk : t.walk goal linkLimit [] p = .error .noEntry := by
    apply walk_absent h (by simpa using hp) hsome (by simpa using hnone)
    intro q rest content hrest hsplit hfile
    exact hfree ⟨q, rest, content, hrest, hsplit, hfile⟩
  rw [locate, hp.hasNul, hp.near, hwalk]
  simp

/-- What stands in the folder of a place that is there. -/
theorem above_dropLast (h : t.Rooted) (hn : t.nodes.get? p = some n) (hsome : p ≠ []) :
    t.nodes.get? p.dropLast = some .folder := by
  rw [← List.dropLast_append_getLast hsome] at hn
  exact h.above _ _ _ hn

theorem locate_of_node (h : t.Rooted) (hn : t.nodes.get? p = some n) : t.locate goal p = .ok p :=
  h.locate_ok (h.proper p n hn) (h.above_dropLast hn)

theorem stat_of_node (h : t.Rooted) (hn : t.nodes.get? p = some n) : t.stat p = .ok n := by
  rw [stat, h.locate_of_node hn]
  dsimp only
  rw [(h.proper p n hn).node?, hn]

theorem stat_of_none (h : t.Rooted) (hp : Proper p) (hnone : t.nodes.get? p = none) :
    t.stat p = .error .noEntry ∨ (t.Blocked p ∧ t.stat p = .error .notDirectory) := by
  unfold stat
  by_cases hblocked : t.Blocked p
  · refine Or.inr ⟨hblocked, ?_⟩
    rw [h.locate_blocked hp hblocked]
  · left
    by_cases hfolder : p ≠ [] → t.nodes.get? p.dropLast = some .folder
    · rw [h.locate_ok hp hfolder]
      dsimp only
      rw [hp.node?, hnone]
    · obtain ⟨hsome, hfolder⟩ := Classical.not_imp.mp hfolder
      rw [h.locate_absent hp hsome hfolder hblocked]

/-- Tests read what stands at the place itself. -/
theorem test_eq (h : t.Rooted) (hp : Proper p) (f : Node → Bool) :
    t.test p f = .ok ((t.nodes.get? p).any f) := by
  unfold test
  cases hnode : t.nodes.get? p with
  | some n =>
    rw [h.stat_of_node hnode]
    rfl
  | none =>
    rcases h.stat_of_none hp hnode with hstat | ⟨-, hstat⟩
    · rw [hstat]
      rfl
    · rw [hstat]
      rfl

theorem isFolder_eq (h : t.Rooted) (hp : Proper p) :
    t.isFolder p = .ok (decide (t.nodes.get? p = some .folder)) := by
  rw [isFolder, h.test_eq hp]
  cases t.nodes.get? p with
  | none => rfl
  | some n => cases n <;> rfl

theorem isFile_eq_true (h : t.Rooted) {content : Bytes}
    (hfile : t.nodes.get? p = some (.file content)) : t.isFile p = .ok true := by
  rw [isFile, h.test_eq (h.proper p _ hfile), hfile]
  rfl

theorem isFile_eq_false (h : t.Rooted) (hp : Proper p)
    (hno : ∀ content, t.nodes.get? p ≠ some (.file content)) : t.isFile p = .ok false := by
  rw [isFile, h.test_eq hp]
  cases hnode : t.nodes.get? p with
  | none => rfl
  | some n =>
    cases n with
    | file content => exact absurd hnode (hno content)
    | folder => rfl
    | link target => rfl

end Tree.Rooted

namespace Tree

theorem get?_put : (t.put p n).nodes.get? q = if q = p then some n else t.nodes.get? q :=
  OrderedMap.get?_insert t.nodes p q n

theorem get?_remove : (t.remove p).nodes.get? q = if q = p then none else t.nodes.get? q :=
  OrderedMap.get?_erase t.nodes p q

theorem get?_removeBelow :
    (t.removeBelow p).nodes.get? q = if p <+: q then none else t.nodes.get? q := by
  rw [removeBelow, OrderedMap.get?_filter_keys]
  simp only [Bool.not_eq_true', ← Bool.not_eq_true, List.isPrefixOf_iff_prefix, ite_not]

/-- Only what is put somewhere and the folder that it is put in are dated. -/
theorem last_put (hne : q ≠ p) (habove : q ≠ above p) :
    (t.put p n).times.last q = t.times.last q :=
  (Times.last_stamp_ne _ habove).trans (Times.last_stamp_ne _ hne)

theorem last_remove (habove : q ≠ above p) : (t.remove p).times.last q = t.times.last q :=
  Times.last_stamp_ne _ habove

theorem last_removeBelow (habove : q ≠ above p) :
    (t.removeBelow p).times.last q = t.times.last q := Times.last_stamp_ne _ habove

theorem eq_of_name
    (hq : (if p.isPrefixOf q ∧ q.length = p.length + 1 then q.getLast? else none) = some name) :
    q = p ++ [name] := by
  split at hq
  · next h =>
    obtain ⟨rest, rfl⟩ := List.isPrefixOf_iff_prefix.mp h.1
    have hlength := h.2
    rw [List.length_append] at hlength
    obtain ⟨last, rfl⟩ := List.length_eq_one_iff.mp (by omega : rest.length = 1)
    rw [List.getLast?_concat, Option.some.injEq] at hq
    rw [hq]
  · simp at hq

theorem mem_names : name ∈ t.names p ↔ ∃ n, t.nodes.get? (p ++ [name]) = some n := by
  simp only [names, List.mem_filterMap, OrderedMap.mem_keys_iff]
  constructor
  · rintro ⟨q, ⟨n, hn⟩, hq⟩
    exact ⟨n, eq_of_name hq ▸ hn⟩
  · rintro ⟨n, hn⟩
    exact ⟨p ++ [name], ⟨n, hn⟩, by simp⟩

theorem names_nodup (t : Tree) (p : Place) : (t.names p).Nodup := by
  unfold names
  refine t.nodes.nodup.filterMap fun q q' name hq hq' => ?_
  rw [eq_of_name hq, eq_of_name hq']

theorem mem_children : name ∈ t.children p ↔ ∃ n, t.nodes.get? (p ++ [name]) = some n := by
  rw [children, List.mem_mergeSort, mem_names]

theorem children_eq_nil : t.children p = [] ↔ ∀ name, t.nodes.get? (p ++ [name]) = none := by
  rw [List.eq_nil_iff_forall_not_mem]
  refine forall_congr' fun name => ?_
  rw [mem_children, Option.eq_none_iff_forall_ne_some, not_exists]

theorem Rooted.namesIn_eq (h : t.Rooted) (hfolder : t.nodes.get? p = some .folder) :
    t.namesIn p = t.children p := by
  rw [namesIn, h.locate_of_node hfolder]

/-- A new file or folder, or a file in place of a file. -/
theorem Rooted.put (h : t.Rooted) (hp : Proper p)
    (hfolder : p ≠ [] → t.nodes.get? p.dropLast = some .folder)
    (hplain : t.nodes.get? p ≠ some .folder) (hn : ∀ target, n ≠ .link target) :
    (t.put p n).Rooted where
  above q name m hm := by
    rw [get?_put] at hm ⊢
    by_cases hq : q = p
    · subst hq
      rw [if_neg (by simp)] at hm
      exact absurd (h.above q name m hm) hplain
    · rw [if_neg hq]
      by_cases hchild : q ++ [name] = p
      · subst hchild
        simpa using hfolder (by simp)
      · rw [if_neg hchild] at hm
        exact h.above q name m hm
  free q target hq := by
    rw [get?_put] at hq
    split at hq
    · exact hn target (Option.some.inj hq)
    · exact h.free q target hq
  proper q m hm := by
    rw [get?_put] at hm
    split at hm
    · next heq => exact heq ▸ hp
    · exact h.proper q m hm

theorem Rooted.remove (h : t.Rooted) (hleaf : ∀ name, t.nodes.get? (p ++ [name]) = none) :
    (t.remove p).Rooted where
  above q name m hm := by
    rw [get?_remove] at hm ⊢
    split at hm
    · simp at hm
    · by_cases hq : q = p
      · subst hq
        rw [hleaf] at hm
        simp at hm
      · rw [if_neg hq]
        exact h.above q name m hm
  free q target hq := by
    rw [get?_remove] at hq
    split at hq
    · simp at hq
    · exact h.free q target hq
  proper q m hm := by
    rw [get?_remove] at hm
    split at hm
    · simp at hm
    · exact h.proper q m hm

theorem Rooted.removeBelow (h : t.Rooted) (p : Place) : (t.removeBelow p).Rooted where
  above q name m hm := by
    rw [get?_removeBelow] at hm ⊢
    split at hm
    · simp at hm
    · next hout =>
      rw [if_neg fun hq => hout (hq.trans (List.prefix_append q [name]))]
      exact h.above q name m hm
  free q target hq := by
    rw [get?_removeBelow] at hq
    split at hq
    · simp at hq
    · exact h.free q target hq
  proper q m hm := by
    rw [get?_removeBelow] at hm
    split at hm
    · simp at hm
    · exact h.proper q m hm

end Tree

end Depot.Storage.Disk
