import Depot.Proofs.Memory.Layout
import Depot.Listing.Traversal
import Mathlib.Data.List.Nodup
import Mathlib.Data.Nat.Init

/-!
What a tidy table shows of a folder: the folders under it that some file lies in, and the
files under it that match, either of the whole subtree or of one level.
-/
namespace Depot

/-- Each step of a traversal that never fails. -/
theorem mapM_eq_ok {α β : Type} {g : α → Except Fault β} {h : α → β} {l : List α}
    (hg : ∀ x ∈ l, g x = .ok (h x)) : l.mapM g = .ok (l.map h) := by
  induction l with
  | nil => rfl
  | cons x rest ih =>
    rw [List.mapM_cons, hg x List.mem_cons_self, ih fun y hy => hg y (List.mem_cons_of_mem _ hy)]
    rfl

theorem nodup_eraseDups (l : List String) : l.eraseDups.Nodup := by
  induction hlength : l.length using Nat.strong_induction_on generalizing l with
  | h n ih =>
    cases l with
    | nil => simp
    | cons x rest =>
      rw [List.eraseDups_cons, List.nodup_cons]
      refine ⟨?_, ih _ ?_ _ rfl⟩
      · simp [List.mem_eraseDups]
      · have hle := List.length_filter_le (fun y => !y == x) rest
        simp only [List.length_cons] at hlength
        omega

namespace Storage.Memory.Table

variable {t : Table} {path k q : String} {f : Stored} {hierarchical whole : Bool}
  {o : Listing.Options} {es : List Entry} {e : Entry}

def shown (t : Table) (k : String) (f : Stored) (withMetadata : Bool) : Entry :=
  .make .file k (some f.content.length) true
    (OrderedMap.empty.insert "md5" (Digest.md5 f.content))
    (if withMetadata then f.metadata else .empty) (t.times.last k)

theorem entryOf_of_texts (htexts : ∃ m : Texts, f.metadata = .ofTexts m) (withMetadata : Bool) :
    t.entryOf k f withMetadata = .ok (t.shown k f withMetadata) := by
  obtain ⟨m, hm⟩ := htexts
  cases withMetadata with
  | false => rfl
  | true =>
    simp only [entryOf, shown, if_true, hm]
    rfl

theorem entryOf_eq (h : t.Tidy) (hf : t.files.get? k = some f) (withMetadata : Bool) :
    t.entryOf k f withMetadata = .ok (t.shown k f withMetadata) :=
  entryOf_of_texts (h.texts k f hf) withMetadata

theorem entry?_eq (h : t.Tidy) (k : String) :
    entry? t k = .ok ((t.files.get? k).map fun f => t.shown k f true) := by
  unfold entry?
  cases hf : t.files.get? k with
  | none => rfl
  | some f =>
    rw [Option.mapM_some, entryOf_eq h hf]
    rfl

theorem mem_foldersBetween {depth : Nat} :
    q ∈ foldersBetween whole depth k ↔
      ∃ n, depth < n ∧ n < (Path.segments k).length ∧ (whole = true ∨ n = depth + 1) ∧
        Path.upTo n k = q := by
  simp only [foldersBetween, List.mem_map, List.mem_range]
  constructor
  · rintro ⟨i, hi, rfl⟩
    refine ⟨depth + i + 1, by omega, ?_, ?_, rfl⟩
    · cases whole with
      | true => simp only [if_true] at hi; omega
      | false => simp only [Bool.false_eq_true, if_false] at hi; omega
    · cases whole with
      | true => exact Or.inl rfl
      | false =>
        simp only [Bool.false_eq_true, if_false] at hi
        exact Or.inr (by omega)
  · rintro ⟨n, hdepth, hn, hwhole, rfl⟩
    refine ⟨n - depth - 1, ?_, ?_⟩
    · rcases hwhole with rfl | rfl
      · simp only [if_true]; omega
      · split <;> omega
    · rw [show depth + (n - depth - 1) + 1 = n by omega]
      rfl

def inside (t : Table) (path : String) : List String :=
  t.sortedKeys.filter (Path.isUnder · path)

theorem mem_inside :
    k ∈ t.inside path ↔ (∃ f, t.files.get? k = some f) ∧ Path.isUnder k path = true := by
  rw [inside, List.mem_filter, sortedKeys, List.mem_mergeSort, OrderedMap.mem_keys_iff]

theorem inside_nodup (t : Table) (path : String) : (t.inside path).Nodup := by
  apply List.Nodup.filter
  exact (List.mergeSort_perm _ _).nodup_iff.mpr t.files.nodup

def foldersIn (whole : Bool) (t : Table) (path : String) : List String :=
  ((t.inside path).flatMap (foldersBetween whole (Path.segments path).length)).eraseDups

/-- Whether a path is as deep under a folder as a level goes. -/
def InScope (whole : Bool) (path q : String) : Prop :=
  Path.isUnder q path = true ∧
    (whole = true ∨ (Path.segments q).length = (Path.segments path).length + 1)

theorem mem_foldersIn :
    q ∈ foldersIn whole t path ↔ Path.normalize q = q ∧ t.Holds q ∧ InScope whole path q := by
  rw [foldersIn, List.mem_eraseDups, List.mem_flatMap]
  constructor
  · rintro ⟨k, hk, hq⟩
    obtain ⟨⟨f, hf⟩, hunder⟩ := mem_inside.mp hk
    obtain ⟨n, hdepth, hn, hwhole, rfl⟩ := mem_foldersBetween.mp hq
    refine ⟨Path.normalize_upTo, ⟨k, f, hf, Path.isUnder_upTo hn⟩,
      Path.upTo_isUnder hunder hdepth, ?_⟩
    rw [Path.segments_upTo, List.length_take]
    exact hwhole.imp_right fun h => by omega
  · rintro ⟨hnormal, ⟨k, f, hf, hunder⟩, hscope, hwhole⟩
    refine ⟨k, mem_inside.mpr ⟨⟨f, hf⟩, Path.isUnder_trans hunder hscope⟩, ?_⟩
    exact mem_foldersBetween.mpr ⟨(Path.segments q).length, (Path.isUnder_iff.mp hscope).1,
      (Path.isUnder_iff.mp hunder).1, hwhole, (Path.eq_upTo hnormal hunder).symm⟩

def filesIn (whole : Bool) (t : Table) (path : String) : List (String × Stored) :=
  ((t.inside path).filter fun p =>
    whole || (Path.segments p).length = (Path.segments path).length + 1).filterMap fun p =>
      (t.files.get? p).map (p, ·)

theorem mem_filesIn :
    (k, f) ∈ filesIn whole t path ↔ t.files.get? k = some f ∧ InScope whole path k := by
  simp only [filesIn, List.mem_filterMap, List.mem_filter, mem_inside, Bool.or_eq_true,
    decide_eq_true_eq, InScope]
  constructor
  · rintro ⟨p, ⟨⟨-, hunder⟩, hwhole⟩, hp⟩
    obtain ⟨g, hg, heq⟩ := Option.map_eq_some_iff.mp hp
    obtain ⟨rfl, rfl⟩ := Prod.mk.inj heq
    exact ⟨hg, hunder, hwhole⟩
  · rintro ⟨hf, hunder, hwhole⟩
    exact ⟨k, ⟨⟨⟨f, hf⟩, hunder⟩, hwhole⟩, by simp [hf]⟩

/-- The files of a level come in the order of the keys. -/
theorem filesIn_sublist : ((filesIn whole t path).map Prod.fst).Sublist (t.inside path) := by
  unfold filesIn
  generalize t.inside path = keys
  induction keys with
  | nil => simp
  | cons p rest ih =>
    rw [List.filter_cons]
    split
    · rw [List.filterMap_cons]
      cases t.files.get? p with
      | none => exact ih.trans (List.sublist_cons_self p rest)
      | some g => exact ih.cons_cons p
    · exact ih.trans (List.sublist_cons_self p rest)

theorem filesIn_nodup : ((filesIn whole t path).map Prod.fst).Nodup :=
  (inside_nodup t path).sublist filesIn_sublist

def view (whole : Bool) (t : Table) (path : String) (o : Listing.Options) : List Entry :=
  (foldersIn whole t path).map (fun p => Entry.plain .folder p none) ++
    ((filesIn whole t path).map fun e => t.shown e.1 e.2 o.withMetadata).filter o.isMatch

theorem level_of_texted
    (htexts : ∀ k f, t.files.get? k = some f → ∃ m : Texts, f.metadata = .ofTexts m) :
    t.level hierarchical path o =
      if t.folderExists path then .ok (t.view (hierarchical && o.recurse) path o)
      else .error (.notFound path none) := by
  unfold level
  split
  · have hfiles : (filesIn (hierarchical && o.recurse) t path).mapM
        (fun e => t.entryOf e.1 e.2 o.withMetadata) =
        .ok ((filesIn (hierarchical && o.recurse) t path).map
          fun e => t.shown e.1 e.2 o.withMetadata) := by
      apply mapM_eq_ok
      rintro ⟨k, f⟩ hmem
      exact entryOf_of_texts (htexts k f (mem_filesIn.mp hmem).1) _
    have hanswer : ((filesIn (hierarchical && o.recurse) t path).mapM
        (fun e => t.entryOf e.1 e.2 o.withMetadata) >>= fun files =>
          pure ((foldersIn (hierarchical && o.recurse) t path).map
            (fun p => Entry.plain .folder p none) ++ files.filter o.isMatch)) =
        Except.ok (t.view (hierarchical && o.recurse) path o) := by
      rw [hfiles]
      rfl
    exact hanswer
  · rfl

theorem level_eq (h : t.Tidy) :
    t.level hierarchical path o =
      if t.folderExists path then .ok (t.view (hierarchical && o.recurse) path o)
      else .error (.notFound path none) :=
  level_of_texted h.texts

theorem mem_view :
    e ∈ t.view whole path o ↔
      (∃ q, Path.normalize q = q ∧ t.Holds q ∧ InScope whole path q ∧
        e = .plain .folder q none) ∨
      ∃ k f, t.files.get? k = some f ∧ InScope whole path k ∧
        e = t.shown k f o.withMetadata ∧ o.isMatch e = true := by
  simp only [view, List.mem_append, List.mem_map, List.mem_filter, mem_foldersIn]
  refine or_congr ?_ ?_
  · constructor
    · rintro ⟨q, ⟨hnormal, hholds, hscope⟩, rfl⟩
      exact ⟨q, hnormal, hholds, hscope, rfl⟩
    · rintro ⟨q, hnormal, hholds, hscope, rfl⟩
      exact ⟨q, ⟨hnormal, hholds, hscope⟩, rfl⟩
  · constructor
    · rintro ⟨⟨⟨k, f⟩, hmem, rfl⟩, hmatch⟩
      obtain ⟨hf, hscope⟩ := mem_filesIn.mp hmem
      exact ⟨k, f, hf, hscope, rfl, hmatch⟩
    · rintro ⟨k, f, hf, hscope, rfl, hmatch⟩
      exact ⟨⟨(k, f), mem_filesIn.mpr ⟨hf, hscope⟩, rfl⟩, hmatch⟩

theorem path_shown (h : t.Tidy) (hf : t.files.get? k = some f) (withMetadata : Bool) :
    (t.shown k f withMetadata).path = k :=
  (h.normal k f hf).1

/-- The paths of the files that a level shows come in the order of the keys. -/
theorem paths_filesIn (whole : Bool) (path : String) (o : Listing.Options)
    (hnormal : ∀ k f, t.files.get? k = some f → Path.normalize k = k) :
    ((((filesIn whole t path).map fun e => t.shown e.1 e.2 o.withMetadata).filter
      o.isMatch).map Entry.path).Sublist ((filesIn whole t path).map Prod.fst) := by
  have hfiles : ((filesIn whole t path).map fun e =>
      t.shown e.1 e.2 o.withMetadata).map Entry.path =
      (filesIn whole t path).map Prod.fst := by
    rw [List.map_map]
    apply List.map_congr_left
    rintro ⟨k, f⟩ hmem
    exact hnormal k f (mem_filesIn.mp hmem).1
  rw [← hfiles]
  exact List.filter_sublist.map Entry.path

theorem paths_foldersIn :
    ((foldersIn whole t path).map fun p => Entry.plain .folder p none).map Entry.path =
      foldersIn whole t path := by
  rw [List.map_map]
  conv_rhs => rw [← List.map_id (foldersIn whole t path)]
  apply List.map_congr_left
  intro q hq
  exact (mem_foldersIn.mp hq).1

/-- No two entries of a folder have the same path. -/
theorem view_nodup (h : t.Tidy) : ((t.view whole path o).map Entry.path).Nodup := by
  have hsub := paths_filesIn whole path o fun k f hf =>
    (h.normal k f hf).1
  rw [view, List.map_append, paths_foldersIn, List.nodup_append]
  refine ⟨nodup_eraseDups _, filesIn_nodup.sublist hsub, ?_⟩
  rintro q hq p hp rfl
  obtain ⟨⟨k, f⟩, hmem, rfl⟩ := List.mem_map.mp (hsub.subset hp)
  exact h.apart k f (mem_filesIn.mp hmem).1 (mem_foldersIn.mp hq).2.1

theorem view_of_absent (hfolder : t.folderExists path = false) : t.view whole path o = [] := by
  simp only [folderExists, Bool.or_eq_false_iff, List.any_eq_false] at hfolder
  have hinside : t.inside path = [] := by
    rw [List.eq_nil_iff_forall_not_mem]
    intro k hk
    obtain ⟨⟨f, hf⟩, hunder⟩ := mem_inside.mp hk
    exact hfolder.2 k (OrderedMap.mem_keys_iff.mpr ⟨f, hf⟩) hunder
  simp [view, foldersIn, filesIn, hinside]

/-- A listing sees nothing in a folder that is not there. -/
theorem levelOf_level (h : t.Tidy) :
    Listing.Traversal.levelOf (t.level hierarchical path o) =
      .ok (t.view (hierarchical && o.recurse) path o) := by
  rw [level_eq h]
  cases hfolder : t.folderExists path with
  | true => rfl
  | false =>
    rw [view_of_absent hfolder]
    rfl

end Storage.Memory.Table

end Depot
