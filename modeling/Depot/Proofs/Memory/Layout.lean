import Depot.Proofs.OrderedMap
import Depot.Proofs.Storage.Change
import Depot.Storage.Memory.Backend

/-!
Tables that come about through a storage. Their keys are file paths in normal form, no
file lies under another, and the metadata are the texts that callers attached. Every
change keeps it so.
-/
namespace Depot.Storage.Memory

def Table.Holds (t : Table) (path : String) : Prop :=
  ∃ k f, t.files.get? k = some f ∧ Path.isUnder k path = true

structure Table.Tidy (t : Table) : Prop where
  normal : ∀ k f, t.files.get? k = some f → Path.normalize k = k ∧ k ≠ Path.root
  apart : ∀ k f, t.files.get? k = some f → ¬ t.Holds k
  texts : ∀ k f, t.files.get? k = some f → ∃ m : Texts, f.metadata = .ofTexts m

namespace Table

variable {t t' : Table} {path k : String} {f : Stored}

theorem folderExists_iff (hpath : Path.normalize path = path) :
    t.folderExists path = true ↔ path = Path.root ∨ t.Holds path := by
  simp only [folderExists, Bool.or_eq_true, Path.isRoot_iff hpath, List.any_eq_true, Holds]
  refine or_congr_right ⟨?_, ?_⟩
  · rintro ⟨k, hk, hunder⟩
    obtain ⟨f, hf⟩ := OrderedMap.mem_keys_iff.mp hk
    exact ⟨k, f, hf, hunder⟩
  · rintro ⟨k, f, hf, hunder⟩
    exact ⟨k, OrderedMap.mem_keys_iff.mpr ⟨f, hf⟩, hunder⟩

/-- A path may be written when it has no file above it and is no folder. -/
theorem checkLayout_eq_ok (h : t.Tidy) (hpath : Path.normalize path = path)
    (hroot : path ≠ Path.root) :
    t.checkLayout path = .ok () ↔
      (∀ k f, t.files.get? k = some f → Path.isUnder path k = false) ∧ ¬ t.Holds path := by
  have habove : (Path.properAncestors path).find? t.files.contains = none ↔
      ∀ k f, t.files.get? k = some f → Path.isUnder path k = false := by
    rw [List.find?_eq_none]
    constructor
    · intro hnone k f hf
      by_contra hunder
      obtain ⟨hnormal, hne⟩ := h.normal k f hf
      have hmem := (Path.mem_properAncestors_iff hnormal hne).mpr (by simpa using hunder)
      exact hnone k hmem (OrderedMap.contains_iff.mpr ⟨f, hf⟩)
    · intro hnone k hk hcontains
      obtain ⟨f, hf⟩ := OrderedMap.contains_iff.mp hcontains
      obtain ⟨hnormal, hne⟩ := h.normal k f hf
      have hunder := (Path.mem_properAncestors_iff hnormal hne).mp hk
      simp [hnone k f hf] at hunder
  have hfolder : (!t.files.contains path && t.folderExists path) = false ↔ ¬ t.Holds path := by
    rw [← Bool.not_eq_true, Bool.and_eq_true, folderExists_iff hpath]
    constructor
    · intro hnot hholds
      refine hnot ⟨?_, Or.inr hholds⟩
      rw [Bool.not_eq_true', ← Bool.not_eq_true, OrderedMap.contains_iff]
      rintro ⟨f, hf⟩
      exact h.apart path f hf hholds
    · rintro hnot ⟨-, hr | hholds⟩
      · exact hroot hr
      · exact hnot hholds
  unfold checkLayout
  rw [← habove, ← hfolder]
  cases hfind : (Path.properAncestors path).find? t.files.contains with
  | some file => simp
  | none =>
    cases hclash : (!t.files.contains path && t.folderExists path) <;> simp

theorem kind_of_checkLayout {e : Fault} (h : t.checkLayout path = .error e) :
    e.kind = .conflict := by
  unfold checkLayout at h
  cases hfind : (Path.properAncestors path).find? t.files.contains with
  | some file =>
    simp only [hfind] at h
    rw [← Except.error.inj h]
    rfl
  | none =>
    simp only [hfind] at h
    split at h
    · rw [← Except.error.inj h]
      rfl
    · simp at h

theorem kind_of_checkCapacity {limit : Int} {length : Nat} {e : Fault}
    (h : t.checkCapacity limit path length = .error e) : e.kind = .capacity := by
  unfold checkCapacity at h
  dsimp only at h
  split at h
  · rw [← Except.error.inj h]
    rfl
  · simp at h

theorem runFrom_write (limit : Int) (path : String) (data : Bytes) (append : Bool) (t : Table) :
    (Table.write limit path data append).runFrom t =
      match t.checkLayout path with
      | .error e => (.error e, t)
      | .ok _ =>
        match checkCapacity limit t path (t.written path data append).length with
        | .error e => (.error e, t)
        | .ok _ =>
          match t.keptMetadata path with
          | .ok metadata => (.ok (), t.put path (t.written path data append) metadata)
          | .error e => (.error e, t.discount path) := by
  unfold Table.write
  rw [Action.runFrom_bind, Action.runFrom_get]
  dsimp only
  rw [Action.runFrom_bind, Action.runFrom_lift]
  cases t.checkLayout path with
  | error e => rfl
  | ok _ =>
    dsimp only
    rw [Action.runFrom_bind, Action.runFrom_lift]
    cases checkCapacity limit t path (t.written path data append).length with
    | error e => rfl
    | ok _ =>
      dsimp only
      cases t.keptMetadata path <;> rfl

/-- Metadata that callers attached stay with the file. -/
theorem keptMetadata_of_texts
    (h : ∀ k f, t.files.get? k = some f → ∃ m : Texts, f.metadata = .ofTexts m) (path : String) :
    ∃ m : Texts, t.keptMetadata path = .ok (.ofTexts m) ∧
      ∀ f, t.files.get? path = some f → f.metadata = .ofTexts m := by
  unfold keptMetadata
  cases hf : t.files.get? path with
  | none => exact ⟨.empty, rfl, by simp⟩
  | some f =>
    obtain ⟨m, hm⟩ := h path f hf
    refine ⟨m, ?_, ?_⟩
    · cases hentries : m.entries with
      | nil => simp [hm, Metadata.ofTexts, Json.ofTexts, hentries, Json.isEmpty, Metadata.empty]
      | cons e rest =>
        simp [hm, Metadata.ofTexts, Json.ofTexts, hentries, Json.isEmpty, Metadata.asObject]
    · rintro g hg
      rw [← Option.some.inj hg, hm]

theorem keptMetadata_eq (h : t.Tidy) (path : String) :
    ∃ m : Texts, t.keptMetadata path = .ok (.ofTexts m) ∧
      ∀ f, t.files.get? path = some f → f.metadata = .ofTexts m :=
  keptMetadata_of_texts h.texts path

/-- A write leaves the table as it is or puts a file where the layout allows it. -/
theorem write_cases
    (h : ∀ k f, t.files.get? k = some f → ∃ m : Texts, f.metadata = .ofTexts m)
    (limit : Int) (path : String) (data : Bytes) (append : Bool) :
    ((Table.write limit path data append).runFrom t).2 = t ∨
      (t.checkLayout path = .ok () ∧ ∃ m : Texts,
        ((Table.write limit path data append).runFrom t).2 =
          t.put path (t.written path data append) (.ofTexts m)) := by
  obtain ⟨m, hm, -⟩ := keptMetadata_of_texts h path
  rw [runFrom_write]
  cases t.checkLayout path with
  | error e => exact Or.inl rfl
  | ok _ =>
    cases checkCapacity limit t path (t.written path data append).length with
    | error e => exact Or.inl rfl
    | ok _ =>
      simp only [hm]
      exact Or.inr ⟨trivial, m, rfl⟩

/-- New metadata are for a file that is there. -/
theorem setMetadata_eq_ok {m : Metadata} (h : t.setMetadata path m = .ok t') :
    ∃ f, t.files.get? path = some f ∧
      t' = { t with files := t.files.insert path { f with metadata := m } } := by
  unfold Table.setMetadata at h
  cases hf : t.files.get? path with
  | none => simp [hf] at h
  | some f =>
    simp only [hf, Except.ok.injEq] at h
    exact ⟨f, rfl, h.symm⟩

/-- A delete dates nothing. -/
theorem times_delete (t : Table) (path : String) : (t.delete path).times = t.times := by
  have hall : ∀ (keys : List String) (t : Table), (keys.foldl remove t).times = t.times := by
    intro keys
    induction keys with
    | nil => exact fun _ => rfl
    | cons k rest ih => exact fun t => ih (t.remove k)
  unfold Table.delete
  split
  · rfl
  · exact hall _ t

theorem Tidy.empty {times : Times String} : (Table.empty times).Tidy where
  normal k f hf := by simp [Table.empty] at hf
  apart k f hf := by simp [Table.empty] at hf
  texts k f hf := by simp [Table.empty] at hf

/-- A table with fewer files stays tidy. -/
theorem Tidy.of_sub (h : t.Tidy) (hsub : ∀ k f, t'.files.get? k = some f →
    t.files.get? k = some f) :
    t'.Tidy where
  normal k f hf := h.normal k f (hsub k f hf)
  apart k f hf := by
    rintro ⟨k', f', hf', hunder⟩
    exact h.apart k f (hsub k f hf) ⟨k', f', hsub k' f' hf', hunder⟩
  texts k f hf := h.texts k f (hsub k f hf)

theorem Tidy.insert (h : t.Tidy) (hpath : Path.normalize path = path) (hroot : path ≠ Path.root)
    (habove : ∀ k f, t.files.get? k = some f → Path.isUnder path k = false)
    (hbelow : ¬ t.Holds path) (hf : ∃ m : Texts, f.metadata = .ofTexts m)
    (hfiles : t'.files = t.files.insert path f) : t'.Tidy := by
  have hget : ∀ k g, t'.files.get? k = some g →
      (k = path ∧ g = f) ∨ (k ≠ path ∧ t.files.get? k = some g) := by
    intro k g hg
    rw [hfiles, OrderedMap.get?_insert] at hg
    by_cases hk : k = path
    · rw [if_pos hk] at hg
      exact Or.inl ⟨hk, (Option.some.inj hg).symm⟩
    · rw [if_neg hk] at hg
      exact Or.inr ⟨hk, hg⟩
  refine ⟨?_, ?_, ?_⟩
  · intro k g hg
    rcases hget k g hg with ⟨rfl, -⟩ | ⟨-, hold⟩
    · exact ⟨hpath, hroot⟩
    · exact h.normal k g hold
  · rintro k g hg ⟨k', g', hg', hunder⟩
    rcases hget k g hg with ⟨rfl, -⟩ | ⟨-, hold⟩
    · rcases hget k' g' hg' with ⟨rfl, -⟩ | ⟨-, hold'⟩
      · simp [Path.not_isUnder_self] at hunder
      · exact hbelow ⟨k', g', hold', hunder⟩
    · rcases hget k' g' hg' with ⟨rfl, -⟩ | ⟨-, hold'⟩
      · simp [habove k g hold] at hunder
      · exact h.apart k g hold ⟨k', g', hold', hunder⟩
  · intro k g hg
    rcases hget k g hg with ⟨-, rfl⟩ | ⟨-, hold⟩
    · exact hf
    · exact h.texts k g hold

theorem Tidy.write (h : t.Tidy) (limit : Int) (hpath : Path.normalize path = path)
    (hroot : path ≠ Path.root) (data : Bytes) (append : Bool) :
    ((Table.write limit path data append).runFrom t).2.Tidy := by
  rcases write_cases h.texts limit path data append with hsame | ⟨hlayout, m, hput⟩
  · exact hsame.symm ▸ h
  · obtain ⟨habove, hbelow⟩ := (checkLayout_eq_ok h hpath hroot).mp hlayout
    rw [hput]
    exact h.insert (f := ⟨_, .ofTexts m⟩) hpath hroot habove hbelow ⟨m, rfl⟩ rfl

/-- A write is a conflict just when a file lies above its path or under it. -/
theorem Tidy.conflict_iff (h : t.Tidy) (hpath : Path.normalize path = path)
    (hroot : path ≠ Path.root)
    (limit : Int) (data : Bytes) (append : Bool) :
    (∃ e, ((Table.write limit path data append).runFrom t).1 = .error e ∧ e.kind = .conflict) ↔
      ∃ k ∈ t.files.keys, Path.isUnder path k = true ∨ Path.isUnder k path = true := by
  rw [runFrom_write]
  cases hlayout : t.checkLayout path with
  | error e =>
    have hclash : ¬ ((∀ k f, t.files.get? k = some f → Path.isUnder path k = false) ∧
        ¬ t.Holds path) := by
      rw [← checkLayout_eq_ok h hpath hroot, hlayout]
      simp
    refine iff_of_true ⟨e, rfl, kind_of_checkLayout hlayout⟩ ?_
    by_contra hnone
    push Not at hnone
    refine hclash ⟨fun k f hf => ?_, ?_⟩
    · simpa using (hnone k (OrderedMap.mem_keys_iff.mpr ⟨f, hf⟩)).1
    · rintro ⟨k, f, hf, hunder⟩
      exact (hnone k (OrderedMap.mem_keys_iff.mpr ⟨f, hf⟩)).2 hunder
  | ok _ =>
    obtain ⟨habove, hbelow⟩ := (checkLayout_eq_ok h hpath hroot).mp hlayout
    obtain ⟨m, hm, -⟩ := keptMetadata_eq h path
    refine iff_of_false ?_ ?_
    · rintro ⟨e, herror, hkind⟩
      cases hcapacity : checkCapacity limit t path (t.written path data append).length with
      | error e' =>
        simp only [hcapacity, Except.error.injEq] at herror
        rw [← herror, kind_of_checkCapacity hcapacity] at hkind
        cases hkind
      | ok _ => simp [hcapacity, hm] at herror
    · rintro ⟨k, hk, hunder⟩
      obtain ⟨f, hf⟩ := OrderedMap.mem_keys_iff.mp hk
      rcases hunder with hunder | hunder
      · rw [habove k f hf] at hunder
        cases hunder
      · exact hbelow ⟨k, f, hf, hunder⟩

theorem get?_removeAll (paths : List String) (t : Table) (k : String) :
    (paths.foldl remove t).files.get? k = if k ∈ paths then none else t.files.get? k := by
  induction paths generalizing t with
  | nil => simp
  | cons p rest ih =>
    rw [List.foldl_cons, ih]
    simp only [remove, OrderedMap.get?_erase, List.mem_cons]
    by_cases hp : k = p <;> by_cases hk : k ∈ rest <;> simp [hp, hk]

/-- What is there after a delete was there before. -/
theorem get?_of_delete (h : (t.delete path).files.get? k = some f) : t.files.get? k = some f := by
  unfold Table.delete at h
  split at h
  · simp only [Table.remove, OrderedMap.get?_erase] at h
    split at h
    · cases h
    · exact h
  · rw [get?_removeAll] at h
    split at h
    · cases h
    · exact h

/-- A delete takes the path itself and all that lies under it. -/
theorem get?_delete (h : t.Tidy) (path k : String) :
    (t.delete path).files.get? k =
      if k = path ∨ Path.isUnder k path = true then none else t.files.get? k := by
  unfold delete
  cases hcontains : t.files.contains path with
  | true =>
    obtain ⟨f, hf⟩ := OrderedMap.contains_iff.mp hcontains
    simp only [if_true, remove, OrderedMap.get?_erase]
    by_cases hk : k = path
    · simp [hk]
    · cases hunder : Path.isUnder k path with
      | false => simp [hk]
      | true =>
        have hnone : t.files.get? k = none := by
          cases hg : t.files.get? k with
          | none => rfl
          | some g => exact absurd ⟨k, g, hg, hunder⟩ (h.apart path f hf)
        simp [hk, hnone]
  | false =>
    have hnot : t.files.get? path = none := by
      simpa [OrderedMap.contains] using hcontains
    simp only [Bool.false_eq_true, if_false, get?_removeAll, List.mem_filter]
    by_cases hk : k = path
    · subst hk
      simp [hnot, Path.not_isUnder_self]
    · cases hg : t.files.get? k with
      | none => simp
      | some g =>
        have hmem : k ∈ t.files.keys := OrderedMap.mem_keys_iff.mpr ⟨g, hg⟩
        simp [hk, hmem]

/-- Whatever there is lies under the root. -/
theorem get?_delete_root (h : t.Tidy) (k : String) :
    (t.delete Path.root).files.get? k = none := by
  rw [get?_delete h]
  split
  · rfl
  · next hk =>
    cases hf : t.files.get? k with
    | none => rfl
    | some f =>
      obtain ⟨hnormal, hroot⟩ := h.normal k f hf
      exact absurd (Or.inr (Path.isUnder_root hnormal hroot)) hk

theorem delete_of_nothing (hnone : t.files.get? path = none) (hholds : ¬ t.Holds path) :
    t.delete path = t := by
  have hkeys : t.files.keys.filter (Path.isUnder · path) = [] := by
    rw [List.filter_eq_nil_iff]
    intro k hk hunder
    obtain ⟨f, hf⟩ := OrderedMap.mem_keys_iff.mp hk
    exact hholds ⟨k, f, hf, hunder⟩
  simp [delete, OrderedMap.contains, hnone, hkeys]

theorem Tidy.delete (h : t.Tidy) (path : String) : (t.delete path).Tidy :=
  h.of_sub fun _ _ hf => get?_of_delete hf

/-- New metadata for a file that is there. -/
theorem Tidy.setMetadata (h : t.Tidy) (m : Texts)
    (hset : t.setMetadata path (.ofTexts m) = .ok t') :
    t'.Tidy := by
  obtain ⟨f, hf, rfl⟩ := setMetadata_eq_ok hset
  obtain ⟨hnormal, hroot⟩ := h.normal path f hf
  refine h.insert (f := { f with metadata := .ofTexts m }) hnormal hroot ?_ (h.apart path f hf)
    ⟨m, rfl⟩ rfl
  intro k g hg
  by_contra hunder
  exact h.apart k g hg ⟨path, f, hf, by simpa using hunder⟩

end Table

/-- What a write that succeeds leaves. -/
theorem write_eq_ok {limit : Int} {t : Table} {path : String} {data : Bytes} {append : Bool}
    (h : ((Table.write limit path data append).runFrom t).1 = .ok ()) :
    ∃ metadata, ((Table.write limit path data append).runFrom t).2 =
      t.put path (t.written path data append) metadata := by
  rw [Table.runFrom_write] at h ⊢
  cases hlayout : t.checkLayout path with
  | error e => simp [hlayout] at h
  | ok _ =>
    cases hcapacity : Table.checkCapacity limit t path (t.written path data append).length with
    | error e => simp [hlayout, hcapacity] at h
    | ok _ =>
      cases hkept : t.keptMetadata path with
      | error e => simp [hlayout, hcapacity, hkept] at h
      | ok metadata => exact ⟨metadata, rfl⟩

/-- A write goes through when no file stands in its way, the metadata of a file in its place
can be kept, and what it adds is within the limit. -/
theorem write_ok {limit : Int} {t : Table} {path : String} {data : Bytes} {metadata : Metadata}
    (hpath : Path.normalize path = path) (hroot : path ≠ Path.root)
    (hfree : ∀ k f, t.files.get? k = some f →
      Path.isUnder path k = false ∧ Path.isUnder k path = false)
    (hkept : t.keptMetadata path = .ok metadata)
    (hroom : limit ≤ 0 ∨ t.size + (data.length - t.contentSize path : Nat) ≤ limit) :
    (Table.write limit path data false).runFrom t = (.ok (), t.put path data metadata) := by
  have habove : (Path.properAncestors path).find? t.files.contains = none := by
    rw [List.find?_eq_none]
    intro k hk hcontains
    obtain ⟨f, hf⟩ := OrderedMap.contains_iff.mp hcontains
    obtain ⟨n, -, hn, rfl⟩ := Path.mem_properAncestors.mp hk
    have hnot := (hfree _ f hf).1
    rw [Path.isUnder_upTo hn] at hnot
    cases hnot
  have hbelow : t.folderExists path = false := by
    rw [← Bool.not_eq_true, Table.folderExists_iff hpath]
    rintro (hr | ⟨k, f, hf, hunder⟩)
    · exact hroot hr
    · rw [(hfree k f hf).2] at hunder
      cases hunder
  have hlayout : t.checkLayout path = .ok () := by
    simp [Table.checkLayout, habove, hbelow]
  have hwritten : t.written path data false = data := by
    unfold Table.written
    split <;> rfl
  have hcapacity : Table.checkCapacity limit t path data.length = .ok () := by
    unfold Table.checkCapacity
    dsimp only
    rw [if_neg (by omega)]
  rw [Table.runFrom_write, hlayout, hwritten]
  simp only [hcapacity, hkept]

variable (c : Config) (s : State)

theorem runFrom_write (path : String) (data : Bytes) (append : Bool) :
    ((backend c).write path data append).runFrom s =
      (((Table.write c.limit path data append).runFrom s.table).1,
        { s with table := ((Table.write c.limit path data append).runFrom s.table).2 }) := by
  change ((Table.write c.limit path data append).zoom (·.table)
    fun t s => { s with table := t }).runFrom s = _
  rw [Action.runFrom_zoom]

theorem runFrom_delete (path : String) :
    ((backend c).delete path).runFrom s = (.ok (), { s with table := s.table.delete path }) := by
  change (onTable fun t => .ok (t.delete path)).runFrom s = _
  rw [onTable, Action.runFrom_ofTransition]
  rfl

theorem runFrom_setMetadata (path : String) (m : Texts) :
    ((backend c).setMetadata path m).runFrom s =
      match s.table.setMetadata path (.ofTexts m) with
      | .ok t => (.ok (), { s with table := t })
      | .error e => (.error e, s) := by
  change (onTable fun t => t.setMetadata path (.ofTexts m)).runFrom s = _
  rw [onTable, Action.runFrom_ofTransition]
  cases s.table.setMetadata path (.ofTexts m) <;> rfl

variable {c s}

theorem tidy_apply (change : Change) (h : s.table.Tidy) :
    (change.apply (backend c) s).table.Tidy := by
  refine change.preserves (P := fun s : State => s.table.Tidy) ?_ ?_ ?_ h
  · intro s p data append h hp hroot
    rw [runFrom_write]
    exact h.write c.limit hp hroot data append
  · intro s p h _
    rw [runFrom_delete]
    exact h.delete p
  · intro s p m h hp hroot
    rw [runFrom_setMetadata]
    cases hset : s.table.setMetadata p (.ofTexts m) with
    | error e => exact h
    | ok t => exact h.setMetadata m hset

/-- Whatever callers do, the table stays tidy. -/
theorem tidy_after (changes : List Change) (h : s.table.Tidy) :
    (after (backend c) s changes).table.Tidy :=
  after_induction (P := fun s : State => s.table.Tidy) (fun change _ h => tidy_apply change h)
    changes h

theorem answer_store {path : Option String} {p : String} (hpath : filePath path = .ok p)
    (data : Bytes) (append : Bool) :
    (((backend c).store path data append).runFrom s).1 =
      ((Table.write c.limit p data append).runFrom s.table).1 := by
  rw [Backend.store, runFrom_onFile, hpath]
  dsimp only
  rw [runFrom_write]

/-- Whatever callers do to an empty store, its files have paths in normal form that are not the
root, and none lies under another, so no path is a file and a folder at once. A write is then
a conflict just when some file lies above its path or under it, whatever the limit, and so
never when the file is there already. -/
theorem layout_kept (c : Config) (s : State) {times : Times String}
    (hempty : s.table = .empty times) (changes : List Change) :
    let t := (after (backend c) s changes).table
    (∀ k ∈ t.files.keys, Path.normalize k = k ∧ k ≠ Path.root) ∧
    (∀ k ∈ t.files.keys, ∀ q ∈ t.files.keys, Path.isUnder q k = false) ∧
    (∀ p, ¬ (t.files.contains p = true ∧ t.folderExists p = true)) ∧
    ∀ limit path p data append, filePath path = .ok p →
      ((∃ e, (((backend { c with limit := limit }).store path data append).runFrom
            (after (backend c) s changes)).1 = .error e ∧ e.kind = .conflict) ↔
          ∃ k ∈ t.files.keys, Path.isUnder p k = true ∨ Path.isUnder k p = true) ∧
        (p ∈ t.files.keys → ∀ e,
          (((backend { c with limit := limit }).store path data append).runFrom
            (after (backend c) s changes)).1 = .error e → e.kind ≠ .conflict) := by
  have htidy : (after (backend c) s changes).table.Tidy :=
    tidy_after changes (hempty ▸ Table.Tidy.empty)
  generalize after (backend c) s changes = s' at htidy ⊢
  have hapart : ∀ k ∈ s'.table.files.keys, ∀ q ∈ s'.table.files.keys,
      Path.isUnder q k = false := by
    intro k hk q hq
    obtain ⟨f, hf⟩ := OrderedMap.mem_keys_iff.mp hk
    obtain ⟨g, hg⟩ := OrderedMap.mem_keys_iff.mp hq
    by_contra hunder
    exact htidy.apart k f hf ⟨q, g, hg, by simpa using hunder⟩
  refine ⟨fun k hk => ?_, hapart, ?_, fun limit path p data append hpath => ?_⟩
  · obtain ⟨f, hf⟩ := OrderedMap.mem_keys_iff.mp hk
    exact htidy.normal k f hf
  · rintro p ⟨hfile, hfolder⟩
    obtain ⟨f, hf⟩ := OrderedMap.contains_iff.mp hfile
    obtain ⟨hnormal, hroot⟩ := htidy.normal p f hf
    rcases (Table.folderExists_iff hnormal).mp hfolder with hr | hholds
    · exact hroot hr
    · exact htidy.apart p f hf hholds
  · have hnormal := normalize_of_filePath hpath
    have hroot := (filePath_eq_ok.mp hpath).2
    have hconflict := htidy.conflict_iff hnormal hroot limit data append
    rw [answer_store hpath]
    refine ⟨hconflict, fun hp e herror hkind => ?_⟩
    obtain ⟨k, hk, hunder⟩ := hconflict.mp ⟨e, herror, hkind⟩
    rcases hunder with hunder | hunder
    · simp [hapart k hk p hp] at hunder
    · simp [hapart p hp k hk] at hunder

def alikeNames : List Change := [.write (some "ab/c") [1] false, .write (some "/a/b/") [2] true]

theorem layout_kept_alikeNames :
    filePath (some "./a") = .ok "a" ∧ filePath (some "abc") = .ok "abc" ∧
      (∃ e, (((backend {}).store (some "./a") [3] false).runFrom
        (after (backend {}) .fresh alikeNames)).1 = .error e ∧ e.kind = .conflict) ∧
      ¬ ∃ e, (((backend {}).store (some "abc") [3] false).runFrom
        (after (backend {}) .fresh alikeNames)).1 = .error e ∧ e.kind = .conflict := by
  have hfolder : filePath (some "./a") = .ok "a" := by decide
  have hfile : filePath (some "abc") = .ok "abc" := by decide
  have hkeys : (after (backend {}) .fresh alikeNames).table.files.keys = ["ab/c", "a/b"] := by
    decide
  obtain ⟨-, -, -, hwrite⟩ := layout_kept {} .fresh rfl alikeNames
  refine ⟨hfolder, hfile, (hwrite 0 _ _ [3] false hfolder).1.mpr ?_, fun hconflict => ?_⟩
  · exact ⟨"a/b", by simp [hkeys], Or.inr (by decide)⟩
  · obtain ⟨k, hk, hunder⟩ := (hwrite 0 _ _ [3] false hfile).1.mp hconflict
    rw [hkeys] at hk
    revert k
    decide

end Depot.Storage.Memory
