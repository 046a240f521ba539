import Depot.Proofs.Memory.Interleaving
import Depot.Proofs.Storage.History

/-!
The in-memory store against the histories of its paths. What is stored under a path is what
the deeds since the file was made come to, and every answer about the path tells just that.
-/
namespace Depot.Storage

def Memory.Stored.afterWrite (data : Bytes) (append : Bool) : Option Memory.Stored → Memory.Stored
  | some f => { f with content := if append then f.content ++ data else data }
  | none => ⟨data, .empty⟩

def Deed.onFile (p : String) (d : Deed) (f? : Option Memory.Stored) : Option Memory.Stored :=
  if d.removes p then none
  else
    match d.written? p, d.attached? p with
    | some (data, append), _ => some (.afterWrite data append f?)
    | none, some m => f?.map fun f => { f with metadata := .ofTexts m }
    | none, none => f?

namespace Memory

/-- What is stored under a path according to the deeds. -/
def recorded (p : String) (ds : List Deed) : Option Stored :=
  if sinceMade p ds = [] then none
  else some ⟨contentSince p (sinceMade p ds), .ofTexts (metadataSince p (sinceMade p ds))⟩

variable {c : Config} {s : State} {t : Table} {p q : String} {ds life : List Deed} {d : Deed}

theorem contentSince_concat {data : Bytes} {append : Bool}
    (hwritten : d.written? p = some (data, append)) :
    contentSince p (life ++ [d]) = if append then contentSince p life ++ data else data := by
  rw [contentSince, List.filterMap_append, List.filterMap_cons_some hwritten]
  cases append with
  | true => exact contentOf_append _ data
  | false => exact contentOf_overwrite _ data

theorem contentSince_of_none (hwritten : d.written? p = none) :
    contentSince p (life ++ [d]) = contentSince p life := by
  rw [contentSince, List.filterMap_append, List.filterMap_cons_none hwritten]
  simp [contentSince]

theorem metadataSince_concat {m : Texts} (hattached : d.attached? p = some m) :
    metadataSince p (life ++ [d]) = m := by
  rw [metadataSince, List.filterMap_append, List.filterMap_cons_some hattached]
  simp

theorem metadataSince_of_none (hattached : d.attached? p = none) :
    metadataSince p (life ++ [d]) = metadataSince p life := by
  rw [metadataSince, List.filterMap_append, List.filterMap_cons_none hattached]
  simp [metadataSince]

theorem attached?_of_written? {w : Bytes × Bool} (hwritten : d.written? p = some w) :
    d.attached? p = none := by
  unfold Deed.written? at hwritten
  unfold Deed.attached?
  split at hwritten
  · rename_i hchange _
    rw [hchange]
  · cases hwritten

/-- The record of a path changes with a deed as the file does. -/
theorem recorded_concat (p : String) (ds : List Deed) (d : Deed) :
    recorded p (ds ++ [d]) = d.onFile p (recorded p ds) := by
  unfold Deed.onFile
  cases hremoves : d.removes p with
  | true => simp [recorded, sinceMade_of_removes hremoves]
  | false =>
    unfold recorded
    rw [sinceMade_concat hremoves]
    simp only [Bool.false_eq_true, if_false]
    by_cases hlife : sinceMade p ds = []
    · simp only [if_pos hlife]
      cases hwritten : d.written? p with
      | some w =>
        have hattached := attached?_of_written? hwritten
        have hcontent : contentSince p ([] ++ [d]) =
            if w.2 then contentSince p [] ++ w.1 else w.1 := contentSince_concat hwritten
        have hmetadata : metadataSince p ([] ++ [d]) = metadataSince p [] :=
          metadataSince_of_none hattached
        rw [List.nil_append] at hcontent hmetadata
        simp only [Option.isSome_some, if_true, List.cons_ne_nil, if_false, hcontent, hmetadata]
        cases w.2 <;> rfl
      | none => cases d.attached? p <;> rfl
    · simp only [if_neg hlife, List.append_ne_nil_of_right_ne_nil, ne_eq, List.cons_ne_self,
        not_false_eq_true, if_false]
      cases hwritten : d.written? p with
      | some w =>
        have hattached := attached?_of_written? hwritten
        rw [contentSince_concat hwritten, metadataSince_of_none hattached]
        rfl
      | none =>
        rw [contentSince_of_none hwritten]
        cases hattached : d.attached? p with
        | some m =>
          rw [metadataSince_concat hattached]
          rfl
        | none => rw [metadataSince_of_none hattached]

/-- What a write answers, and the file at a path after it. -/
theorem get?_write (h : t.Tidy) (limit : Int) (hnormal : Path.normalize q = q)
    (data : Bytes) (append : Bool) :
    ((Table.write limit q data append).runFrom t).2.files.get? p =
      if p = q ∧ ((Table.write limit q data append).runFrom t).1.toBool then
        some (.afterWrite data append (t.files.get? p))
      else t.files.get? p := by
  rw [Table.runFrom_write]
  cases t.checkLayout q with
  | error e => simp [Except.toBool]
  | ok _ =>
    cases Table.checkCapacity limit t q (t.written q data append).length with
    | error e => simp [Except.toBool]
    | ok _ =>
      obtain ⟨m, hkept, htexts⟩ := Table.keptMetadata_eq h q
      simp only [hkept, Except.toBool, and_true, Table.put, OrderedMap.get?_insert]
      by_cases hp : p = q
      · subst hp
        rw [if_pos rfl, if_pos rfl, Table.written]
        cases hf : t.files.get? p with
        | some f => simp [Stored.afterWrite, htexts f hf]
        | none =>
          have hempty : t.keptMetadata p = .ok .empty := by simp [Table.keptMetadata, hf]
          rw [hempty] at hkept
          simp [Stored.afterWrite, Except.ok.inj hkept]
      · rw [if_neg hp, if_neg hp]

theorem get?_deleteAll (h : s.table.Tidy) (paths : List String) (p : String) :
    ((paths.foldl (fun s q => (((backend c).delete q).runFrom s).2) s).table.files.get? p) =
      if paths.any (fun q => p = q || Path.isUnder p q) then none
      else s.table.files.get? p := by
  induction paths generalizing s with
  | nil => simp
  | cons q rest ih =>
    rw [List.foldl_cons, runFrom_delete, ih (h.delete q), List.any_cons, Table.get?_delete h]
    by_cases hrest : rest.any (fun q => p = q || Path.isUnder p q) = true
    · simp [hrest]
    · simp [hrest]

/-- A change does to the file at a path what its deed says. -/
theorem get?_deed (h : s.table.Tidy) (change : Change) (p : String) :
    (change.apply (backend c) s).table.files.get? p =
      (Deed.mk change ((change.act (backend c)).runFrom s).1).onFile p
        (s.table.files.get? p) := by
  cases change with
  | write path data append =>
    rw [Change.apply_write, Change.act, Backend.store, runFrom_onFile]
    cases hpath : filePath path with
    | error e => rfl
    | ok q =>
      obtain ⟨hnormal, -⟩ := filePath_eq_ok.mp hpath
      simp only [runFrom_write, get?_write h c.limit (normalize_of_filePath hpath)]
      cases ((Table.write c.limit q data append).runFrom s.table).1 with
      | error e => simp [Except.toBool, Deed.onFile, Deed.removes, Deed.written?, Deed.attached?]
      | ok _ =>
        by_cases hp : p = q
        · simp [Except.toBool, Deed.onFile, Deed.removes, Deed.written?, hnormal, hp]
        · simp [Except.toBool, Deed.onFile, Deed.removes, Deed.written?, Deed.attached?, hnormal,
            hp, Ne.symm hp]
  | annotate path m =>
    rw [Change.apply_annotate, Change.act, Backend.annotate, runFrom_onFile]
    cases hpath : filePath path with
    | error e => rfl
    | ok q =>
      obtain ⟨hnormal, -⟩ := filePath_eq_ok.mp hpath
      simp only [runFrom_setMetadata, Table.setMetadata]
      cases hf : s.table.files.get? q with
      | none => simp [Deed.onFile, Deed.removes, Deed.written?, Deed.attached?]
      | some f =>
        by_cases hp : p = q
        · simp [Deed.onFile, Deed.removes, Deed.written?, Deed.attached?, hnormal, hp, hf,
            OrderedMap.get?_insert]
        · simp [Deed.onFile, Deed.removes, Deed.written?, Deed.attached?, hnormal, hp,
            Ne.symm hp, OrderedMap.get?_insert]
  | delete paths =>
    rw [Change.apply_delete, get?_deleteAll h]
    unfold Deed.onFile
    rfl

/-- What is stored is what the history says. -/
theorem get?_after (c : Config) (times : Times String) (changes : List Change) (p : String) :
    (after (backend c) (.fresh times) changes).table.files.get? p =
      recorded p (deeds (backend c) (.fresh times) changes) := by
  induction changes using List.reverseRecOn with
  | nil => rfl
  | append_singleton changes change ih =>
    rw [after_concat, deeds_concat, recorded_concat, ← ih]
    exact get?_deed (tidy_after changes .empty) change p

/-- The answers about a path, from what is stored there. -/
theorem answers_of_get? (h : s.table.Tidy) {path : Option String} (hpath : filePath path = .ok p) :
    (backend c).holdsAll [path] s = .ok [(s.table.files.get? p).isSome] ∧
      (backend c).fetch? path s = .ok ((s.table.files.get? p).map Stored.content) ∧
      (backend c).entries [path] s =
        .ok [(s.table.files.get? p).map fun f => s.table.shown p f true] := by
  refine ⟨holdsAll_singleton hpath rfl, ?_, entries_singleton hpath (Table.entry?_eq h p)⟩
  have hread : (backend c).read s p = s.table.read p := rfl
  rw [fetch?_eq hpath, hread, Table.read]
  cases s.table.files.get? p <;> rfl

/-- After any changes, whatever they answered, the store tells of a path what its history
says. The path is absent just when no write to it has succeeded since it was last deleted,
alone or with a folder above it. Otherwise it holds the data of the last write since then
that is no append, or of the write that made the file, and of all appends after that; and
its metadata are those that were attached last since the file was made, or none. A change
that is not about the path and deletes no folder above it changes none of the answers. -/
theorem refines_history (c : Config) (times : Times String) (changes : List Change)
    {path : Option String} {p : String}
    (hpath : Path.normalize (Path.orRoot path) = p) (hroot : p ≠ Path.root) :
    let s := after (backend c) (.fresh times) changes
    let ds := deeds (backend c) (.fresh times) changes
    let life := sinceMade p ds
    (life = [] ↔ ∀ d ∈ sinceRemoved p ds, d.written? p = none) ∧
    (life = [] →
      (backend c).holdsAll [path] s = .ok [false] ∧
      (backend c).fetch? path s = .ok none ∧
      (backend c).entries [path] s = .ok [none]) ∧
    (life ≠ [] →
      (backend c).holdsAll [path] s = .ok [true] ∧
      (backend c).fetch? path s = .ok (some (contentSince p life)) ∧
      (backend c).entries [path] s =
        .ok [some (s.table.shown p ⟨contentSince p life, .ofTexts (metadataSince p life)⟩ true)]) ∧
    ∀ change : Change, ¬ change.Touches p →
      (backend c).holdsAll [path] (change.apply (backend c) s) = (backend c).holdsAll [path] s ∧
      (backend c).fetch? path (change.apply (backend c) s) = (backend c).fetch? path s ∧
      (backend c).entries [path] (change.apply (backend c) s) = (backend c).entries [path] s := by
  intro s ds life
  have hfile : filePath path = .ok p := filePath_eq_ok.mpr ⟨hpath, hroot⟩
  have htidy : s.table.Tidy := tidy_after changes .empty
  obtain ⟨hholds, hfetch, hentries⟩ := answers_of_get? (c := c) htidy hfile
  have hget : s.table.files.get? p = recorded p ds := get?_after c times changes p
  refine ⟨sinceMade_eq_nil, fun hlife => ?_, fun hlife => ?_, fun change hfree => ?_⟩
  · have hnone : s.table.files.get? p = none := hget.trans (if_pos hlife)
    rw [hholds, hfetch, hentries, hnone]
    exact ⟨rfl, rfl, rfl⟩
  · have hsome := hget.trans (if_neg hlife)
    rw [hholds, hfetch, hentries, hsome]
    exact ⟨rfl, rfl, rfl⟩
  · obtain ⟨hholds', hfetch', hentries'⟩ :=
      answers_of_get? (c := c) (tidy_apply (c := c) change htidy) hfile
    have hsame := Table.SameAt.apply (c := c) hfree htidy
    have hshown : (fun f => (change.apply (backend c) s).table.shown p f true) =
        fun f => s.table.shown p f true := funext fun f => hsame.shown f true
    rw [hholds', hfetch', hentries', hsame.1, hshown, hholds, hfetch, hentries]
    exact ⟨rfl, rfl, rfl⟩

def madeByAppend : List Change :=
  [.write (some "a/b") [1] false, .delete [some "a"], .write (some "a/b") [2] true,
    .write (some "a") [9] false, .annotate (some "a/b") (OrderedMap.empty.insert "k" "v"),
    .write (some "/a//b") [3] true]

theorem refines_history_madeByAppend :
    Path.normalize (Path.orRoot (some "a/./b")) = "a/b" ∧ "a/b" ≠ Path.root ∧
      sinceMade "a/b" (deeds (backend {}) .fresh madeByAppend) ≠ [] ∧
      (backend {}).fetch? (some "a/./b") (after (backend {}) .fresh madeByAppend) =
        .ok (some [2, 3]) := by
  have hpath : Path.normalize (Path.orRoot (some "a/./b")) = "a/b" := by decide
  have hroot : "a/b" ≠ Path.root := by decide
  have hcontent : contentSince "a/b" (sinceMade "a/b" (deeds (backend {}) .fresh madeByAppend)) =
      [2, 3] := by decide
  have hlife : sinceMade "a/b" (deeds (backend {}) .fresh madeByAppend) ≠ [] := by
    intro hnil
    rw [hnil] at hcontent
    simp [contentSince, contentOf] at hcontent
  obtain ⟨-, -, hthere, -⟩ := refines_history {} .still madeByAppend hpath hroot
  rw [← hcontent]
  exact ⟨hpath, hroot, hlife, (hthere hlife).2.1⟩

end Memory

end Depot.Storage
