import Depot.Proofs.Memory.Restore

/-!
Deletes of many paths at once. A delete takes away the files that its paths cover and leaves
the others in their order, and the count is the total of what is left. What is left depends on
which paths are given and on nothing else, so the deletes may be made in any order, any number
of times and in any groups. All of this needs a table in which no file lies under another and
whose count is exact; a snapshot that is loaded over files that are there can break both.
-/
namespace Depot.Storage.Memory

def covered (taken : List String) (k : String) : Bool :=
  taken.any fun p => k = p || Path.isUnder k p

/-- A given path, however it is spelled, names a file or something above it. -/
def Covers (path : Option String) (k : String) : Prop :=
  Path.normalize (Path.orRoot path) = k ∨ Path.isUnder k (Path.normalize (Path.orRoot path)) = true

def normalized (paths : List (Option String)) : List String :=
  paths.map fun p => Path.normalize (Path.orRoot p)

variable {paths : List (Option String)} {taken taken' : List String} {k : String}

theorem covered_append (taken taken' : List String) (k : String) :
    covered (taken ++ taken') k = (covered taken k || covered taken' k) :=
  List.any_append

/-- Only which paths there are matters. -/
theorem covered_congr (h : ∀ p, p ∈ taken ↔ p ∈ taken') : covered taken = covered taken' := by
  funext k
  rw [Bool.eq_iff_iff, covered, covered, List.any_eq_true, List.any_eq_true]
  exact exists_congr fun p => and_congr_left fun _ => h p

theorem covered_normalized : covered (normalized paths) k = true ↔ ∃ p ∈ paths, Covers p k := by
  simp only [covered, normalized, List.any_map, List.any_eq_true, Function.comp_apply,
    Bool.or_eq_true, decide_eq_true_eq, Covers, eq_comm (a := k)]

namespace Table

def without (t : Table) (taken : List String) : Table :=
  restored { t with files := t.files.filter (fun k _ => !covered taken k) } t.times

variable {t t' : Table} {limit : Int} {path : String} {f : Stored}

theorem get?_without (taken : List String) (t : Table) (k : String) :
    (t.without taken).files.get? k = if covered taken k then none else t.files.get? k := by
  have hfilter := OrderedMap.get?_filter_keys t.files (fun k => !covered taken k) k
  refine hfilter.trans ?_
  cases covered taken k <;> rfl

/-- A table that counts exactly is known by its files. -/
theorem eq_restored (hfiles : t.files = t'.files) (hexact : t.size = t.total) :
    t = t'.restored t.times := by
  have htotal : t.total = t'.total := by rw [total, total, hfiles]
  rw [restored, ← hfiles, ← htotal, ← hexact]

theorem without_nil (hexact : t.size = t.total) : t.without [] = t := by
  refine (eq_restored ?_ hexact).symm
  exact (OrderedMap.ext (List.filter_eq_self.mpr fun _ _ => rfl)).symm

theorem without_without (t : Table) (taken taken' : List String) :
    (t.without taken).without taken' = t.without (taken ++ taken') := by
  refine eq_restored ?_ rfl
  refine OrderedMap.ext ((List.filter_filter ..).trans (List.filter_congr fun e _ => ?_))
  dsimp only
  rw [covered_append, Bool.not_or, Bool.and_comm]

theorem files_removeAll (paths : List String) (t : Table) :
    (paths.foldl remove t).files = t.files.filter fun k _ => !paths.contains k := by
  induction paths generalizing t with
  | nil => exact (OrderedMap.ext (List.filter_eq_self.mpr fun _ _ => rfl)).symm
  | cons p rest ih =>
    rw [List.foldl_cons, ih]
    refine OrderedMap.ext ((List.filter_filter ..).trans (List.filter_congr fun e _ => ?_))
    dsimp only
    rw [List.contains_cons, Bool.not_or, Bool.and_comm, decide_not, beq_eq_decide]

/-- Of a tidy table a file takes nothing else along, so both ways to delete come to one. -/
theorem Tidy.files_delete (h : t.Tidy) (path : String) :
    (t.delete path).files = t.files.filter fun k _ => !covered [path] k := by
  unfold Table.delete
  cases hcontains : t.files.contains path with
  | true =>
    obtain ⟨f, hf⟩ := OrderedMap.contains_iff.mp hcontains
    refine OrderedMap.ext (List.filter_congr fun e he => ?_)
    have hnot : Path.isUnder e.1 path = false := by
      by_contra hunder
      exact h.apart path f hf ⟨e.1, e.2, OrderedMap.get?_eq_some_iff.mpr he, by simpa using hunder⟩
    simp [covered, hnot]
  | false =>
    have hnew : path ∉ t.files.keys := by
      rw [← OrderedMap.get?_eq_none_iff]
      simpa [OrderedMap.contains] using hcontains
    rw [if_neg Bool.false_ne_true, files_removeAll]
    refine OrderedMap.ext (List.filter_congr fun e he => congrArg (!·) ?_)
    have hmem : e.1 ∈ t.files.keys := List.mem_map_of_mem he
    have hne : e.1 ≠ path := fun heq => hnew (heq ▸ hmem)
    simp [covered, hne, hmem]

/-- What bulk deletes rely on: no file lies under another, and the count is exact. -/
structure Sound (limit : Int) (t : Table) : Prop where
  tidy : t.Tidy
  counted : Counted limit t

theorem Sound.delete (h : Sound limit t) (path : String) : Sound limit (t.delete path) :=
  ⟨h.tidy.delete path, h.counted.delete path⟩

/-- One delete after another takes away what all of them cover. -/
theorem Sound.deleteAll (h : Sound limit t) (taken : List String) :
    taken.foldl Table.delete t = t.without taken ∧ Sound limit (t.without taken) := by
  induction taken generalizing t with
  | nil =>
    rw [without_nil h.counted.exact]
    exact ⟨rfl, h⟩
  | cons p rest ih =>
    have hfirst : t.delete p = t.without [p] := by
      rw [without, ← times_delete t p]
      exact eq_restored (h.tidy.files_delete p) (h.delete p).counted.exact
    have hrest := ih (h.delete p)
    rw [hfirst, without_without] at hrest
    rw [List.foldl_cons, hfirst]
    exact hrest

end Table

open Table (Sound)

/-- Every change keeps the layout and the count, and so do snapshots. -/
theorem durable_sound (limit : Int) : Durable limit (Sound limit) where
  empty _ := ⟨.empty, .empty limit⟩
  texts _ h := h.tidy.texts
  restored _ times h := ⟨h.tidy.of_sub fun _ _ hf => hf, h.counted.restored times⟩
  write _ path data append h hp hroot :=
    ⟨h.tidy.write limit hp hroot data append, h.counted.write path data append⟩
  delete _ path h := h.delete path
  setMetadata _ _ _ m h hset := ⟨h.tidy.setMetadata m hset, h.counted.setMetadata m hset⟩

variable {c : Config} {s : State} {P : Table → Prop} {times : Times String}

/-- Whether there are snapshots or not, what every change keeps is kept as long as a snapshot is
loaded into new stores only, or the load keeps it as well. -/
theorem Kept.lived_always (hP : Durable c.limit P) (life : List Event)
    (hinit : c.persistence = .snapshot → .init ∈ life →
      ∀ t file, P t → Saved P file → P (t.load file)) :
    Kept P (Memory.lived c times life) := by
  cases hpersistence : c.persistence with
  | snapshot => exact Kept.lived hP hpersistence life (hinit hpersistence)
  | none =>
    -- Opening and closing touch no table here, and only timers that are left over could save.
    have hopened : ∀ s : State, s.opened c = s := fun s => by simp only [State.opened, hpersistence]
    have hclosed : ∀ s : State, s.closed c = s.stopped := fun s => by
      simp only [State.closed, hpersistence]
    induction life using List.reverseRecOn with
    | nil =>
      rw [Memory.lived, List.foldl_nil, hopened]
      exact .fresh hP times
    | append_singleton life e ih =>
      have h := ih fun hsnapshot => absurd (hpersistence.symm.trans hsnapshot) (by decide)
      rw [lived_concat]
      cases e with
      | change x => exact h.change hP x
      | wait seconds => exact h.advance c seconds
      | init =>
        rw [Event.apply, hopened]
        exact h
      | close =>
        rw [Event.apply, hclosed]
        exact h.stopped
      | restart crash =>
        rw [Event.apply, State.reopened, hopened, hclosed, ite_self]
        refine ⟨hP.empty _, h.file, fun x hx t hgone => ?_⟩
        obtain ⟨y, hy, rfl⟩ := List.mem_map.mp hx
        split at hgone
        · exact h.stopped.timers y hy t hgone
        · cases hgone
          exact h.table

theorem Kept.lived_new (hP : Durable c.limit P) (life : List Event)
    (hnew : c.persistence = .none ∨ .init ∉ life) : Kept P (Memory.lived c times life) :=
  Kept.lived_always hP life fun hsnapshot hinit =>
    hnew.elim (fun hnone => absurd (hnone.symm.trans hsnapshot) (by decide)) (absurd hinit)

theorem answer_delete (paths : List (Option String)) (s : State) :
    (((Change.delete paths).act (backend c)).runFrom s).1 = .ok () := by
  induction paths generalizing s with
  | nil => rfl
  | cons p rest ih =>
    rw [Change.act, Backend.deleteAll, List.map_cons, Action.runFrom_all_cons, runFrom_delete]
    exact ih _

/-- A bulk delete leaves the files that its paths do not cover. -/
theorem apply_deleteAll (h : Sound c.limit s.table) (paths : List (Option String)) :
    (Change.delete paths).apply (backend c) s =
      { s with table := s.table.without (normalized paths) } := by
  have hfold : ∀ (taken : List String) (s : State),
      taken.foldl (fun s p => (((backend c).delete p).runFrom s).2) s =
        { s with table := taken.foldl Table.delete s.table } := by
    intro taken
    induction taken with
    | nil => exact fun _ => rfl
    | cons p rest ih =>
      intro s
      rw [List.foldl_cons, runFrom_delete, ih]
      rfl
  rw [Change.apply_delete, hfold, ← (h.deleteAll (normalized paths)).1]
  rfl

/-- Bulk deletes one after another leave what one delete of all their paths leaves. -/
theorem after_deletes (h : Sound c.limit s.table) (parts : List (List (Option String))) :
    after (backend c) s (parts.map .delete) =
      { s with table := s.table.without (normalized parts.flatten) } := by
  induction parts generalizing s with
  | nil =>
    change s = { s with table := s.table.without [] }
    rw [Table.without_nil h.counted.exact]
  | cons paths rest ih =>
    have hsound := (h.deleteAll (normalized paths)).2
    change after (backend c) ((Change.delete paths).apply (backend c) s) (rest.map .delete) = _
    rw [apply_deleteAll h, ih hsound, Table.without_without, List.flatten_cons, normalized,
      normalized, normalized, List.map_append]

/-- In any state of a store whose snapshots, if there are any, are loaded into new stores only, a
bulk delete of any paths answers without error and changes nothing but the table. It leaves
exactly the files that no given path covers, as they were and in their order, and the count is the
total of these. Any other bulk deletes, one after another, that give the same paths together leave
the same state, whatever the order, the spelling, the groups and the repetitions; so do the two
halves of the paths in either order. -/
theorem deletes_commute (c : Config) (times : Times String) (life : List Event)
    (hnew : c.persistence = .none ∨ .init ∉ life) (paths : List (Option String)) :
    let b := backend c
    let s := lived c times life
    let left := (Change.delete paths).apply b s
    (((Change.delete paths).act b).runFrom s).1 = .ok () ∧
    left = { s with table := left.table } ∧
    (∀ k f, left.table.files.get? k = some f ↔
      s.table.files.get? k = some f ∧ ¬ ∃ p ∈ paths, Covers p k) ∧
    left.table.files.entries.Sublist s.table.files.entries ∧
    left.table.size = left.table.total ∧
    (∀ parts : List (List (Option String)),
      (∀ p, p ∈ normalized parts.flatten ↔ p ∈ normalized paths) →
        after b s (parts.map .delete) = left) ∧
    ∀ front back, front ++ back = paths →
      after b s [.delete front, .delete back] = left ∧
      after b s [.delete back, .delete front] = left := by
  intro b s left
  have hsound : Sound c.limit s.table := (Kept.lived_new (durable_sound c.limit) life hnew).table
  have hleft : left = { s with table := s.table.without (normalized paths) } :=
    apply_deleteAll hsound paths
  have hsame : ∀ parts : List (List (Option String)),
      (∀ p, p ∈ normalized parts.flatten ↔ p ∈ normalized paths) →
        after b s (parts.map .delete) = left := by
    intro parts hparts
    rw [after_deletes hsound, hleft, Table.without, Table.without, covered_congr hparts]
  refine ⟨answer_delete paths s, ?_, fun k f => ?_, ?_, ?_, hsame, fun front back hhalves => ?_⟩
  · rw [hleft]
  · rw [hleft, Table.get?_without, ← covered_normalized]
    cases covered (normalized paths) k <;> simp
  · rw [hleft]
    exact List.filter_sublist
  · rw [hleft]
    exact (hsound.deleteAll (normalized paths)).2.counted.exact
  · subst hhalves
    refine ⟨hsame [front, back] fun p => ?_, hsame [back, front] fun p => ?_⟩
    · simp [normalized]
    · simp [normalized, or_comm]

def comeBack : List Event :=
  [.change (.write (some "a/b") [1] false), .change (.write (some "a/c/d") [2, 3] false),
    .restart false, .change (.write (some "ab") [4] false)]

theorem deletes_commute_comeBack :
    .init ∉ comeBack ∧
      (∃ f, (after (backend { persistence := .snapshot })
        (lived { persistence := .snapshot } .still comeBack)
        [.delete [some "./ab"], .delete [some "a//c/"]]).table.files.get? "a/b" = some f) ∧
      ∀ f, (after (backend { persistence := .snapshot })
        (lived { persistence := .snapshot } .still comeBack)
        [.delete [some "./ab"], .delete [some "a//c/"]]).table.files.get? "a/c/d" ≠ some f := by
  have hnew : Event.init ∉ comeBack := by simp [comeBack]
  obtain ⟨-, -, hget, -, -, -, hhalves⟩ :=
    deletes_commute { persistence := .snapshot } .still comeBack (.inr hnew)
      [some "a//c/", some "./ab"]
  obtain ⟨-, hswapped⟩ := hhalves [some "a//c/"] [some "./ab"] rfl
  rw [hswapped]
  refine ⟨hnew, ⟨⟨[1], .ofTexts .empty⟩, (hget _ _).mpr ⟨by rfl, ?_⟩⟩, fun f hf => ?_⟩
  · unfold Covers
    decide
  · have hcovers : ∃ p ∈ [some "a//c/", some "./ab"], Covers p "a/c/d" := by
      unfold Covers
      decide
    exact ((hget _ _).mp hf).2 hcovers

def loadedTwice : State := lived fiveBytesSaved .still (threeTaken ++ [.close, .init])

def loadedOver : State :=
  lived fiveBytesSaved .still [.change (.write (some "a") [1] false), .close,
    .change (.delete [some "a"]), .change (.write (some "a/b") [2] false), .init]

/-- A store that loads a snapshot over its own files goes on counting bytes after the last file
is deleted, and refuses others for them; and where that put a file above another, a delete
spares the lower one, which the same delete made twice takes away. -/
theorem deletes_after_reload :
    ((Change.delete [some "a"]).apply (backend fiveBytesSaved) loadedTwice).table.total = 0 ∧
    ((Change.delete [some "a"]).apply (backend fiveBytesSaved) loadedTwice).table.size = 3 ∧
    answers (backend fiveBytesSaved) loadedTwice
        [.change (.delete [some "a"]), .change (.write (some "b") [4, 5, 6] false)] =
      [.ok .done, .error (.overfull 3 3 5)] ∧
    ((Change.delete [some "a"]).apply (backend fiveBytesSaved) loadedOver).table.files.keys =
      ["a/b"] ∧
    ((Change.delete [some "a", some "a"]).apply (backend fiveBytesSaved)
      loadedOver).table.files.keys = [] :=
  ⟨by rfl, by rfl, by rfl, by rfl, by rfl⟩

end Depot.Storage.Memory
