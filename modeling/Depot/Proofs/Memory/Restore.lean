import Depot.Proofs.Json.Written
import Depot.Proofs.Memory.Capacity
import Depot.Proofs.Storage.Operation
import Mathlib.Data.List.Induction
import Mathlib.Logic.Function.Iterate

/-!
Snapshots of the in-memory store. A table that is saved and loaded into an empty store comes
back with its files, and its count is then the total. Loaded into the store that saved it, it
leaves the files as they are, but the total is counted once more. Stores live on through any
changes, saves and restarts; what every change keeps is also kept in the snapshot and in
whatever timers of earlier stores still save.
-/
namespace Depot.Storage.Memory

namespace Table

/-- The metadata of every file are texts that a caller attached. -/
def Texted (t : Table) : Prop :=
  ∀ k f, t.files.get? k = some f → ∃ m : Texts, f.metadata = .ofTexts m

def restored (t : Table) (times : Times String) : Table := ⟨t.files, t.total, times⟩

def redated (t t' : Table) : Times String :=
  t'.files.entries.foldl (fun times e => times.set e.1 (t'.times.last e.1)) t.times

variable {t t' : Table} {limit : Int} {path : String} {f : Stored} {file : SnapshotFile}
  {times : Times String}

theorem Texted.empty : (Table.empty times).Texted := fun k f hf => by simp [Table.empty] at hf

theorem Texted.write (h : t.Texted) (limit : Int) (path : String) (data : Bytes) (append : Bool) :
    ((Table.write limit path data append).runFrom t).2.Texted := by
  rcases write_cases h limit path data append with hsame | ⟨-, m, hput⟩
  · exact hsame.symm ▸ h
  · rw [hput]
    exact texts_insert h m rfl rfl

theorem Texted.delete (h : t.Texted) (path : String) : (t.delete path).Texted :=
  fun k f hf => h k f (get?_of_delete hf)

theorem Texted.setMetadata (h : t.Texted) (m : Texts)
    (hset : t.setMetadata path (.ofTexts m) = .ok t') : t'.Texted := by
  obtain ⟨f, -, rfl⟩ := setMetadata_eq_ok hset
  exact texts_insert h m rfl rfl

theorem redated_of_times_eq (h : t.times = t'.times) : t.redated t' = t.times := by
  unfold redated
  rw [h]
  induction t'.files.entries with
  | nil => rfl
  | cons e rest ih => rwa [List.foldl_cons, Times.set_last]

theorem stored?_ofStored {m : Texts} (hm : f.metadata = .ofTexts m) (path : String)
    (time : Calendar.Instant) : (Row.ofStored path f time).stored? = some (f, time) := by
  have hread : Json.read Json.usualDepth f.metadata.render = .ok f.metadata := by
    rw [hm]
    exact Json.read_ofTexts m
  simp [Row.stored?, Row.ofStored, Cell.content?, Stamp.instant?, hread, Except.toOption]

/-- Rows of files are added one after another. -/
theorem loadRows?_ofStored (l : List (String × Stored))
    (htexts : ∀ e ∈ l, ∃ m : Texts, e.2.metadata = .ofTexts m)
    (last : String → Calendar.Instant) (t : Table) :
    t.loadRows? (l.map fun e => .ofStored e.1 e.2 (last e.1)) =
      some ⟨l.foldl (fun files e => files.insert e.1 e.2) t.files,
        t.size + ((l.map fun e => e.2.content.length).sum : Nat),
        l.foldl (fun times e => times.set e.1 (last e.1)) t.times⟩ := by
  induction l generalizing t with
  | nil => simp [loadRows?]
  | cons e rest ih =>
    obtain ⟨m, hm⟩ := htexts e List.mem_cons_self
    have hrest := ih (fun x hx => htexts x (List.mem_cons_of_mem e hx))
        (t.addRow e.1 e.2 (last e.1))
    rw [List.map_cons, loadRows?, stored?_ofStored hm]
    change (t.addRow e.1 e.2 (last e.1)).loadRows? _ = _
    rw [hrest, Option.some.injEq, Table.mk.injEq]
    refine ⟨rfl, ?_, rfl⟩
    simp only [addRow, List.map_cons, List.sum_cons]
    omega

/-- Saved rows are written into what is there, and their sizes are added to its size. -/
theorem load_toRows (h : t'.Texted) (t : Table) :
    t.load (.rows t'.toRows) = ⟨t.files.update t'.files, t.size + t'.total, t.redated t'⟩ := by
  have htexts : ∀ e ∈ t'.files.entries, ∃ m : Texts, e.2.metadata = .ofTexts m :=
    fun e he => h e.1 e.2 (OrderedMap.get?_eq_some_iff.mpr he)
  rw [load, toRows, loadRows?_ofStored _ htexts, Option.getD_some, total_eq_weigh]
  rfl

theorem load_into_empty (h : t.Texted) (times : Times String) :
    (Table.empty times).load (.rows t.toRows) = t.restored ((Table.empty times).redated t) := by
  rw [load_toRows h, restored, Table.mk.injEq]
  exact ⟨OrderedMap.empty_update t.files, Int.zero_add _, rfl⟩

theorem load_into_self (h : t.Texted) :
    t.load (.rows t.toRows) = ⟨t.files, t.size + t.total, t.times⟩ := by
  rw [load_toRows h, OrderedMap.update_self, redated_of_times_eq rfl]

theorem Counted.restored (h : Counted limit t) (times : Times String) :
    Counted limit (t.restored times) where
  exact := rfl
  within hlimit := by
    have hwithin := h.within hlimit
    rwa [h.exact] at hwithin
  texts := h.texts

theorem Counted.restored_eq (h : Counted limit t) : t.restored t.times = t := by
  rw [Table.restored, ← h.exact]

end Table

open Table (Texted Counted)

/-- A property of tables that every change keeps, and that a restart keeps as well. -/
structure Durable (limit : Int) (P : Table → Prop) : Prop where
  empty : ∀ times, P (.empty times)
  texts : ∀ t, P t → t.Texted
  restored : ∀ t times, P t → P (t.restored times)
  write : ∀ t path data append, P t → Path.normalize path = path → path ≠ Path.root →
    P ((Table.write limit path data append).runFrom t).2
  delete : ∀ t path, P t → P (t.delete path)
  setMetadata : ∀ t t' path m, P t → t.setMetadata path (.ofTexts m) = .ok t' → P t'

theorem durable_texted (limit : Int) : Durable limit Texted where
  empty _ := .empty
  texts _ h := h
  restored _ _ h := h
  write _ path data append h _ _ := h.write limit path data append
  delete _ path h := h.delete path
  setMetadata _ _ _ m h hset := h.setMetadata m hset

theorem durable_counted (limit : Int) : Durable limit (Counted limit) where
  empty _ := .empty limit
  texts _ h := h.texts
  restored _ times h := h.restored times
  write _ path data append h _ _ := h.write path data append
  delete _ path h := h.delete path
  setMetadata _ _ _ m h hset := h.setMetadata m hset

def Saved (P : Table → Prop) (file : SnapshotFile) : Prop :=
  file = .absent ∨ ∃ t, P t ∧ file = .rows t.toRows

/-- A property holds of the table and of all that a store could be restored from. -/
structure Kept (P : Table → Prop) (s : State) : Prop where
  table : P s.table
  file : Saved P s.file
  timers : ∀ x ∈ s.timers, ∀ t, x.owner = .gone t → P t

/-- What can happen to a store and its snapshot. A restart gives the old store up, closed
or not, and opens a new one over its snapshot. -/
inductive Event
  | change (x : Change)
  | wait (seconds : Float)
  | init
  | close
  | restart (crash : Bool)

def Event.apply (c : Config) : Event → State → State
  | .change x, s => x.apply (backend c) s
  | .wait seconds, s => (s.advance c seconds).1
  | .init, s => s.opened c
  | .close, s => s.closed c
  | .restart crash, s => s.reopened c crash

/-- The state after some events, from the time a first store was opened. -/
def lived (c : Config) (times : Times String) (life : List Event) : State :=
  life.foldl (fun s e => e.apply c s) ((State.fresh times).opened c)

def State.resumed (c : Config) (s : State) : State := (s.closed c).opened c

def State.replaced (c : Config) (s : State) : State := s.reopened c false

variable {c : Config} {s s' : State} {P : Table → Prop} {t : Table} {file : SnapshotFile}
  {times : Times String}

theorem lived_concat (c : Config) (times : Times String) (life : List Event) (e : Event) :
    lived c times (life ++ [e]) = e.apply c (lived c times life) := by
  simp [lived]

namespace Saved

theorem save (h : Saved P file) (t : Table) : t.save file = .rows t.toRows := by
  rcases h with rfl | ⟨t', -, rfl⟩ <;> rfl

theorem saved (h : Saved P file) (ht : P t) : Saved P (t.save file) :=
  Or.inr ⟨t, ht, h.save t⟩

theorem load_into_empty (hP : Durable c.limit P) (h : Saved P file) (times : Times String) :
    P ((Table.empty times).load file) := by
  rcases h with rfl | ⟨t, ht, rfl⟩
  · exact hP.empty times
  · rw [Table.load_into_empty (hP.texts t ht)]
    exact hP.restored t _ ht

theorem load_texted (ht : t.Texted) (h : Saved Texted file) : (t.load file).Texted := by
  rcases h with rfl | ⟨t', ht', rfl⟩
  · exact ht
  · rw [Table.load_toRows ht']
    intro k f hf
    rcases OrderedMap.get?_update_cases hf with hf | hf
    · exact ht k f hf
    · exact ht' k f hf

end Saved

namespace State

theorem table_opened (hsnapshot : c.persistence = .snapshot) (s : State) :
    (s.opened c).table = s.table.load s.file := by
  simp only [opened, hsnapshot]
  split <;> rfl

theorem closed_eq (hsnapshot : c.persistence = .snapshot) (s : State) :
    s.closed c = s.stopped.save := by
  simp only [closed, hsnapshot]

end State

namespace Kept

theorem fresh (hP : Durable c.limit P) (times : Times String) : Kept P (.fresh times) where
  table := hP.empty times
  file := Or.inl rfl
  timers x hx := by cases hx

theorem tableOf (h : Kept P s) {x : Timer} (hx : x ∈ s.timers) : P (s.tableOf x.owner) := by
  cases howner : x.owner with
  | gone t => exact h.timers x hx t howner
  | _ => exact h.table

theorem change (hP : Durable c.limit P) (x : Change) (h : Kept P s) :
    Kept P (x.apply (backend c) s) := by
  refine x.preserves (P := Kept P) ?_ ?_ ?_ h
  · intro s p data append h hp hroot
    rw [runFrom_write]
    exact { h with table := hP.write s.table p data append h.table hp hroot }
  · intro s p h _
    rw [runFrom_delete]
    exact { h with table := hP.delete s.table p h.table }
  · intro s p m h _ _
    rw [runFrom_setMetadata]
    cases hset : s.table.setMetadata p (.ofTexts m) with
    | error e => exact h
    | ok t => exact { h with table := hP.setMetadata s.table t p m h.table hset }

theorem opened (hsnapshot : c.persistence = .snapshot) (h : Kept P s)
    (hload : P (s.table.load s.file)) : Kept P (s.opened c) := by
  simp only [State.opened, hsnapshot]
  split
  · refine ⟨hload, h.file, fun x hx t hgone => ?_⟩
    rcases List.mem_append.mp hx with hx | hx
    · obtain ⟨y, hy, rfl⟩ := List.mem_map.mp hx
      split at hgone
      · cases hgone
      · exact h.timers y hy t hgone
    · rw [List.mem_singleton.mp hx] at hgone
      cases hgone
  · exact ⟨hload, h.file, h.timers⟩

theorem stopped (h : Kept P s) : Kept P s.stopped :=
  ⟨h.table, h.file, fun x hx => h.timers x (List.mem_of_mem_filter hx)⟩

theorem closed (hsnapshot : c.persistence = .snapshot) (h : Kept P s) : Kept P (s.closed c) := by
  rw [State.closed_eq hsnapshot]
  exact ⟨h.table, h.file.saved h.table, h.stopped.timers⟩

/-- Timers save the table of their store, also when the store was given up. -/
theorem saved_due (h : Kept P s) {due : List Timer} (hdue : ∀ x ∈ due, x ∈ s.timers)
    (hfile : Saved P file) :
    Saved P (due.foldl (fun file x => (s.tableOf x.owner).save file) file) := by
  induction due generalizing file with
  | nil => exact hfile
  | cons x rest ih =>
    have hfirst := hfile.saved (h.tableOf (hdue x List.mem_cons_self))
    exact ih (fun y hy => hdue y (List.mem_cons_of_mem x hy)) hfirst

theorem advance (c : Config) (seconds : Float) (h : Kept P s) :
    Kept P (s.advance c seconds).1 := by
  refine ⟨h.table, h.saved_due (fun x hx => List.mem_of_mem_filter hx) h.file, ?_⟩
  intro x hx t hgone
  rcases List.mem_append.mp hx with hx | hx
  · exact h.timers x (List.mem_of_mem_filter hx) t hgone
  · obtain ⟨y, hy, rfl⟩ := List.mem_map.mp hx
    exact h.timers y (List.mem_of_mem_filter hy) t hgone

theorem reopened (hP : Durable c.limit P) (hsnapshot : c.persistence = .snapshot) (crash : Bool)
    (h : Kept P s) : Kept P (s.reopened c crash) := by
  have hleft : Kept P (if crash then s.stopped else s.closed c) := by
    split
    · exact h.stopped
    · exact h.closed hsnapshot
  refine opened hsnapshot ⟨hP.empty _, hleft.file, fun x hx t hgone => ?_⟩
    (hleft.file.load_into_empty hP _)
  obtain ⟨y, hy, rfl⟩ := List.mem_map.mp hx
  split at hgone
  · exact hleft.timers y hy t hgone
  · cases hgone
    exact hleft.table

/-- What every change keeps is kept by all that can happen, as long as what is saved is loaded
into new stores only. -/
theorem lived (hP : Durable c.limit P) (hsnapshot : c.persistence = .snapshot) (life : List Event)
    (hinit : .init ∈ life → ∀ t file, P t → Saved P file → P (t.load file)) :
    Kept P (lived c times life) := by
  induction life using List.reverseRecOn with
  | nil => exact opened hsnapshot (fresh hP times) (hP.empty times)
  | append_singleton life e ih =>
    have h := ih fun hmem => hinit (List.mem_append_left [e] hmem)
    rw [lived_concat]
    cases e with
    | change x => exact h.change hP x
    | wait seconds => exact h.advance c seconds
    | init =>
      have hload := hinit (List.mem_append_right life List.mem_cons_self)
      exact h.opened hsnapshot (hload _ _ h.table h.file)
    | close => exact h.closed hsnapshot
    | restart crash => exact h.reopened hP hsnapshot crash

end Kept

section Restarts

variable (hsnapshot : c.persistence = .snapshot)
include hsnapshot

/-- A new store has the files of the old one, whatever the old one counted. -/
theorem table_replaced (h : Kept Texted s) :
    (s.replaced c).table = s.table.restored s.table.times := by
  rw [State.replaced, State.reopened, State.table_opened hsnapshot, if_neg Bool.false_ne_true,
    State.closed_eq hsnapshot]
  change (Table.empty s.table.times).load (s.table.save s.file) = _
  have htimes : (Table.empty s.table.times).redated s.table = s.table.times :=
    Table.redated_of_times_eq rfl
  rw [h.file.save, Table.load_into_empty h.table, htimes]

/-- The same store counts its files once more. -/
theorem table_resumed (h : Kept Texted s) :
    (s.resumed c).table = ⟨s.table.files, s.table.size + s.table.total, s.table.times⟩ := by
  rw [State.resumed, State.table_opened hsnapshot, State.closed_eq hsnapshot]
  change s.table.load (s.table.save s.file) = _
  rw [h.file.save, Table.load_into_self h.table]

theorem kept_replaced (hP : Durable c.limit P) (h : Kept P s) : Kept P (s.replaced c) :=
  h.reopened hP hsnapshot false

theorem kept_resumed (h : Kept Texted s) : Kept Texted (s.resumed c) := by
  have hclosed := h.closed hsnapshot
  exact hclosed.opened hsnapshot (hclosed.file.load_texted hclosed.table)

theorem table_replaced_iterate (h : Kept Texted s) (n : Nat) :
    ((State.replaced c)^[n + 1] s).table = s.table.restored s.table.times := by
  induction n generalizing s with
  | zero => exact table_replaced hsnapshot h
  | succ n ih =>
    rw [Function.iterate_succ_apply, ih (kept_replaced hsnapshot (durable_texted c.limit) h),
      table_replaced hsnapshot h]
    rfl

theorem table_resumed_iterate (h : Kept Texted s) (n : Nat) :
    ((State.resumed c)^[n] s).table =
      ⟨s.table.files, s.table.size + n * s.table.total, s.table.times⟩ := by
  induction n generalizing s with
  | zero => simp
  | succ n ih =>
    rw [Function.iterate_succ_apply, ih (kept_resumed hsnapshot h), table_resumed hsnapshot h,
      Table.mk.injEq]
    refine ⟨rfl, ?_, rfl⟩
    change s.table.size + s.table.total + n * s.table.total = _
    rw [Nat.cast_succ, Int.add_mul, Int.one_mul]
    omega

end Restarts

def OfTable {α : Type} (a : Action State α) : Prop :=
  ∀ s s' : State, s.table = s'.table →
    (a.runFrom s).1 = (a.runFrom s').1 ∧ (a.runFrom s).2.table = (a.runFrom s').2.table

namespace OfTable

variable {α β : Type}

theorem bind {a : Action State α} {f : α → Action State β} (ha : OfTable a)
    (hf : ∀ x, OfTable (f x)) : OfTable (a >>= f) := by
  intro s s' hsame
  obtain ⟨hanswer, htable⟩ := ha s s' hsame
  rw [Action.runFrom_bind, Action.runFrom_bind]
  generalize a.runFrom s = outcome, a.runFrom s' = outcome' at hanswer htable
  obtain ⟨answer, s₁⟩ := outcome
  obtain ⟨answer', s₁'⟩ := outcome'
  obtain rfl : answer = answer' := hanswer
  cases answer with
  | ok x => exact hf x s₁ s₁' htable
  | error e => exact ⟨rfl, htable⟩

theorem pure (x : α) : OfTable (pure x) := fun _ _ hsame => ⟨rfl, hsame⟩

theorem ask {f : State → Except Fault α} (hf : ∀ s s', s.table = s'.table → f s = f s') :
    OfTable (Action.ask f) := by
  intro s s' hsame
  rw [Action.runFrom_ask, Action.runFrom_ask]
  exact ⟨hf s s' hsame, hsame⟩

theorem all {l : List (Action State Unit)} (hl : ∀ a ∈ l, OfTable a) : OfTable (Action.all l) := by
  induction l with
  | nil => exact pure ()
  | cons a rest ih =>
    intro s s' hsame
    obtain ⟨hfirst, htable⟩ := hl a List.mem_cons_self s s' hsame
    obtain ⟨hothers, hlast⟩ := ih (fun b hb => hl b (List.mem_cons_of_mem a hb)) _ _ htable
    rw [Action.runFrom_all_cons, Action.runFrom_all_cons, hfirst, hothers]
    exact ⟨rfl, hlast⟩

theorem change (x : Change) : OfTable (x.act (backend c)) := by
  have hpath : ∀ path, OfTable (Action.ask fun _ => filePath path) := fun _ => ask fun _ _ _ => rfl
  cases x with
  | write path data append =>
    refine (hpath path).bind fun p s s' hsame => ?_
    rw [runFrom_write, runFrom_write, hsame]
    exact ⟨rfl, rfl⟩
  | delete paths =>
    refine all fun a ha => ?_
    obtain ⟨path, -, rfl⟩ := List.mem_map.mp ha
    intro s s' hsame
    rw [runFrom_delete, runFrom_delete, hsame]
    exact ⟨rfl, rfl⟩
  | annotate path m =>
    refine (hpath path).bind fun p s s' hsame => ?_
    rw [runFrom_setMetadata, runFrom_setMetadata, hsame]
    cases s'.table.setMetadata p (.ofTexts m) with
    | ok t => exact ⟨rfl, rfl⟩
    | error e => exact ⟨rfl, hsame⟩

theorem operation (op : Operation) : OfTable (op.act (backend c)) := by
  cases op with
  | change x => exact (change x).bind fun _ => pure _
  | list o =>
    refine ask fun s s' hsame => ?_
    have hsource : (backend c).source s = (backend c).source s' := by
      funext o
      simp only [Backend.source, backend, hsame]
    rw [Backend.listReport, Backend.listReport, hsource]
  | fetch path =>
    refine ask fun s s' hsame => ?_
    have hread : (backend c).read s = (backend c).read s' := by simp only [backend, hsame]
    rw [Backend.fetch?, Backend.fetch?, hread]
  | presence paths =>
    refine ask fun s s' hsame => ?_
    have hholds : (backend c).holds s = (backend c).holds s' := by simp only [backend, hsame]
    rw [Backend.holdsAll, Backend.holdsAll, hholds]
  | entries paths =>
    refine ask fun s s' hsame => ?_
    have hentry : Backend.entry? (backend c) s = Backend.entry? (backend c) s' := by
      simp only [backend, hsame]
    rw [Backend.entries, Backend.entries, hentry]

end OfTable

/-- What a store answers from now on depends on its table. -/
theorem answers_of_table (hsame : s.table = s'.table) (ops : List Operation) :
    answers (backend c) s ops = answers (backend c) s' ops := by
  induction ops generalizing s s' with
  | nil => rfl
  | cons op rest ih =>
    obtain ⟨hanswer, htable⟩ := OfTable.operation op s s' hsame
    rw [answers_cons, answers_cons, hanswer, ih htable]

/-- A store with a snapshot comes back from it. After any changes, saves and restarts, a new
store over the snapshot of one that was closed has exactly the same files from the same times, and
its count is their total; the same store opened again has the same files too, but each round
counts them once more. As long as a snapshot is only loaded into new stores, the count is always
the total, and after any number of rounds every later operation is answered as if there had been
none. -/
theorem snapshot_restored (c : Config) (hsnapshot : c.persistence = .snapshot)
    (times : Times String) (life : List Event) :
    let s := lived c times life
    (∀ n, ((State.replaced c)^[n + 1] s).table = ⟨s.table.files, s.table.total, s.table.times⟩) ∧
    (∀ n, ((State.resumed c)^[n] s).table =
      ⟨s.table.files, s.table.size + n * s.table.total, s.table.times⟩) ∧
    (.init ∉ life →
      s.table.size = s.table.total ∧
      ∀ n ops, answers (backend c) ((State.replaced c)^[n] s) ops =
        answers (backend c) s ops) := by
  have htexted : Kept Texted (lived c times life) :=
    Kept.lived (durable_texted c.limit) hsnapshot life fun _ _ _ ht hfile => hfile.load_texted ht
  refine ⟨table_replaced_iterate hsnapshot htexted, table_resumed_iterate hsnapshot htexted,
    fun hnew => ?_⟩
  have hcounted : Kept (Counted c.limit) (lived c times life) :=
    Kept.lived (durable_counted c.limit) hsnapshot life fun hinit => absurd hinit hnew
  refine ⟨hcounted.table.exact, fun n ops => answers_of_table ?_ ops⟩
  cases n with
  | zero => rfl
  | succ n =>
    rw [table_replaced_iterate hsnapshot htexted, hcounted.table.restored_eq]

def fiveBytesSaved : Config := { limit := 5, persistence := .snapshot, interval := 0 }

def threeTaken : List Event := [.change (.write (some "a") [1, 2, 3] false)]

def twoMore : List Operation := [.change (.write (some "b") [4, 5] false)]

theorem snapshot_restored_threeTaken :
    fiveBytesSaved.persistence = .snapshot ∧ .init ∉ threeTaken ∧
      (lived fiveBytesSaved .still threeTaken).table.size = 3 ∧
      ((State.replaced fiveBytesSaved)^[2] (lived fiveBytesSaved .still threeTaken)).table.size =
        3 ∧
      answers (backend fiveBytesSaved)
        ((State.replaced fiveBytesSaved)^[2] (lived fiveBytesSaved .still threeTaken)) twoMore =
          [.ok .done] := by
  have hnew : Event.init ∉ threeTaken := by simp [threeTaken]
  obtain ⟨htable, -, hexact⟩ := snapshot_restored fiveBytesSaved rfl .still threeTaken
  obtain ⟨hsize, hanswers⟩ := hexact hnew
  refine ⟨rfl, hnew, hsize, ?_, ?_⟩
  · rw [htable 1]
    rfl
  · rw [hanswers 2 twoMore]
    rfl

/-- A store that is closed and opened again with the same files refuses what it had room for
before. -/
theorem counted_twice :
    let s := lived fiveBytesSaved .still threeTaken
    s.table.size = 3 ∧ (s.resumed fiveBytesSaved).table.files = s.table.files ∧
      (s.resumed fiveBytesSaved).table.total = 3 ∧ (s.resumed fiveBytesSaved).table.size = 6 ∧
      answers (backend fiveBytesSaved) s twoMore = [.ok .done] ∧
      answers (backend fiveBytesSaved) (s.resumed fiveBytesSaved) twoMore =
        [.error (.overfull 2 6 5)] :=
  ⟨rfl, rfl, rfl, rfl, rfl, rfl⟩

end Depot.Storage.Memory
