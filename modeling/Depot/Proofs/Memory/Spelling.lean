import Depot.Proofs.Listing.Origin
import Depot.Proofs.Memory.Recursion
import Depot.Proofs.Storage.Spelling

/-!
Spelling and the in-memory store. How callers write their paths makes no difference to it, and
the paths that it shows are spelled in the one way that leads back to the same entries.
-/
namespace Depot.Storage.Memory

open Listing (Options Plan)

variable {c : Config} {s : State} {o : Options} {es : List Entry} {e : Entry}

theorem withMetadata_callOptions (p : Plan) :
    p.callOptions.withMetadata = p.options.withMetadata := by
  unfold Plan.callOptions
  split <;> rfl

/-- A file that a listing shows is a file of the table. -/
theorem exists_of_list (h : s.table.Tidy) (hlist : ((backend c).listReport s o).answer = .ok es)
    (he : e ∈ es) (hfile : e.isFile = true) :
    ∃ k f, s.table.files.get? k = some f ∧ e = s.table.shown k f o.withMetadata := by
  obtain ⟨-, folder, level, hreply, hmem⟩ := Listing.drawn_of_list hlist he
  have hview : level = s.table.view
      (c.hierarchical && (Plan.ofOptions c.hierarchical o).callOptions.recurse) folder
      (Plan.ofOptions c.hierarchical o).callOptions := by
    have hlevel := (Table.level_eq h).symm.trans hreply
    split at hlevel
    · exact (Except.ok.inj hlevel).symm
    · cases hlevel
  rw [hview, Table.mem_view] at hmem
  rcases hmem with ⟨q, -, -, -, rfl⟩ | ⟨k, f, hf, -, rfl, -⟩
  · simp [Entry.isFile, Entry.plain, Entry.make] at hfile
  · exact ⟨k, f, hf, by rw [withMetadata_callOptions]; rfl⟩

/-- A file that is listed with its metadata is found again under the path that is shown. -/
theorem entries_of_list (h : s.table.Tidy) (hmetadata : o.withMetadata = true)
    (hlist : ((backend c).listReport s o).answer = .ok es) (he : e ∈ es)
    (hfile : e.isFile = true) : (backend c).entries [some e.path] s = .ok [some e] := by
  obtain ⟨k, f, hf, rfl⟩ := exists_of_list h hlist he hfile
  rw [hmetadata, Table.path_shown h hf]
  refine entries_singleton (filePath_eq_ok.mpr (h.normal k f hf)) ?_
  change s.table.entry? k = _
  rw [Table.entry?_eq h, hf]
  rfl

theorem answer_list {folder : Option String} {r : Listing.Request}
    (hoptions : Options.ofRequest? { r with folder := Path.orRoot folder } = .ok o) :
    (((Command.list folder r).act (backend c)).runFrom s).1 =
      ((backend c).listReport s o).answer.map .listing := by
  rw [Command.runFrom_act]
  simp only [Command.operation?, hoptions, Except.map, Operation.act, Action.runFrom_ask]

/-- A listing that answers was asked for rightly. -/
theorem options_of_answer {folder : Option String} {r : Listing.Request}
    (hlist : (((Command.list folder r).act (backend c)).runFrom s).1 = .ok (.listing es)) :
    ∃ o, Options.ofRequest? { r with folder := Path.orRoot folder } = .ok o ∧
      ((backend c).listReport s o).answer = .ok es := by
  cases hoptions : Options.ofRequest? { r with folder := Path.orRoot folder } with
  | error f =>
    rw [Command.runFrom_act] at hlist
    simp [Command.operation?, hoptions, Except.map] at hlist
  | ok o =>
    refine ⟨o, rfl, ?_⟩
    rw [answer_list hoptions] at hlist
    cases hanswer : ((backend c).listReport s o).answer with
    | error f => simp [hanswer, Except.map] at hlist
    | ok shown => simpa [hanswer, Except.map] using hlist

theorem withMetadata_ofRequest? {r : Listing.Request} (hoptions : Options.ofRequest? r = .ok o) :
    o.withMetadata = r.withMetadata := by
  unfold Options.ofRequest? at hoptions
  repeat' split at hoptions
  all_goals cases hoptions
  rfl

/-- Two courses of operations that differ only in how their paths are spelled give the same
answers and go through the same states, whatever the store holds at first and whatever is
refused; only the refusal of the root quotes the path as it was given. Every path in an answer
stands in normal form. And at any time after an empty start, a file that is listed with its
metadata, whatever the listing is narrowed to, is the entry that its path leads to. -/
theorem spelling_irrelevant (c : Config) :
    (∀ s cmds cmds', List.Forall₂ Command.Respelled cmds cmds' →
      List.Forall₂ (fun x y => Alike x.1 y.1 ∧ x.2 = y.2)
        (course (backend c) s cmds) (course (backend c) s cmds')) ∧
    (∀ s cmds, ∀ x ∈ course (backend c) s cmds, ∀ answer, x.1 = .ok answer →
      ∀ e ∈ answer.shown, Path.normalize e.path = e.path) ∧
    ∀ (s : State) (times : Times String), s.table = .empty times →
      ∀ cmds, ∀ x ∈ course (backend c) s cmds,
      ∀ folder r es, r.withMetadata = true →
        (((Command.list folder r).act (backend c)).runFrom x.2).1 = .ok (.listing es) →
        ∀ e ∈ es, e.isFile = true →
          (((Command.entries [some e.path]).act (backend c)).runFrom x.2).1 =
            .ok (.entries [some e]) := by
  refine ⟨fun s cmds cmds' h => course_respelled h s, fun _ _ _ _ _ _ e _ => e.path_normal, ?_⟩
  intro s times hempty cmds x hx folder r es hmetadata hlist e he hfile
  have htidy : x.2.table.Tidy :=
    course_preserves (P := fun s : State => s.table.Tidy) (fun change _ h => tidy_apply change h)
      cmds (hempty ▸ Table.Tidy.empty) x hx
  obtain ⟨o, hoptions, hanswer⟩ := options_of_answer hlist
  have hfound := entries_of_list htidy
    ((withMetadata_ofRequest? hoptions).trans hmetadata) hanswer he hfile
  rw [Command.runFrom_act]
  simp only [Command.operation?, Operation.runFrom_entries, hfound]
  rfl

def everyFile : Listing.Request := { recurse := true, withMetadata := true }

def neat : List Command :=
  [.change (.write (some "a/b") [1] false), .fetch none, .list (some "a") everyFile]

def careless : List Command :=
  [.change (.write (some "/a//./b") [1] false), .fetch (some "a/.."),
    .list (some "c/../a/") everyFile]

theorem spelling_irrelevant_careless :
    List.Forall₂ (fun x y => Alike x.1 y.1 ∧ x.2 = y.2)
        (course (backend {}) .fresh neat) (course (backend {}) .fresh careless) ∧
      ∃ x ∈ course (backend {}) .fresh neat, ∃ es e,
        (((Command.list (some "a") everyFile).act (backend {})).runFrom x.2).1 =
          .ok (.listing es) ∧ e ∈ es ∧ e.isFile = true ∧ e.path = "a/b" ∧
        (((Command.entries [some e.path]).act (backend {})).runFrom x.2).1 =
          .ok (.entries [some e]) := by
  obtain ⟨hcourse, -, hfound⟩ := spelling_irrelevant {}
  have hrespelled : List.Forall₂ Command.Respelled neat careless :=
    .cons (.change (.write (by decide) _ _)) (.cons (.fetch (by decide))
      (.cons (.list (by decide) _) .nil))
  refine ⟨hcourse .fresh neat careless hrespelled, ?_⟩
  let write : Command := .change (.write (some "a/b") [1] false)
  have hfirst : (write.act (backend {})).runFrom .fresh ∈ course (backend {}) .fresh neat :=
    List.mem_cons_self
  generalize houtcome : (write.act (backend {})).runFrom .fresh = x at hfirst
  have hstate : x.2 = Change.apply (backend {}) (.write (some "a/b") [1] false) .fresh :=
    houtcome ▸ Command.state_act write
  have htidy : x.2.table.Tidy := hstate ▸ tidy_apply _ Table.Tidy.empty
  have hfile : x.2.table.files.get? "a/b" = some ⟨[1], .empty⟩ := by
    rw [hstate]
    rfl
  obtain ⟨o, hoptions, hrecurse, hlimit, hfilter, hfolder, hnames⟩ : ∃ o,
      Options.ofRequest? { everyFile with folder := Path.orRoot (some "a") } = .ok o ∧
        o.recurse = true ∧ o.limit = none ∧ o.filter = none ∧ o.folder = Path.normalize "a" ∧
          o.filePrefix = none := ⟨_, rfl, rfl, rfl, rfl, rfl, rfl⟩
  obtain ⟨es, hanswer, -, hmem⟩ := listed (c := {}) htidy hrecurse hlimit
    (fun test htest => by rw [hfilter] at htest; cases htest)
  let e := x.2.table.shown "a/b" ⟨[1], .empty⟩ o.withMetadata
  have he : e ∈ es := by
    refine (hmem e).mpr ⟨?_, Or.inr ⟨"a/b", _, hfile, ?_, rfl⟩⟩
    · simp [Options.passes, Options.accepts, Options.isMatch, Options.prefixPasses, hfilter, hnames]
    · rw [hfolder]
      decide
  have hlist : (((Command.list (some "a") everyFile).act (backend {})).runFrom x.2).1 =
      .ok (.listing es) := by
    rw [answer_list hoptions, hanswer]
    rfl
  exact ⟨x, hfirst, es, e, hlist, he, rfl, Table.path_shown htidy hfile _,
    hfound .fresh _ rfl neat x hfirst (some "a") everyFile es rfl hlist e he rfl⟩

end Depot.Storage.Memory
