import Depot.Proofs.Storage.Operation

/-!
Paths that are spelled in different ways. A storage reads a path as its normal form before it
does anything else, so callers who spell the same paths differently get the same answers and
leave the same state. Only a path that is refused for being the root is quoted as it was given.
-/
namespace Depot.Storage

def SamePath (path path' : Option String) : Prop :=
  Path.normalize (Path.orRoot path) = Path.normalize (Path.orRoot path')

instance (path path' : Option String) : Decidable (SamePath path path') :=
  inferInstanceAs (Decidable (_ = _))

def rootRefused (path : Option String) : Fault :=
  .invalidPath path "a file path cannot be the root folder"

/-- The same answer or the same failure, up to how a path that was refused is spelled. -/
inductive Alike {α : Type} : Except Fault α → Except Fault α → Prop
  | same (x : Except Fault α) : Alike x x
  | root {path path' : Option String} (hsame : SamePath path path')
      (hroot : Path.normalize (Path.orRoot path) = Path.root) :
      Alike (.error (rootRefused path)) (.error (rootRefused path'))

def Answer.shown : Answer → List Entry
  | .entries found => found.filterMap id
  | .listing shown => shown
  | _ => []

inductive Command
  | change (c : Change)
  | fetch (path : Option String)
  | presence (paths : List (Option String))
  | entries (paths : List (Option String))
  | list (folder : Option String) (r : Listing.Request)

inductive Change.Respelled : Change → Change → Prop
  | write {path path' : Option String} (h : SamePath path path') (data : Bytes) (append : Bool) :
      Respelled (.write path data append) (.write path' data append)
  | delete {paths paths' : List (Option String)} (h : List.Forall₂ SamePath paths paths') :
      Respelled (.delete paths) (.delete paths')
  | annotate {path path' : Option String} (h : SamePath path path') (m : Texts) :
      Respelled (.annotate path m) (.annotate path' m)

inductive Command.Respelled : Command → Command → Prop
  | change {c c' : Change} (h : c.Respelled c') : Respelled (.change c) (.change c')
  | fetch {path path' : Option String} (h : SamePath path path') :
      Respelled (.fetch path) (.fetch path')
  | presence {paths paths' : List (Option String)} (h : List.Forall₂ SamePath paths paths') :
      Respelled (.presence paths) (.presence paths')
  | entries {paths paths' : List (Option String)} (h : List.Forall₂ SamePath paths paths') :
      Respelled (.entries paths) (.entries paths')
  | list {folder folder' : Option String} (h : SamePath folder folder') (r : Listing.Request) :
      Respelled (.list folder r) (.list folder' r)

def Command.operation? : Command → Except Fault Operation
  | .change c => .ok (.change c)
  | .fetch path => .ok (.fetch path)
  | .presence paths => .ok (.presence paths)
  | .entries paths => .ok (.entries paths)
  | .list folder r =>
    (Listing.Options.ofRequest? { r with folder := Path.orRoot folder }).map .list

variable {σ : Type} {b : Backend σ} {s : σ}

def Command.act (b : Backend σ) (cmd : Command) : Action σ Answer := do
  let op ← Action.ask fun _ => cmd.operation?
  op.act b

def course (b : Backend σ) : σ → List Command → List (Except Fault Answer × σ)
  | _, [] => []
  | s, cmd :: rest =>
    let outcome := (cmd.act b).runFrom s
    outcome :: course b outcome.2 rest

theorem course_cons (b : Backend σ) (s : σ) (cmd : Command) (rest : List Command) :
    course b s (cmd :: rest) =
      (cmd.act b).runFrom s :: course b ((cmd.act b).runFrom s).2 rest := rfl

/-! One command. -/

theorem Command.runFrom_act (b : Backend σ) (cmd : Command) (s : σ) :
    (cmd.act b).runFrom s =
      match cmd.operation? with
      | .ok op => (op.act b).runFrom s
      | .error e => (.error e, s) := by
  unfold Command.act
  rw [Action.runFrom_bind, Action.runFrom_ask]
  cases cmd.operation? <;> rfl

namespace Alike

variable {α β : Type} {x y : Except Fault α}

theorem bind (h : Alike x y) (f : α → Except Fault β) : Alike (x >>= f) (y >>= f) := by
  cases h with
  | same => exact .same _
  | root hsame hroot => exact .root hsame hroot

theorem map (h : Alike x y) (f : α → β) : Alike (x.map f) (y.map f) := by
  cases h with
  | same => exact .same _
  | root hsame hroot => exact .root hsame hroot

end Alike

variable {path path' : Option String} {paths paths' : List (Option String)}

theorem filePath_alike (h : SamePath path path') : Alike (filePath path) (filePath path') := by
  unfold filePath
  dsimp only
  rw [← h]
  split
  · rename_i hroot
    exact .root h hroot
  · exact .same _

theorem mapM_filePath_alike (h : List.Forall₂ SamePath paths paths') :
    Alike (paths.mapM filePath) (paths'.mapM filePath) := by
  induction h with
  | nil => exact .same _
  | @cons path path' rest rest' hpath _ ih =>
    rw [List.mapM_cons, List.mapM_cons]
    have hfirst := filePath_alike hpath
    generalize filePath path = first, filePath path' = first' at hfirst ⊢
    cases hfirst with
    | same =>
      cases first with
      | error e => exact .same _
      | ok p => exact ih.bind _
    | root hsame hroot => exact .root hsame hroot

theorem fetch?_alike (h : SamePath path path') : Alike (b.fetch? path s) (b.fetch? path' s) :=
  (filePath_alike h).bind _

theorem holdsAll_alike (h : List.Forall₂ SamePath paths paths') :
    Alike (b.holdsAll paths s) (b.holdsAll paths' s) :=
  (mapM_filePath_alike h).bind _

theorem entries_alike (h : List.Forall₂ SamePath paths paths') :
    Alike (b.entries paths s) (b.entries paths' s) :=
  (mapM_filePath_alike h).bind _

/-- The folder of a request matters by its normal form only. -/
theorem ofRequest?_respelled (r : Listing.Request) (h : SamePath path path') :
    Listing.Options.ofRequest? { r with folder := Path.orRoot path } =
      Listing.Options.ofRequest? { r with folder := Path.orRoot path' } := by
  have hfolder : ∀ folder, Listing.Options.ofRequest? { r with folder := folder } =
      (Listing.Options.ofRequest? { r with folder := Path.root }).map (·.inFolder folder) := by
    intro folder
    unfold Listing.Options.ofRequest?
    dsimp only
    repeat' split
    all_goals rfl
  have hinside : ∀ o : Listing.Options,
      o.inFolder (Path.orRoot path) = o.inFolder (Path.orRoot path') := by
    intro o
    simp only [Listing.Options.inFolder, Listing.Options.mk.injEq, and_true]
    exact h
  rw [hfolder, hfolder (Path.orRoot path'), funext hinside]

/-- Actions that answer alike and leave the same state. -/
def Matches {α : Type} (a a' : Action σ α) : Prop :=
  ∀ s, Alike (a.runFrom s).1 (a'.runFrom s).1 ∧ (a.runFrom s).2 = (a'.runFrom s).2

namespace Matches

variable {α β : Type} {a a' : Action σ α}

theorem refl (a : Action σ α) : Matches a a := fun _ => ⟨.same _, rfl⟩

theorem ask {f f' : σ → Except Fault α} (h : ∀ s, Alike (f s) (f' s)) :
    Matches (Action.ask f) (Action.ask f') := by
  intro s
  rw [Action.runFrom_ask, Action.runFrom_ask]
  exact ⟨h s, rfl⟩

theorem bind (h : Matches a a') (f : α → Action σ β) : Matches (a >>= f) (a' >>= f) := by
  intro s
  obtain ⟨hanswer, hstate⟩ := h s
  rw [Action.runFrom_bind, Action.runFrom_bind]
  generalize a.runFrom s = outcome, a'.runFrom s = outcome' at hanswer hstate
  obtain ⟨answer, s₁⟩ := outcome
  obtain ⟨answer', s₁'⟩ := outcome'
  obtain rfl : s₁ = s₁' := hstate
  cases hanswer with
  | same => exact ⟨.same _, rfl⟩
  | root hsame hroot => exact ⟨.root hsame hroot, rfl⟩

end Matches

theorem Change.Respelled.matches {c c' : Change} (h : c.Respelled c') :
    Matches (c.act b) (c'.act b) := by
  cases h with
  | write h data append => exact (Matches.ask fun _ => filePath_alike h).bind _
  | annotate h m => exact (Matches.ask fun _ => filePath_alike h).bind _
  | @delete paths paths' h =>
    have hpaths : (paths.map fun p => Path.normalize (Path.orRoot p)) =
        paths'.map fun p => Path.normalize (Path.orRoot p) := by
      induction h with
      | nil => rfl
      | cons hpath _ ih => rw [List.map_cons, List.map_cons, hpath, ih]
    have hactions : ∀ paths : List (Option String),
        (paths.map fun p => b.delete (Path.normalize (Path.orRoot p))) =
          (paths.map fun p => Path.normalize (Path.orRoot p)).map b.delete := fun paths => by
      rw [List.map_map]
      rfl
    simp only [Change.act, Backend.deleteAll, hactions, hpaths]
    exact .refl _

theorem Command.Respelled.matches {cmd cmd' : Command} (h : cmd.Respelled cmd') :
    Matches (cmd.act b) (cmd'.act b) := by
  intro s
  rw [Command.runFrom_act, Command.runFrom_act]
  cases h with
  | change h => exact h.matches.bind _ s
  | fetch h =>
    simp only [Command.operation?, Operation.act, Action.runFrom_ask, and_true]
    exact (fetch?_alike h).map _
  | presence h =>
    simp only [Command.operation?, Operation.act, Action.runFrom_ask, and_true]
    exact (holdsAll_alike h).map _
  | entries h =>
    simp only [Command.operation?, Operation.act, Action.runFrom_ask, and_true]
    exact (entries_alike h).map _
  | list h r =>
    simp only [Command.operation?, ofRequest?_respelled r h, and_true]
    exact .same _

/-! A whole course. -/

/-- Step by step the answers are alike and the states the same. -/
theorem course_respelled {cmds cmds' : List Command}
    (h : List.Forall₂ Command.Respelled cmds cmds') (s : σ) :
    List.Forall₂ (fun x y => Alike x.1 y.1 ∧ x.2 = y.2) (course b s cmds) (course b s cmds') := by
  induction h generalizing s with
  | nil => exact .nil
  | @cons cmd cmd' rest rest' hcmd _ ih =>
    obtain ⟨hanswer, hstate⟩ := hcmd.matches (b := b) s
    rw [course_cons, course_cons, ← hstate]
    exact .cons ⟨hanswer, hstate⟩ (ih _)

/-- What a command does to the state. -/
theorem Command.state_act (cmd : Command) :
    ((cmd.act b).runFrom s).2 =
      match cmd with
      | .change c => c.apply b s
      | _ => s := by
  rw [Command.runFrom_act]
  cases cmd with
  | change c =>
    simp only [Command.operation?, Operation.act, Change.apply, Action.runFrom_bind]
    generalize (c.act b).runFrom s = outcome
    obtain ⟨answer, s'⟩ := outcome
    cases answer <;> rfl
  | fetch path | presence paths | entries paths =>
    simp only [Command.operation?, Operation.act, Action.runFrom_ask]
  | list folder r =>
    simp only [Command.operation?]
    cases Listing.Options.ofRequest? { r with folder := Path.orRoot folder } with
    | error e => rfl
    | ok o => exact congrArg Prod.snd (Action.runFrom_ask s _)

/-- What every change keeps holds throughout a course. -/
theorem course_preserves {P : σ → Prop} (hchange : ∀ c s, P s → P (Change.apply b c s))
    (cmds : List Command) (hs : P s) : ∀ x ∈ course b s cmds, P x.2 := by
  induction cmds generalizing s with
  | nil => simp [course]
  | cons cmd rest ih =>
    have hnext : P ((cmd.act b).runFrom s).2 := by
      rw [Command.state_act]
      cases cmd with
      | change c => exact hchange c s hs
      | _ => exact hs
    rw [course_cons]
    intro x hx
    rcases List.mem_cons.mp hx with rfl | hx
    · exact hnext
    · exact ih hnext x hx

end Depot.Storage
