import Depot.Proofs.Disk.Call
import Depot.Proofs.Storage.Change

/-!
The operations on a file tree, laid open. A script looks at the tree, makes a call and goes on
by what the look or the call answers, be it a failure. When nothing goes wrong a script does what
its operation does; what else may become of it can be said because its steps are apart.
-/
namespace Depot.Storage.Disk

namespace Call

def step (c : Call) (t : Tree) : Tree :=
  match c.exec t with
  | .ok t' => t'
  | .error _ => t

def answer (c : Call) (t : Tree) : Except OsFault Unit := (c.exec t).map fun _ => ()

end Call

inductive Script (ε α : Type)
  | done (answer : Except ε α)
  | look (next : Except OsFault Tree → Script ε α)
  | call (c : Call) (next : Except OsFault Unit → Script ε α)

namespace Script

variable {ε ε' α β : Type}

def bind : Script ε α → (α → Script ε β) → Script ε β
  | done (.ok x), f => f x
  | done (.error e), _ => done (.error e)
  | look next, f => look fun r => (next r).bind f
  | call c next, f => call c fun r => (next r).bind f

def handle : Script ε α → (ε → Script ε α) → Script ε α
  | done (.ok x), _ => done (.ok x)
  | done (.error e), f => f e
  | look next, f => look fun r => (next r).handle f
  | call c next, f => call c fun r => (next r).handle f

instance : Monad (Script ε) where
  pure x := done (.ok x)
  bind := bind

instance : MonadExceptOf ε (Script ε) where
  throw e := done (.error e)
  tryCatch := handle

def ask (f : Tree → Except OsFault α) : Script OsFault α := look fun r => done (r.bind f)

def perform (c : Call) : Script OsFault Unit := call c done

def attempt (c : Call) : Script ε (Except OsFault Unit) := call c fun r => done (.ok r)

def adapt (f : ε → ε') : Script ε α → Script ε' α
  | done r => done (r.mapError f)
  | look next => look fun r => (next r).adapt f
  | call c next => call c fun r => (next r).adapt f

def run : Script ε α → Tree → Except ε α × Tree
  | done r, t => (r, t)
  | look next, t => (next (.ok t)).run t
  | call c next, t => (next (c.answer t)).run (c.step t)

/-- The script does what an operation does. -/
def Spells (s : Script ε α) (a : ExceptT ε (StateM Tree) α) : Prop :=
  ∀ t, s.run t = Id.run (StateT.run (ExceptT.run a) t)

/-! ### The operations -/

def performAll : List Call → Script OsFault Unit
  | [] => pure ()
  | c :: rest => do
    perform c
    performAll rest

def allowing (expected : OsFault → Bool) (s : Script OsFault Unit) : Script OsFault Unit :=
  tryCatch s fun e => if expected e then pure () else throw e

def ensureFolder (p : Place) : Script OsFault Unit :=
  tryCatch (perform (.makeFolder p)) fun e => do
    if e = .noEntry ∨ e = .nulByte then throw e
    if !(← ask (·.isFolder p)) then throw e

def ensureFolders : List String → Script OsFault Unit
  | [] => ensureFolder []
  | name :: rest =>
    let p := (name :: rest).reverse
    tryCatch (ensureFolder p) fun e => do
      if e ≠ .noEntry then throw e
      ensureFolders rest
      ensureFolder p

def makeFolders (p : Place) : Script OsFault Unit := ensureFolders p.reverse

def replace (temporary p : Place) (data : Bytes) : Script OsFault Unit :=
  tryCatch (performAll (replaceCalls temporary p data)) fun e => do
    allowing (fun _ => true) (perform (.unlink temporary))
    throw e

def overwrite (p : Place) (data : Bytes) : Script OsFault Unit := do
  ensureFolder [temporaryFolder]
  let name := freshName (← ask .ok)
  replace [temporaryFolder, name] p data

def fill (p : Place) (data : Bytes) (append : Bool) : Script OsFault Unit :=
  if append then perform (.extend p data) else overwrite p data

def write (path : String) (data : Bytes) (append : Bool) : Script Fault Unit := do
  if Path.isRoot path then throw (.notFound path (some "Cannot write to the root folder"))
  let p ← done (place? path)
  if ← (ask (·.isFolder p)).adapt OsFault.toFault then throw (.isFolder path)
  if let some q ← (ask (fileAbove · p)).adapt OsFault.toFault then
    throw (.underFile path (pathOf q))
  (makeFolders p.dropLast).adapt OsFault.toFault
  (fill p data append).adapt OsFault.toFault

def prune : List String → Script OsFault Unit
  | [] => pure ()
  | name :: rest =>
    tryCatch (do
      perform (.removeFolder (name :: rest).reverse)
      prune rest) fun _ => pure ()

def discard (name : String) : Script OsFault Unit := do
  if ← ask (·.isFolder [name]) then perform (.removeTree [name])
  else perform (.unlink [name])

def clear : Script OsFault Unit := do
  let t ← ask .ok
  ((t.names []).filter (· ≠ temporaryFolder)).forM discard

def detach (p : Place) : Except OsFault Unit → Script OsFault Unit
  | .error .noEntry => pure ()
  | .error e => throw e
  | .ok () => do
    allowing (· = .noEntry) (perform (.unlink (sidecar p)))
    prune p.dropLast.reverse

def removePlace (p : Place) : Script OsFault Unit := do
  if ← ask (·.isFolder p) then
    if p = [] then clear
    else
      perform (.removeTree p)
      prune p.dropLast.reverse
  else
    detach p (← attempt (.unlink p))

def delete (path : String) : Script Fault Unit := do
  let p ← done (place? path)
  (removePlace p).adapt OsFault.toFault

def setMetadata (path : String) (m : Texts) : Script Fault Unit := do
  let p ← done (place? path)
  if ← (ask (·.isFile p)).adapt OsFault.toFault then
    (performAll [.create (sidecar p),
      .extend (sidecar p) (Bytes.utf8 (Json.ofTexts m).render)]).adapt OsFault.toFault
  else throw (.notFound path none)

def ofEdit : Edit → Script Fault Unit
  | .write path data append => write path data append
  | .delete path => delete path
  | .setMetadata path m => setMetadata path m

def discardTemporary (name : String) : Script OsFault Unit :=
  allowing (fun _ => true) (perform (.unlink [temporaryFolder, name]))

def cleanTemporary : Script OsFault Unit := do
  let t ← ask .ok
  (t.namesIn [temporaryFolder]).forM discardTemporary

def init : Script Fault Unit := do
  (makeFolders [temporaryFolder]).adapt OsFault.toFault
  cleanTemporary.adapt OsFault.toFault

/-! ### Runs -/

theorem run_bind (s : Script ε α) (f : α → Script ε β) (t : Tree) :
    (s >>= f).run t =
      match s.run t with
      | (.ok x, t') => (f x).run t'
      | (.error e, t') => (.error e, t') := by
  change (s.bind f).run t = _
  induction s generalizing t with
  | done r => cases r <;> rfl
  | look next ih => exact ih (.ok t) t
  | call c next ih => exact ih (c.answer t) (c.step t)

theorem run_tryCatch (s : Script ε α) (f : ε → Script ε α) (t : Tree) :
    (tryCatch s f : Script ε α).run t =
      match s.run t with
      | (.ok x, t') => (.ok x, t')
      | (.error e, t') => (f e).run t' := by
  change (s.handle f).run t = _
  induction s generalizing t with
  | done r => cases r <;> rfl
  | look next ih => exact ih (.ok t) t
  | call c next ih => exact ih (c.answer t) (c.step t)

theorem run_adapt (f : ε → ε') (s : Script ε α) (t : Tree) :
    (s.adapt f).run t = ((s.run t).1.mapError f, (s.run t).2) := by
  induction s generalizing t with
  | done r => rfl
  | look next ih => exact ih (.ok t) t
  | call c next ih => exact ih (c.answer t) (c.step t)

namespace Spells

theorem pure (x : α) : (Pure.pure x : Script ε α).Spells (Pure.pure x) := fun _ => rfl

theorem throw (e : ε) : (MonadExcept.throw e : Script ε α).Spells (MonadExcept.throw e) :=
  fun _ => rfl

/-- What comes after a failure does not matter. -/
theorem refused (e : ε) {f : α → Script ε β} {g : α → ExceptT ε (StateM Tree) β} :
    (MonadExcept.throw e >>= f).Spells (MonadExcept.throw e >>= g) := fun _ => rfl

theorem ite {c : Prop} [Decidable c] {s s' : Script ε α} {a a' : ExceptT ε (StateM Tree) α}
    (h : s.Spells a) (h' : s'.Spells a') : (if c then s else s').Spells (if c then a else a') := by
  split
  · exact h
  · exact h'

theorem bind {s : Script ε α} {a : ExceptT ε (StateM Tree) α} {f : α → Script ε β}
    {g : α → ExceptT ε (StateM Tree) β} (h : s.Spells a) (hf : ∀ x, (f x).Spells (g x)) :
    (s >>= f).Spells (a >>= g) := by
  intro t
  rw [run_bind, h t]
  simp only [ExceptT.run_bind, StateT.run_bind]
  generalize StateT.run (ExceptT.run a) t = outcome
  obtain ⟨answer, t'⟩ := outcome
  cases answer with
  | ok x => exact hf x t'
  | error e => rfl

theorem tryCatch {s : Script ε α} {a : ExceptT ε (StateM Tree) α} {f : ε → Script ε α}
    {g : ε → ExceptT ε (StateM Tree) α} (h : s.Spells a) (hf : ∀ e, (f e).Spells (g e)) :
    (tryCatchThe ε s f).Spells (tryCatchThe ε a g) := by
  intro t
  refine (run_tryCatch s f t).trans ?_
  rw [h t]
  change _ = Id.run (StateT.run (ExceptT.run (MonadExcept.tryCatch a g)) t)
  rw [ExceptT.run_tryCatch, StateT.run_bind]
  generalize StateT.run (ExceptT.run a) t = outcome
  obtain ⟨answer, t'⟩ := outcome
  cases answer with
  | ok x => rfl
  | error e => exact hf e t'

theorem forM {f : α → Script ε PUnit} {g : α → ExceptT ε (StateM Tree) PUnit}
    (hf : ∀ x, (f x).Spells (g x)) (xs : List α) :
    (xs.forM f).Spells (xs.forM g) := by
  induction xs with
  | nil => exact .pure _
  | cons x rest ih => exact .bind (hf x) fun _ => ih

theorem perform (c : Call) : (Script.perform c).Spells (Os.perform c) := by
  intro t
  change _ = Os.runFrom (Os.perform c) t
  rw [Os.runFrom_perform]
  change (c.answer t, c.step t) = _
  unfold Call.answer Call.step
  cases c.exec t <;> rfl

theorem ask (f : Tree → Except OsFault α) : (Script.ask f).Spells (Os.ask f) := fun t =>
  (Os.runFrom_ask t f).symm

/-- A look at the whole tree. -/
theorem get : (Script.ask .ok).Spells (MonadState.get : Os Tree) := fun _ => rfl

theorem adapt {s : Script OsFault α} {a : Os α} (h : s.Spells a) :
    (s.adapt OsFault.toFault).Spells a.act := by
  intro t
  refine (run_adapt _ _ _).trans ?_
  rw [h t]
  exact (Os.runFrom_act t a).symm

theorem place (path : String) :
    (done (place? path) : Script Fault Place).Spells (Action.ask fun _ => place? path) := fun t =>
  (Action.runFrom_ask t fun _ => place? path).symm

theorem performAll (cs : List Call) : (Script.performAll cs).Spells (Os.performAll cs) := by
  induction cs with
  | nil => exact .pure ()
  | cons c rest ih => exact .bind (.perform c) fun _ => ih

theorem allowing (expected : OsFault → Bool) {s : Script OsFault Unit} {a : Os Unit}
    (h : s.Spells a) : (Script.allowing expected s).Spells (Os.allowing expected a) :=
  .tryCatch h fun e => .ite (.pure ()) (.throw e)

theorem ensureFolder (p : Place) : (Script.ensureFolder p).Spells (Disk.ensureFolder p) := by
  refine .tryCatch (.perform _) fun e => .ite (.refused e) ?_
  exact .bind (.ask _) fun there => .ite (.throw e) (.pure ())

theorem ensureFolders (names : List String) :
    (Script.ensureFolders names).Spells (Disk.ensureFolders names) := by
  induction names with
  | nil => exact .ensureFolder []
  | cons name rest ih =>
    refine .tryCatch (.ensureFolder _) fun e => .ite (.refused e) ?_
    exact .bind ih fun _ => .ensureFolder _

theorem makeFolders (p : Place) : (Script.makeFolders p).Spells (Disk.makeFolders p) :=
  .ensureFolders p.reverse

theorem overwrite (p : Place) (data : Bytes) :
    (Script.overwrite p data).Spells (Disk.overwrite p data) := by
  refine .bind (.ensureFolder _) fun _ => .bind .get fun t => ?_
  refine .tryCatch (.performAll _) fun e => ?_
  exact .bind (.allowing _ (.perform _)) fun _ => .throw e

theorem write (path : String) (data : Bytes) (append : Bool) :
    (Script.write path data append).Spells (Disk.write path data append) := by
  refine .ite (.refused _) (.bind (.place path) fun p => .bind (.adapt (.ask _)) fun there => ?_)
  refine .ite (.refused _) (.bind (.adapt (.ask _)) fun above => ?_)
  cases above with
  | some q => exact .refused _
  | none =>
    refine .bind (.adapt (.makeFolders _)) fun _ => ?_
    cases append with
    | true => exact .adapt (.perform _)
    | false => exact .adapt (.overwrite p data)

theorem prune (names : List String) : (Script.prune names).Spells (Disk.prune names) := by
  induction names with
  | nil => exact .pure ()
  | cons name rest ih =>
    exact .tryCatch (.bind (.perform _) fun _ => ih) fun _ => .pure ()

theorem clear : Script.clear.Spells Disk.clear := by
  refine .bind .get fun t => .forM (fun name => ?_) _
  exact .bind (.ask _) fun there => .ite (.perform _) (.perform _)

theorem removePlace (p : Place) : (Script.removePlace p).Spells (Disk.removePlace p) := by
  refine .bind (.ask _) fun there => ?_
  split
  · split
    · exact .clear
    · exact .bind (.perform _) fun _ => .prune _
  · -- Here the operation itself takes its one call apart.
    intro t
    change ((Script.detach p ((Call.unlink p).answer t)).run ((Call.unlink p).step t)) =
      Os.runFrom _ t
    rw [Os.runFrom_bind, Os.runFrom_get, Call.answer, Call.step]
    dsimp only
    cases (Call.unlink p).exec t with
    | error e => cases e <;> rfl
    | ok t' =>
      dsimp only
      rw [Os.runFrom_bind, Os.runFrom_set]
      exact Spells.bind (.allowing _ (.perform _)) (fun _ => .prune _) t'

theorem delete (path : String) : (Script.delete path).Spells (Disk.delete path) :=
  .bind (.place path) fun p => .adapt (.removePlace p)

theorem setMetadata (path : String) (m : Texts) :
    (Script.setMetadata path m).Spells (Disk.setMetadata path m) := by
  refine .bind (.place path) fun p => .bind (.adapt (.ask _)) fun there => ?_
  exact .ite (.adapt (.performAll _)) (.throw _)

/-- Every operation that changes a store has its script. -/
theorem ofEdit (edit : Edit) : (Script.ofEdit edit).Spells (edit.act backend) := by
  cases edit with
  | write path data append => exact .write path data append
  | delete path => exact .delete path
  | setMetadata path m => exact .setMetadata path m

theorem cleanTemporary : Script.cleanTemporary.Spells Disk.cleanTemporary :=
  .bind .get fun _ => .forM (fun _ => .allowing _ (.perform _)) _

theorem init : Script.init.Spells Disk.init :=
  .bind (.adapt (.makeFolders _)) fun _ => .adapt .cleanTemporary

end Spells

end Script

end Depot.Storage.Disk
