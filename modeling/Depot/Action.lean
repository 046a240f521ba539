import Depot.Fault

/-!
Operations on a state that may fail. A failure comes with whatever state the
operation leaves behind, so that partial effects are visible.
-/
namespace Depot

/-- A change of the state that may fail, with whatever state it leaves. -/
abbrev Action (σ : Type) := ExceptT Fault (StateM σ)

namespace Action

variable {σ τ α : Type}

def ofTransition (f : σ → Except Fault σ) : Action σ Unit := do
  match f (← get) with
  | .ok s => set s
  | .error e => throw e

def ask (f : σ → Except Fault α) : Action σ α := do
  match f (← get) with
  | .ok a => return a
  | .error e => throw e

def runFrom (a : Action σ α) (s : σ) : Except Fault α × σ := Id.run (StateT.run (ExceptT.run a) s)

def zoom (part : τ → σ) (update : σ → τ → τ) (a : Action σ α) : Action τ α :=
  ExceptT.mk fun t =>
    let (r, s) := a.runFrom (part t)
    (r, update s t)

/-- Runs every action in turn, whatever becomes of the others, and then fails
with the first failure. -/
def all : List (Action σ Unit) → Action σ Unit
  | [] => pure ()
  | a :: rest => ExceptT.mk do
    let first ← a.run
    let others ← (all rest).run
    return match first with
      | .ok _ => others
      | .error e => .error e

end Action

end Depot
