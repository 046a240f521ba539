import Depot.Action
import Mathlib.Tactic.Basic

/-!
How actions run: what each way to put them together answers and leaves behind.
-/
namespace Depot.Action

variable {σ τ α β : Type} (s : σ)

@[simp] theorem runFrom_pure (x : α) : (pure x : Action σ α).runFrom s = (.ok x, s) := rfl

@[simp] theorem runFrom_throw (e : Fault) : (throw e : Action σ α).runFrom s = (.error e, s) := rfl

@[simp] theorem runFrom_get : (get : Action σ σ).runFrom s = (.ok s, s) := rfl

@[simp] theorem runFrom_set (s' : σ) : (set s' : Action σ PUnit).runFrom s = (.ok ⟨⟩, s') := rfl

@[simp] theorem runFrom_lift (x : Except Fault α) :
    (liftM x : Action σ α).runFrom s = (x, s) := rfl

theorem runFrom_bind (a : Action σ α) (f : α → Action σ β) :
    (a >>= f).runFrom s =
      match a.runFrom s with
      | (.ok x, s') => (f x).runFrom s'
      | (.error e, s') => (.error e, s') := by
  unfold runFrom
  simp only [ExceptT.run_bind, StateT.run_bind]
  generalize StateT.run (ExceptT.run a) s = outcome
  obtain ⟨answer, s'⟩ := outcome
  cases answer <;> rfl

@[simp] theorem runFrom_ask (f : σ → Except Fault α) : (ask f).runFrom s = (f s, s) := by
  unfold ask
  rw [runFrom_bind, runFrom_get]
  cases hanswer : f s <;> simp [hanswer]

@[simp] theorem runFrom_ofTransition (f : σ → Except Fault σ) :
    (ofTransition f).runFrom s =
      match f s with
      | .ok s' => (.ok (), s')
      | .error e => (.error e, s) := by
  unfold ofTransition
  rw [runFrom_bind, runFrom_get]
  cases hanswer : f s <;> simp [hanswer]

@[simp] theorem runFrom_zoom (part : τ → σ) (update : σ → τ → τ) (a : Action σ α) (t : τ) :
    (zoom part update a).runFrom t =
      ((a.runFrom (part t)).1, update (a.runFrom (part t)).2 t) := rfl

@[simp] theorem runFrom_all_cons (a : Action σ Unit) (rest : List (Action σ Unit)) :
    (all (a :: rest)).runFrom s =
      ((match (a.runFrom s).1 with
        | .ok _ => ((all rest).runFrom (a.runFrom s).2).1
        | .error e => .error e),
      ((all rest).runFrom (a.runFrom s).2).2) := by
  unfold runFrom
  simp only [all, ExceptT.run_mk, StateT.run_bind, StateT.run_pure]
  generalize StateT.run (ExceptT.run a) s = outcome
  obtain ⟨answer, s'⟩ := outcome
  cases answer <;> rfl

/-- Alone, an action is run as it is. -/
theorem all_singleton (a : Action σ Unit) : all [a] = a := by
  funext s
  change (all [a]).runFrom s = a.runFrom s
  rw [runFrom_all_cons]
  generalize a.runFrom s = outcome
  obtain ⟨answer, s'⟩ := outcome
  cases answer <;> rfl

end Depot.Action
