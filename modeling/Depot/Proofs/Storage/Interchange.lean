import Depot.Proofs.Disk.Service
import Depot.Proofs.Disk.Walk

/-!
A storage on files answers what a storage in memory answers. A tree that mirrors the table
does so after each operation too, so the answers to any sequence of operations agree, as
long as the file system refuses none of the paths and takes what replaces a content at once.
-/
namespace Depot.Storage

open Disk (Admissible Mirrors untouched_empty)

variable {tree : Disk.Tree} {c : Memory.Config} {s : Memory.State} {path : Option String}
  {paths : List (Option String)} {p : String} {α β : Type} {same : α → β → Prop}

/-- What two stores do agrees, and leaves them with the same files. -/
def Together (same : α → β → Prop) (done : Except Fault α × Disk.Tree)
    (done' : Except Fault β × Memory.State) : Prop :=
  Agree same done.1 done'.1 ∧ Mirrors done.2 done'.2.table []

theorem Together.refused (h : Mirrors tree s.table []) {e e' : Fault} (hkind : e.kind = e'.kind)
    (hexpected : Expected e.kind) : Together same (.error e, tree) (.error e', s) :=
  ⟨.refused hkind hexpected, h⟩

/-- What replaces a content is not more than one call of the system takes. -/
def Operation.Fits : Operation → Prop
  | .change (.write _ data append) => append = false → data.length ≤ Disk.writeLimit
  | _ => True

theorem Together.done {a : Action Disk.Tree Unit} {a' : Action Memory.State Unit}
    (h : Together (fun _ _ => True) (a.runFrom tree) (a'.runFrom s)) :
    Together Answer.Same
      ((do a; return Answer.done : Action Disk.Tree Answer).runFrom tree)
      ((do a'; return Answer.done : Action Memory.State Answer).runFrom s) := by
  obtain ⟨hagree, hmirrors⟩ := h
  rw [Action.runFrom_bind, Action.runFrom_bind]
  generalize a.runFrom tree = ran at hagree hmirrors
  generalize a'.runFrom s = ran' at hagree hmirrors
  obtain ⟨answer, tree'⟩ := ran
  obtain ⟨answer', s'⟩ := ran'
  cases hagree with
  | answered _ => exact ⟨.answered .done, hmirrors⟩
  | refused hkind hexpected => exact ⟨.refused hkind hexpected, hmirrors⟩

end Depot.Storage
