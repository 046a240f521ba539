import Depot.Proofs.Action
import Depot.Proofs.Path
import Depot.Storage.Facade

/-!
The changes that callers make through a storage. Each comes down to operations of the
backend on paths in normal form, and one that is refused beforehand changes nothing. A
backend may also be called directly, with paths written in any way.
-/
namespace Depot.Storage

inductive Change
  | write (path : Option String) (data : Bytes) (append : Bool)
  | delete (paths : List (Option String))
  | annotate (path : Option String) (m : Texts)

variable {σ : Type} {b : Backend σ} {s : σ} {path : Option String} {p : String}

namespace Change

def act (b : Backend σ) : Change → Action σ Unit
  | .write path data append => b.store path data append
  | .delete paths => b.deleteAll paths
  | .annotate path m => b.annotate path m

def apply (b : Backend σ) (c : Change) (s : σ) : σ := ((c.act b).runFrom s).2

end Change

def after (b : Backend σ) (s : σ) (changes : List Change) : σ :=
  changes.foldl (fun s c => c.apply b s) s

theorem filePath_eq_ok :
    filePath path = .ok p ↔ Path.normalize (Path.orRoot path) = p ∧ p ≠ Path.root := by
  unfold filePath
  by_cases hroot : Path.normalize (Path.orRoot path) = Path.root
  · simp only [hroot, if_true, reduceCtorEq, false_iff, not_and, not_not]
    exact fun h => h.symm
  · simp only [hroot, if_false, Except.ok.injEq]
    constructor
    · rintro rfl
      exact ⟨rfl, hroot⟩
    · exact fun h => h.1

theorem normalize_of_filePath (h : filePath path = .ok p) : Path.normalize p = p := by
  obtain ⟨rfl, -⟩ := filePath_eq_ok.mp h
  exact Path.normalize_normalize _

/-- An operation on a file path. -/
theorem runFrom_onFile {f : String → Action σ Unit} :
    (do let p ← Action.ask fun _ => filePath path; f p : Action σ Unit).runFrom s =
      match filePath path with
      | .ok p => (f p).runFrom s
      | .error e => (.error e, s) := by
  rw [Action.runFrom_bind, Action.runFrom_ask]
  cases filePath path <;> rfl

/-- A question about a single file. -/
theorem mapM_single {α : Type} {answer : String → Except Fault α} {a : α}
    (hpath : filePath path = .ok p) (hanswer : answer p = .ok a) :
    (do (← [path].mapM filePath).mapM answer) = .ok [a] := by
  rw [List.mapM_cons, hpath]
  change List.mapM answer [p] = _
  rw [List.mapM_cons, hanswer]
  rfl

theorem entries_singleton {e : Option Entry} (hpath : filePath path = .ok p)
    (hentry : b.entry? s p = .ok e) : b.entries [path] s = .ok [e] :=
  mapM_single hpath hentry

theorem holdsAll_singleton {there : Bool} (hpath : filePath path = .ok p)
    (hholds : b.holds s p = .ok there) : b.holdsAll [path] s = .ok [there] :=
  mapM_single hpath hholds

/-- A missing file reads as nothing. -/
theorem fetch?_eq (hpath : filePath path = .ok p) :
    b.fetch? path s =
      match b.read s p with
      | .ok content => .ok (some content)
      | .error e => if e.isMissing then .ok none else .error e := by
  unfold Backend.fetch?
  rw [hpath]
  rfl

theorem snd_runFrom_all (f : String → Action σ Unit) (paths : List String) (s : σ) :
    ((Action.all (paths.map f)).runFrom s).2 =
      paths.foldl (fun s p => ((f p).runFrom s).2) s := by
  induction paths generalizing s with
  | nil => rfl
  | cons p rest ih =>
    simp only [List.map_cons, Action.runFrom_all_cons, List.foldl_cons]
    exact ih _

namespace Change

theorem apply_write (path : Option String) (data : Bytes) (append : Bool) :
    (Change.write path data append).apply b s =
      match filePath path with
      | .ok p => ((b.write p data append).runFrom s).2
      | .error _ => s := by
  simp only [apply, act, Backend.store, runFrom_onFile]
  cases filePath path <;> rfl

theorem apply_annotate (path : Option String) (m : Texts) :
    (Change.annotate path m).apply b s =
      match filePath path with
      | .ok p => ((b.setMetadata p m).runFrom s).2
      | .error _ => s := by
  simp only [apply, act, Backend.annotate, runFrom_onFile]
  cases filePath path <;> rfl

theorem apply_delete (paths : List (Option String)) :
    (Change.delete paths).apply b s =
      (paths.map fun p => Path.normalize (Path.orRoot p)).foldl
        (fun s p => ((b.delete p).runFrom s).2) s := by
  rw [← snd_runFrom_all, List.map_map]
  rfl

/-- What every operation of the backend preserves is preserved by every change. -/
theorem preserves {P : σ → Prop}
    (hwrite : ∀ s p data append, P s → Path.normalize p = p → p ≠ Path.root →
      P ((b.write p data append).runFrom s).2)
    (hdelete : ∀ s p, P s → Path.normalize p = p → P ((b.delete p).runFrom s).2)
    (hannotate : ∀ s p m, P s → Path.normalize p = p → p ≠ Path.root →
      P ((b.setMetadata p m).runFrom s).2)
    (c : Change) (h : P s) : P (c.apply b s) := by
  cases c with
  | write path data append =>
    rw [apply_write]
    cases hpath : filePath path with
    | error e => exact h
    | ok p =>
      exact hwrite s p data append h (normalize_of_filePath hpath) (filePath_eq_ok.mp hpath).2
  | annotate path m =>
    rw [apply_annotate]
    cases hpath : filePath path with
    | error e => exact h
    | ok p => exact hannotate s p m h (normalize_of_filePath hpath) (filePath_eq_ok.mp hpath).2
  | delete paths =>
    rw [apply_delete, List.foldl_map]
    induction paths generalizing s with
    | nil => exact h
    | cons p rest ih => exact ih (hdelete s _ h (Path.normalize_normalize _))

end Change

theorem after_induction {P : σ → Prop} (hstep : ∀ c s, P s → P (Change.apply b c s))
    (changes : List Change) (h : P s) : P (after b s changes) := by
  induction changes generalizing s with
  | nil => exact h
  | cons c rest ih => exact ih (hstep c s h)

inductive Edit
  | write (path : String) (data : Bytes) (append : Bool)
  | delete (path : String)
  | setMetadata (path : String) (m : Texts)

def Edit.act (b : Backend σ) : Edit → Action σ Unit
  | .write path data append => b.write path data append
  | .delete path => b.delete path
  | .setMetadata path m => b.setMetadata path m

def edited (b : Backend σ) (s : σ) (edits : List Edit) : σ :=
  edits.foldl (fun s e => ((e.act b).runFrom s).2) s

end Depot.Storage
