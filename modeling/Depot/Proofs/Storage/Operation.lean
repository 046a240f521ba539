import Depot.Proofs.Storage.Change

/-!
Operations of a storage and their answers. Two stores agree on an operation when they
answer the same or refuse it for the same kind of reason. What a store adds to an entry of
its own accord, such as a digest or a time, is not compared.
-/
namespace Depot

def Entry.traits (e : Entry) : Entry.Kind × String × Option Int × Metadata :=
  (e.kind, e.path, e.size, e.metadata)

def Entry.bare (e : Entry) : Entry := { e.timeless with properties := .empty }

/-- A listing that shows all there is and whose filter is a test of the traits. -/
structure Listing.Options.Comparable (o : Listing.Options) : Prop where
  unlimited : o.limit = none
  filter : ∀ test, o.filter = some test →
    ∃ pass : Entry.Kind × String × Option Int × Metadata → Bool, ∀ e, test e = .ok (pass e.traits)

namespace Storage

inductive Operation
  | change (c : Change)
  | fetch (path : Option String)
  | presence (paths : List (Option String))
  | entries (paths : List (Option String))
  | list (o : Listing.Options)

inductive Answer
  | done
  | content (c : Option Bytes)
  | presence (there : List Bool)
  | entries (found : List (Option Entry))
  | listing (shown : List Entry)

inductive Answer.Same : Answer → Answer → Prop
  | done : Same .done .done
  | content (c : Option Bytes) : Same (.content c) (.content c)
  | presence (there : List Bool) : Same (.presence there) (.presence there)
  | entries {found found' : List (Option Entry)}
      (h : found.map (Option.map Entry.bare) = found'.map (Option.map Entry.bare)) :
      Same (.entries found) (.entries found')
  | listing {shown shown' : List Entry}
      (h : (shown.map Entry.traits).Perm (shown'.map Entry.traits)) :
      Same (.listing shown) (.listing shown')

def Expected (k : Fault.Kind) : Prop := k = .invalidPath ∨ k = .conflict ∨ k = .notFound

/-- The same answer, or a refusal of the same expected kind. -/
inductive Agree {α β : Type} (same : α → β → Prop) : Except Fault α → Except Fault β → Prop
  | answered {a : α} {b : β} (h : same a b) : Agree same (.ok a) (.ok b)
  | refused {e e' : Fault} (hkind : e.kind = e'.kind) (hexpected : Expected e.kind) :
      Agree same (.error e) (.error e')

theorem Agree.map {α β γ δ : Type} {same : α → β → Prop} {same' : γ → δ → Prop} {f : α → γ}
    {g : β → δ} {x : Except Fault α} {y : Except Fault β} (h : Agree same x y)
    (hsame : ∀ a b, same a b → same' (f a) (g b)) : Agree same' (x.map f) (y.map g) := by
  cases h with
  | answered h => exact .answered (hsame _ _ h)
  | refused hkind hexpected => exact .refused hkind hexpected

variable {σ : Type}

namespace Operation

def act (b : Backend σ) : Operation → Action σ Answer
  | .change c => do
    c.act b
    return .done
  | .fetch path => Action.ask fun s => (b.fetch? path s).map .content
  | .presence paths => Action.ask fun s => (b.holdsAll paths s).map .presence
  | .entries paths => Action.ask fun s => (b.entries paths s).map .entries
  | .list o => Action.ask fun s => (b.listReport s o).answer.map .listing

theorem runFrom_entries (b : Backend σ) (s : σ) (paths : List (Option String)) :
    ((entries paths).act b).runFrom s = ((b.entries paths s).map .entries, s) :=
  Action.runFrom_ask s _

def Comparable : Operation → Prop
  | .list o => o.Comparable
  | _ => True

def paths : Operation → List String
  | .change (.write path _ _) => [Path.orRoot path]
  | .change (.delete paths) => paths.map Path.orRoot
  | .change (.annotate path _) => [Path.orRoot path]
  | .fetch path => [Path.orRoot path]
  | .presence paths => paths.map Path.orRoot
  | .entries paths => paths.map Path.orRoot
  | .list o => [o.folder]

end Operation

def answers (b : Backend σ) : σ → List Operation → List (Except Fault Answer)
  | _, [] => []
  | s, op :: rest =>
    let (answer, s') := (op.act b).runFrom s
    answer :: answers b s' rest

theorem answers_cons (b : Backend σ) (s : σ) (op : Operation) (rest : List Operation) :
    answers b s (op :: rest) =
      ((op.act b).runFrom s).1 :: answers b ((op.act b).runFrom s).2 rest := rfl

def Spares (b : Backend σ) : σ → List (Option String) → Prop
  | _, [] => True
  | s, path :: rest =>
    let p := Path.normalize (Path.orRoot path)
    (∀ file, Path.isUnder p file = true → b.holds s file ≠ .ok true) ∧
      Spares b ((b.delete p).runFrom s).2 rest

def Operation.Spares (b : Backend σ) (s : σ) : Operation → Prop
  | .change (.delete paths) => Storage.Spares b s paths
  | _ => True

end Storage

end Depot
