import Depot.Proofs.Storage.Change
import Mathlib.Data.List.DropRight

/-!
The history of a path: the changes made through a storage and their answers, as far as they
concern one path. The life of a file begins with the first write that succeeds and ends with
a delete of its path or of a folder above it.
-/
namespace Depot.Storage

structure Deed where
  change : Change
  answer : Except Fault Unit

def deeds {σ : Type} (b : Backend σ) : σ → List Change → List Deed
  | _, [] => []
  | s, c :: rest => ⟨c, ((c.act b).runFrom s).1⟩ :: deeds b (c.apply b s) rest

namespace Deed

def removes (p : String) (d : Deed) : Bool :=
  match d.change with
  | .delete paths =>
    (paths.map fun path => Path.normalize (Path.orRoot path)).any fun q =>
      p = q || Path.isUnder p q
  | _ => false

def written? (p : String) (d : Deed) : Option (Bytes × Bool) :=
  match d.change, d.answer with
  | .write path data append, .ok _ =>
    if Path.normalize (Path.orRoot path) = p then some (data, append) else none
  | _, _ => none

def attached? (p : String) (d : Deed) : Option Texts :=
  match d.change, d.answer with
  | .annotate path m, .ok _ => if Path.normalize (Path.orRoot path) = p then some m else none
  | _, _ => none

end Deed

def sinceRemoved (p : String) (ds : List Deed) : List Deed := ds.rtakeWhile fun d => !d.removes p

/-- The deeds since the file at a path was made, with the one that made it. There are none
when the path has not been written since it was last taken away. -/
def sinceMade (p : String) (ds : List Deed) : List Deed :=
  (sinceRemoved p ds).dropWhile fun d => (d.written? p).isNone

/-- What the writes come to: the last one that is no append, or the one that made the file,
and then all appends after it. -/
def contentOf (writes : List (Bytes × Bool)) : Bytes :=
  ((writes.rdropWhile Prod.snd).getLast?.toList ++ writes.rtakeWhile Prod.snd).flatMap Prod.fst

def contentSince (p : String) (life : List Deed) : Bytes :=
  contentOf (life.filterMap (Deed.written? p))

def metadataSince (p : String) (life : List Deed) : Texts :=
  (life.filterMap (Deed.attached? p)).getLast?.getD .empty

variable {σ : Type} {b : Backend σ} {s : σ} {p : String} {ds : List Deed} {d : Deed}

theorem after_concat (s : σ) (changes : List Change) (c : Change) :
    after b s (changes ++ [c]) = c.apply b (after b s changes) := by
  simp [after]

theorem deeds_concat (s : σ) (changes : List Change) (c : Change) :
    deeds b s (changes ++ [c]) =
      deeds b s changes ++ [⟨c, ((c.act b).runFrom (after b s changes)).1⟩] := by
  induction changes generalizing s with
  | nil => rfl
  | cons first rest ih =>
    simp only [List.cons_append, deeds, ih]
    rfl

theorem sinceMade_of_removes (h : d.removes p = true) : sinceMade p (ds ++ [d]) = [] := by
  rw [sinceMade, sinceRemoved, List.rtakeWhile_concat_neg _ _ _ (by simp [h])]
  rfl

/-- A deed that takes nothing away goes on with the life of a file, or begins it. -/
theorem sinceMade_concat (h : d.removes p = false) :
    sinceMade p (ds ++ [d]) =
      if sinceMade p ds = [] then if (d.written? p).isSome then [d] else []
      else sinceMade p ds ++ [d] := by
  rw [sinceMade, sinceRemoved, List.rtakeWhile_concat_pos _ _ _ (by simp [h]),
    List.dropWhile_append, ← sinceRemoved, ← sinceMade]
  simp only [List.isEmpty_iff]
  split
  · cases hwritten : d.written? p <;> simp [hwritten]
  · rfl

/-- There is no life without a write since the last end. -/
theorem sinceMade_eq_nil :
    sinceMade p ds = [] ↔ ∀ d ∈ sinceRemoved p ds, d.written? p = none := by
  simp [sinceMade]

theorem contentOf_append (writes : List (Bytes × Bool)) (data : Bytes) :
    contentOf (writes ++ [(data, true)]) = contentOf writes ++ data := by
  rw [contentOf, List.rdropWhile_concat_pos _ _ _ rfl, List.rtakeWhile_concat_pos _ _ _ rfl,
    ← List.append_assoc, List.flatMap_append]
  simp [contentOf]

theorem contentOf_overwrite (writes : List (Bytes × Bool)) (data : Bytes) :
    contentOf (writes ++ [(data, false)]) = data := by
  rw [contentOf, List.rdropWhile_concat_neg _ _ _ (by simp),
    List.rtakeWhile_concat_neg _ _ _ (by simp)]
  simp

end Depot.Storage
