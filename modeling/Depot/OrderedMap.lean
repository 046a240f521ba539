/-!
Finite maps that remember the order in which their keys first appeared. A key
that is written again keeps its place and takes the new value. The view of a
map is its list of entries; every operation has one lemma that reads it back
through `get?`.
-/
namespace Depot

structure OrderedMap (κ α : Type) where
  entries : List (κ × α)
  nodup : (entries.map Prod.fst).Nodup

namespace OrderedMap

variable {κ α β : Type}

def empty : OrderedMap κ α := ⟨[], List.nodup_nil⟩

instance : EmptyCollection (OrderedMap κ α) := ⟨empty⟩
instance : Inhabited (OrderedMap κ α) := ⟨empty⟩

def keys (m : OrderedMap κ α) : List κ := m.entries.map Prod.fst

def values (m : OrderedMap κ α) : List α := m.entries.map Prod.snd

def size (m : OrderedMap κ α) : Nat := m.entries.length

@[ext] theorem ext {m n : OrderedMap κ α} (h : m.entries = n.entries) : m = n := by
  cases m; cases n; cases h; rfl

def filter (m : OrderedMap κ α) (p : κ → α → Bool) : OrderedMap κ α where
  entries := m.entries.filter fun e => p e.1 e.2
  nodup := m.nodup.sublist (List.filter_sublist.map Prod.fst)

def mapValues (m : OrderedMap κ α) (f : κ → α → β) : OrderedMap κ β where
  entries := m.entries.map fun e => (e.1, f e.1 e.2)
  nodup := by simpa [List.map_map, Function.comp_def] using m.nodup

variable [DecidableEq κ]

def get? (m : OrderedMap κ α) (k : κ) : Option α := m.entries.lookup k

def contains (m : OrderedMap κ α) (k : κ) : Bool := (m.get? k).isSome

def replace (k : κ) (v : α) : List (κ × α) → List (κ × α) :=
  List.map fun e => if e.1 = k then (k, v) else e

omit [DecidableEq κ] in
theorem replace_keys [DecidableEq κ] (k : κ) (v : α) (l : List (κ × α)) :
    (replace k v l).map Prod.fst = l.map Prod.fst := by
  induction l with
  | nil => rfl
  | cons e rest ih =>
    by_cases h : e.1 = k
    · simpa [replace, h] using ih
    · simpa [replace, h] using ih

theorem lookup_eq_none_iff {k : κ} {l : List (κ × α)} :
    l.lookup k = none ↔ k ∉ l.map Prod.fst := by
  induction l with
  | nil => simp
  | cons e rest ih =>
    obtain ⟨key, value⟩ := e
    by_cases h : k = key
    · simp [h]
    · simp [List.lookup_cons, h, beq_eq_false_iff_ne.mpr h, ih]

/-- Writes `v` under `k`: in place when the key is there, else at the end. -/
def insert (m : OrderedMap κ α) (k : κ) (v : α) : OrderedMap κ α :=
  match h : m.entries.lookup k with
  | some _ => ⟨replace k v m.entries, by rw [replace_keys]; exact m.nodup⟩
  | none =>
    ⟨m.entries ++ [(k, v)], by
      have fresh := lookup_eq_none_iff.mp h
      simp only [List.map_append, List.map_cons, List.map_nil]
      refine List.nodup_append.mpr ⟨m.nodup, by simp, ?_⟩
      intro a ha b hb hab
      simp only [List.mem_singleton] at hb
      exact fresh (hb ▸ hab ▸ ha)⟩

def erase (m : OrderedMap κ α) (k : κ) : OrderedMap κ α :=
  m.filter fun key _ => key ≠ k

def modify (m : OrderedMap κ α) (k : κ) (f : α → α) : OrderedMap κ α :=
  m.mapValues fun key value => if key = k then f value else value

def ofList (l : List (κ × α)) : OrderedMap κ α :=
  l.foldl (fun m e => m.insert e.1 e.2) empty

def update (m n : OrderedMap κ α) : OrderedMap κ α :=
  n.entries.foldl (fun acc e => acc.insert e.1 e.2) m

@[simp] theorem get?_empty (k : κ) : (empty : OrderedMap κ α).get? k = none := rfl

private theorem lookup_replace (k q : κ) (v : α) (l : List (κ × α)) :
    (replace k v l).lookup q =
      if q = k then (l.lookup k).map fun _ => v else l.lookup q := by
  induction l with
  | nil => simp [replace]
  | cons e rest ih =>
    obtain ⟨key, value⟩ := e
    simp only [replace, List.map_cons] at ih ⊢
    by_cases hkey : key = k
    · subst hkey
      by_cases hq : q = key
      · simp [hq]
      · simp only [if_true, List.lookup_cons, beq_eq_false_iff_ne.mpr hq, ih, if_neg hq]
    · by_cases hq : q = k
      · have hne : (k == key) = false := beq_eq_false_iff_ne.mpr fun h => hkey h.symm
        simp only [if_neg hkey, hq, List.lookup_cons, hne, if_true]
        simpa [hq] using ih
      · simp only [if_neg hkey, List.lookup_cons, if_neg hq]
        simp only [if_neg hq] at ih
        rw [ih]

private theorem lookup_append (q : κ) (l l' : List (κ × α)) :
    (l ++ l').lookup q = (l.lookup q).or (l'.lookup q) := by
  induction l with
  | nil => simp
  | cons e rest ih =>
    obtain ⟨key, value⟩ := e
    by_cases h : q = key
    · simp [h]
    · simp only [List.cons_append, List.lookup_cons, beq_eq_false_iff_ne.mpr h, ih]

theorem get?_insert (m : OrderedMap κ α) (k q : κ) (v : α) :
    (m.insert k v).get? q = if q = k then some v else m.get? q := by
  unfold insert get?
  split
  · rename_i old h
    simp only [lookup_replace, h, Option.map_some]
  · rename_i h
    simp only [lookup_append, List.lookup_cons, List.lookup_nil]
    by_cases hq : q = k
    · simp [hq, h]
    · simp [hq, beq_eq_false_iff_ne.mpr hq]

private theorem lookup_filter_ne (k q : κ) (l : List (κ × α)) :
    (l.filter fun e => decide (e.1 ≠ k)).lookup q = if q = k then none else l.lookup q := by
  induction l with
  | nil => simp
  | cons e rest ih =>
    obtain ⟨key, value⟩ := e
    by_cases hkey : key = k
    · subst hkey
      by_cases hq : q = key
      · simpa [hq] using ih
      · simpa [hq, List.lookup_cons, beq_eq_false_iff_ne.mpr hq] using ih
    · by_cases hq : q = key
      · simp [hq, hkey]
      · simp only [ne_eq, hkey, not_false_eq_true, decide_true, List.filter_cons_of_pos,
          List.lookup_cons, beq_eq_false_iff_ne.mpr hq]
        simpa using ih

theorem get?_erase (m : OrderedMap κ α) (k q : κ) :
    (m.erase k).get? q = if q = k then none else m.get? q :=
  lookup_filter_ne k q m.entries

theorem get?_eq_none_iff (m : OrderedMap κ α) (k : κ) : m.get? k = none ↔ k ∉ m.keys :=
  lookup_eq_none_iff

end OrderedMap

end Depot
