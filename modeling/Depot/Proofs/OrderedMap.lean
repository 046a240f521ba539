import Depot.OrderedMap
import Mathlib.Algebra.GroupWithZero.Nat
import Mathlib.Algebra.BigOperators.Group.List.Basic
import Mathlib.Data.List.Basic
import Mathlib.Data.List.Nodup

/-!
More about ordered maps: which keys are there, what a filter on keys leaves, maps that
are made from a list of entries or written into each other, and how much the values of a map
weigh together.
-/
namespace Depot.OrderedMap

variable {κ α : Type} [DecidableEq κ] {m : OrderedMap κ α} {k : κ}

theorem mem_keys_iff : k ∈ m.keys ↔ ∃ v, m.get? k = some v := by
  rw [← not_iff_not, ← get?_eq_none_iff, Option.eq_none_iff_forall_ne_some, not_exists]

theorem contains_iff : m.contains k = true ↔ ∃ v, m.get? k = some v := by
  simp only [contains, Option.isSome_iff_exists]

theorem get?_filter_keys (m : OrderedMap κ α) (keep : κ → Bool) (k : κ) :
    (m.filter fun key _ => keep key).get? k = if keep k then m.get? k else none := by
  change (m.entries.filter fun e => keep e.1).lookup k = if keep k then m.entries.lookup k else none
  induction m.entries with
  | nil => simp
  | cons e rest ih =>
    obtain ⟨key, value⟩ := e
    by_cases hk : k = key
    · subst hk
      cases hkeep : keep k with
      | true => simp [hkeep]
      | false =>
        rw [List.filter_cons_of_neg (by simpa using hkeep), ih, hkeep]
        simp
    · cases hkeep : keep key with
      | true =>
        simp only [List.filter_cons, hkeep, if_true, List.lookup_cons, beq_eq_false_iff_ne.mpr hk]
        exact ih
      | false =>
        simp only [List.filter_cons, hkeep, Bool.false_eq_true, if_false, List.lookup_cons,
          beq_eq_false_iff_ne.mpr hk]
        exact ih

/-- A new key goes to the end. -/
theorem entries_insert_of_new (hnew : m.get? k = none) (v : α) :
    (m.insert k v).entries = m.entries ++ [(k, v)] := by
  have hlookup : m.entries.lookup k = none := hnew
  unfold insert
  split
  · next h => simp [hlookup] at h
  · rfl

/-- A key that is there keeps its place. -/
theorem entries_insert_of_old {old : α} (hold : m.get? k = some old) (v : α) :
    (m.insert k v).entries = replace k v m.entries := by
  have hlookup : m.entries.lookup k = some old := hold
  unfold insert
  split
  · rfl
  · next h => simp [hlookup] at h

theorem replace_of_new {l : List (κ × α)} (hnew : k ∉ l.map Prod.fst) (v : α) :
    replace k v l = l := by
  refine (List.map_congr_left fun e he => if_neg ?_).trans (List.map_id l)
  rintro rfl
  exact hnew (List.mem_map_of_mem he)

theorem replace_replace (k : κ) (v v' : α) (l : List (κ × α)) :
    replace k v' (replace k v l) = replace k v' l := by
  rw [replace, replace, List.map_map]
  refine List.map_congr_left fun e _ => ?_
  by_cases hkey : e.1 = k <;> simp [hkey]

/-- Of two values that are written under one key the second stays. -/
theorem insert_insert (m : OrderedMap κ α) (k : κ) (v v' : α) :
    (m.insert k v).insert k v' = m.insert k v' := by
  apply ext
  have hthere : (m.insert k v).get? k = some v := by rw [get?_insert, if_pos rfl]
  rw [entries_insert_of_old hthere]
  cases hold : m.get? k with
  | none =>
    have hnew : k ∉ m.entries.map Prod.fst := (get?_eq_none_iff m k).mp hold
    rw [entries_insert_of_new hold, entries_insert_of_new hold]
    conv_rhs => rw [← replace_of_new hnew v']
    simp [replace]
  | some old =>
    rw [entries_insert_of_old hold, entries_insert_of_old hold, replace_replace]

theorem entries_foldl_insert (l : List (κ × α)) (m : OrderedMap κ α)
    (hnodup : ((m.entries ++ l).map Prod.fst).Nodup) :
    (l.foldl (fun m e => m.insert e.1 e.2) m).entries = m.entries ++ l := by
  induction l generalizing m with
  | nil => simp
  | cons e rest ih =>
    have hnew : m.get? e.1 = none := by
      rw [get?_eq_none_iff]
      intro hmem
      rw [List.map_append, List.nodup_append] at hnodup
      exact hnodup.2.2 _ hmem _ (by simp) rfl
    have hinsert := entries_insert_of_new hnew e.2
    rw [List.foldl_cons, ih _ (by rwa [hinsert, List.append_assoc]), hinsert, List.append_assoc]
    rfl

/-- Distinct keys stay as they are listed. -/
theorem entries_ofList (l : List (κ × α)) (hnodup : (l.map Prod.fst).Nodup) :
    (ofList l).entries = l :=
  entries_foldl_insert l .empty hnodup

theorem get?_eq_some_iff {v : α} : m.get? k = some v ↔ (k, v) ∈ m.entries := by
  have hnodup := m.nodup
  change m.entries.lookup k = some v ↔ _
  generalize m.entries = l at hnodup ⊢
  induction l with
  | nil => simp
  | cons e rest ih =>
    obtain ⟨key, value⟩ := e
    simp only [List.map_cons, List.nodup_cons] at hnodup
    by_cases hkey : k = key
    · subst hkey
      have hrest : (k, v) ∉ rest := fun hmem => hnodup.1 (List.mem_map_of_mem hmem)
      simp [hrest, eq_comm]
    · rw [List.lookup_cons, beq_eq_false_iff_ne.mpr hkey]
      simp [ih hnodup.2, hkey]

/-- Writing what is there already changes nothing. -/
theorem insert_of_get? {v : α} (h : m.get? k = some v) : m.insert k v = m := by
  apply ext
  rw [entries_insert_of_old h]
  refine (List.map_congr_left fun e he => ?_).trans (List.map_id m.entries)
  split
  · next hkey =>
    have hvalue := get?_eq_some_iff.mpr he
    rw [hkey, h] at hvalue
    exact Prod.ext hkey.symm (Option.some.inj hvalue)
  · rfl

/-- A key that is taken away need not be written first. -/
theorem erase_insert (m : OrderedMap κ α) (k : κ) (v : α) : (m.insert k v).erase k = m.erase k := by
  apply ext
  change (m.insert k v).entries.filter (fun e => decide (e.1 ≠ k)) =
    m.entries.filter fun e => decide (e.1 ≠ k)
  unfold insert
  split
  · dsimp only
    induction m.entries with
    | nil => rfl
    | cons e rest ih =>
      by_cases hkey : e.1 = k
      · simpa [replace, hkey] using ih
      · simpa [replace, hkey] using ih
  · simp

theorem erase_of_new (hnew : m.get? k = none) : m.erase k = m := by
  apply ext
  refine List.filter_eq_self.mpr fun e he => decide_eq_true ?_
  rintro rfl
  exact (get?_eq_none_iff m e.1).mp hnew (List.mem_map_of_mem he)

theorem foldl_insert_of_subset (l : List (κ × α)) (hsub : l ⊆ m.entries) :
    l.foldl (fun m e => m.insert e.1 e.2) m = m := by
  induction l with
  | nil => rfl
  | cons e rest ih =>
    have hthere := get?_eq_some_iff.mpr (hsub List.mem_cons_self)
    rw [List.foldl_cons, insert_of_get? hthere]
    exact ih fun x hx => hsub (List.mem_cons_of_mem e hx)

theorem update_self (m : OrderedMap κ α) : m.update m = m :=
  foldl_insert_of_subset m.entries (List.Subset.refl _)

theorem empty_update (m : OrderedMap κ α) : empty.update m = m :=
  ext (entries_ofList m.entries m.nodup)

/-- What an update leaves under a key was there before or comes with the update. -/
theorem get?_update_cases {n : OrderedMap κ α} {v : α} (h : (m.update n).get? k = some v) :
    m.get? k = some v ∨ n.get? k = some v := by
  rw [get?_eq_some_iff (m := n)]
  unfold update at h
  generalize n.entries = l at h ⊢
  induction l generalizing m with
  | nil => exact Or.inl h
  | cons e rest ih =>
    rcases ih h with hbefore | hrest
    · rw [get?_insert] at hbefore
      split at hbefore
      · next hkey =>
        have he : (k, v) = e := Prod.ext hkey (Option.some.inj hbefore).symm
        exact Or.inr (he ▸ List.mem_cons_self)
      · exact Or.inl hbefore
    · exact Or.inr (List.mem_cons_of_mem e hrest)

/-- A value that is taken away is the only one that goes. -/
theorem values_erase_perm {v : α} (h : m.get? k = some v) :
    (v :: (m.erase k).values).Perm m.values := by
  obtain ⟨front, back, hentries⟩ := List.append_of_mem (get?_eq_some_iff.mp h)
  have hnodup := m.nodup
  rw [hentries, List.map_append, List.map_cons, List.nodup_middle, List.nodup_cons,
    ← List.map_append] at hnodup
  have hrest : (m.erase k).entries = front ++ back := by
    change m.entries.filter (fun e => decide (e.1 ≠ k)) = _
    rw [hentries, List.filter_append, List.filter_cons_of_neg (by simp), ← List.filter_append]
    refine List.filter_eq_self.mpr fun e he => decide_eq_true fun hkey => hnodup.1 ?_
    exact List.mem_map.mpr ⟨e, he, hkey⟩
  rw [values, values, hrest, hentries, List.map_append, List.map_append]
  exact List.perm_middle.symm

def weigh (w : α → Nat) (m : OrderedMap κ α) : Nat := (m.entries.map fun e => w e.2).sum

private theorem sum_replace {k : κ} {old : α} (v : α) (w : α → Nat) {l : List (κ × α)}
    (hnodup : (l.map Prod.fst).Nodup) (hold : l.lookup k = some old) :
    ((replace k v l).map fun e => w e.2).sum + w old = (l.map fun e => w e.2).sum + w v := by
  induction l with
  | nil => simp at hold
  | cons e rest ih =>
    obtain ⟨key, value⟩ := e
    simp only [List.map_cons, List.nodup_cons] at hnodup
    by_cases hkey : key = k
    · subst hkey
      obtain rfl : value = old := by simpa using hold
      have hrest : replace key v rest = rest := replace_of_new hnodup.1 v
      simp only [replace, List.map_cons, if_true, List.sum_cons] at hrest ⊢
      rw [hrest]
      omega
    · have hlookup : rest.lookup k = some old := by
        rwa [List.lookup_cons, beq_eq_false_iff_ne.mpr (Ne.symm hkey)] at hold
      have htail := ih hnodup.2 hlookup
      simp only [replace, List.map_cons, if_neg hkey, List.sum_cons] at htail ⊢
      omega

/-- A value that is written takes the place of the one that was there. -/
theorem weigh_insert (w : α → Nat) (m : OrderedMap κ α) (k : κ) (v : α) :
    (m.insert k v).weigh w + ((m.get? k).map w).getD 0 = m.weigh w + w v := by
  cases hold : m.get? k with
  | none => simp [weigh, entries_insert_of_new hold]
  | some old =>
    have hlookup : m.entries.lookup k = some old := hold
    rw [weigh, entries_insert_of_old hold]
    exact sum_replace v w m.nodup hlookup

/-- A value that is taken away weighs no longer. -/
theorem weigh_erase (w : α → Nat) (m : OrderedMap κ α) (k : κ) :
    (m.erase k).weigh w + ((m.get? k).map w).getD 0 = m.weigh w := by
  change ((m.entries.filter fun e => decide (e.1 ≠ k)).map fun e => w e.2).sum +
    ((m.entries.lookup k).map w).getD 0 = (m.entries.map fun e => w e.2).sum
  have hnodup := m.nodup
  generalize m.entries = l at hnodup ⊢
  induction l with
  | nil => simp
  | cons e rest ih =>
    obtain ⟨key, value⟩ := e
    simp only [List.map_cons, List.nodup_cons] at hnodup
    have htail := ih hnodup.2
    by_cases hkey : key = k
    · subst hkey
      have hnone : rest.lookup key = none := lookup_eq_none_iff.mpr hnodup.1
      rw [hnone, Option.map_none, Option.getD_none] at htail
      rw [List.filter_cons_of_neg (by simp), List.lookup_cons_self, Option.map_some,
        Option.getD_some, List.map_cons, List.sum_cons]
      dsimp only
      omega
    · rw [List.filter_cons_of_pos (by simpa using hkey), List.lookup_cons,
        beq_eq_false_iff_ne.mpr (Ne.symm hkey), List.map_cons, List.map_cons, List.sum_cons,
        List.sum_cons]
      dsimp only
      omega

end Depot.OrderedMap
