import Depot.Path
import Mathlib.Data.List.Basic

/-!
Paths as lists of names. What lies under what is a matter of prefixes of these lists,
and a path in normal form is known by its list.
-/
namespace Depot.Path

variable {p q r : String} {n : Nat}

theorem isUnder_iff :
    isUnder p q = true ↔
      (segments q).length < (segments p).length ∧ segments q <+: segments p := by
  simp [isUnder, List.isPrefixOf_iff_prefix]

theorem eq_of_segments (hp : normalize p = p) (hq : normalize q = q)
    (hsegments : segments p = segments q) : p = q := by
  rw [← hp, ← hq, normalize, normalize, hsegments]

theorem normalize_eq_iff : normalize p = normalize q ↔ segments p = segments q := by
  constructor
  · intro heq
    rw [← segments_normalize p, heq, segments_normalize]
  · intro heq
    rw [normalize, normalize, heq]

theorem not_isUnder_self (p : String) : isUnder p p = false := by
  simp [isUnder]

theorem isUnder_trans (hpq : isUnder p q = true) (hqr : isUnder q r = true) :
    isUnder p r = true := by
  rw [isUnder_iff] at *
  exact ⟨by omega, hqr.2.trans hpq.2⟩

theorem segments_ne_nil (hp : normalize p = p) (hroot : p ≠ root) : segments p ≠ [] := by
  intro hnil
  apply hroot
  rw [← hp, normalize, hnil]
  rfl

theorem isUnder_root (hp : normalize p = p) (hroot : p ≠ root) : isUnder p root = true := by
  rw [isUnder_iff, segments_root]
  exact ⟨List.length_pos_iff.mpr (segments_ne_nil hp hroot), List.nil_prefix⟩

theorem isRoot_iff (hp : normalize p = p) : isRoot p = true ↔ p = root := by
  constructor
  · intro hroot
    by_contra hne
    exact segments_ne_nil hp hne (by simpa [isRoot] using hroot)
  · rintro rfl
    simp [isRoot]

def upTo (n : Nat) (p : String) : String := join ((segments p).take n)

@[simp] theorem segments_upTo : segments (upTo n p) = (segments p).take n :=
  segments_join fun _ hm => clean_of_mem_segments (List.mem_of_mem_take hm)

@[simp] theorem normalize_upTo : normalize (upTo n p) = upTo n p := by
  rw [normalize, segments_upTo, upTo]

theorem isUnder_upTo (hn : n < (segments p).length) : isUnder p (upTo n p) = true := by
  rw [isUnder_iff, segments_upTo, List.length_take]
  exact ⟨by omega, List.take_prefix n _⟩

/-- A path in normal form around another one is given by the number of its names. -/
theorem eq_upTo (hq : normalize q = q) (hpq : isUnder p q = true) :
    q = upTo (segments q).length p := by
  apply eq_of_segments hq normalize_upTo
  rw [segments_upTo]
  exact List.prefix_iff_eq_take.mp (isUnder_iff.mp hpq).2

theorem upTo_isUnder (hpq : isUnder p q = true) (hn : (segments q).length < n) :
    isUnder (upTo n p) q = true := by
  rw [isUnder_iff] at *
  rw [segments_upTo, List.length_take]
  exact ⟨by omega, List.prefix_take_iff.mpr ⟨hpq.2, by omega⟩⟩

/-- The folders on the way to a path, as lists of names. -/
theorem exists_upTo {names : List String} (hnames : names <+: (segments p).dropLast)
    (hp : segments p ≠ []) :
    ∃ q, normalize q = q ∧ isUnder p q = true ∧ names = segments q := by
  have hlength := hnames.length_le
  have hpos := List.length_pos_iff.mpr hp
  rw [List.length_dropLast] at hlength
  refine ⟨upTo names.length p, normalize_upTo, isUnder_upTo (by omega), ?_⟩
  rw [segments_upTo]
  exact List.prefix_iff_eq_take.mp (hnames.trans (List.dropLast_prefix _))

def folderOf (p : String) : String := orRoot (parent? p)

theorem segments_folderOf (p : String) : segments (folderOf p) = (segments p).dropLast := by
  unfold folderOf parent?
  cases hnames : segments p with
  | nil => exact segments_root
  | cons name rest =>
    refine segments_join fun m hm => clean_of_mem_segments (p := p) ?_
    rw [hnames]
    exact (List.dropLast_sublist _).subset hm

theorem normalize_folderOf (p : String) : normalize (folderOf p) = folderOf p := by
  rw [normalize, segments_folderOf]
  unfold folderOf parent?
  cases segments p <;> rfl

/-- What lies one level under a folder is in that folder. -/
theorem folderOf_eq (hq : normalize q = q) (hpq : isUnder p q = true)
    (hlength : (segments p).length = (segments q).length + 1) : folderOf p = q := by
  apply eq_of_segments (normalize_folderOf p) hq
  rw [segments_folderOf, List.dropLast_eq_take, hlength, Nat.add_sub_cancel]
  exact (List.prefix_iff_eq_take.mp (isUnder_iff.mp hpq).2).symm

/-- What holds a path is one level above it. -/
theorem parent?_eq_some_iff (hq : normalize q = q) :
    parent? p = some q ↔
      isUnder p q = true ∧ (segments p).length = (segments q).length + 1 := by
  by_cases hnil : segments p = []
  · simp [parent?, hnil, isUnder]
  · have hsome : parent? p = some (folderOf p) := by
      unfold folderOf parent?
      cases hnames : segments p with
      | nil => exact absurd hnames hnil
      | cons name rest => rfl
    rw [hsome, Option.some.injEq]
    constructor
    · rintro rfl
      have hpos := List.length_pos_iff.mpr hnil
      rw [isUnder_iff, segments_folderOf, List.length_dropLast]
      exact ⟨⟨by omega, List.dropLast_prefix _⟩, by omega⟩
    · rintro ⟨hpq, hlength⟩
      exact folderOf_eq hq hpq hlength

/-- Of two folders around a path the one with more names lies under the other. -/
theorem isUnder_of_longer (hq : normalize q = q) (hpq : isUnder p q = true)
    (hpr : isUnder p r = true) (hlength : (segments r).length < (segments q).length) :
    isUnder q r = true := by
  rw [eq_upTo hq hpq]
  exact upTo_isUnder hpr hlength

theorem mem_properAncestors {file : String} :
    file ∈ properAncestors p ↔ ∃ n, 0 < n ∧ n < (segments p).length ∧ upTo n p = file := by
  simp only [properAncestors, List.mem_map, List.mem_range]
  constructor
  · rintro ⟨i, hi, rfl⟩
    exact ⟨i + 1, by omega, by omega, rfl⟩
  · rintro ⟨n, hpos, hn, rfl⟩
    exact ⟨n - 1, by omega, by rw [Nat.sub_add_cancel hpos]; rfl⟩

/-- A path in normal form is among the ancestors of another just when the other is under it. -/
theorem mem_properAncestors_iff (hq : normalize q = q) (hroot : q ≠ root) :
    q ∈ properAncestors p ↔ isUnder p q = true := by
  rw [mem_properAncestors]
  constructor
  · rintro ⟨n, -, hn, rfl⟩
    exact isUnder_upTo hn
  · intro hpq
    have hpos := List.length_pos_iff.mpr (segments_ne_nil hq hroot)
    exact ⟨(segments q).length, hpos, (isUnder_iff.mp hpq).1, (eq_upTo hq hpq).symm⟩

end Depot.Path
