import Depot.Proofs.Path.NormalForm
import Mathlib.Logic.Relation

/-!
What lies under what. A path is under a folder when the folder's names begin its own, which is
to say that the folder is reached by going up from it, or that the text of the folder and a
separator begin its text. A name that begins another name does not count, since a separator has
to follow, and the root, which has no text, is above everything else.
-/
namespace Depot.Path

variable {p q r f : String} {n : Nat}

def Up (p f : String) : Prop := parent? p = some f

theorem isUnder_normalize (p q : String) : isUnder (normalize p) (normalize q) = isUnder p q := by
  simp [isUnder]

theorem isRoot_eq_false_iff : isRoot p = false ↔ segments p ≠ [] := by
  simp [isRoot]

theorem normalize_eq_root_iff : normalize p = root ↔ segments p = [] := by
  constructor
  · intro hroot
    rw [← segments_normalize p, hroot, segments_root]
  · intro hnil
    rw [normalize, hnil]
    rfl

theorem isUnder_iff_append :
    isUnder p q = true ↔ ∃ rest ≠ [], segments p = segments q ++ rest := by
  rw [isUnder_iff]
  constructor
  · rintro ⟨hlength, rest, hrest⟩
    refine ⟨rest, ?_, hrest.symm⟩
    rintro rfl
    rw [← hrest, List.append_nil] at hlength
    exact absurd hlength (Nat.lt_irrefl _)
  · rintro ⟨rest, hne, hrest⟩
    have hpos := List.length_pos_iff.mpr hne
    rw [hrest, List.length_append]
    exact ⟨by omega, List.prefix_append _ _⟩

theorem up_iff : Up p f ↔ segments p ≠ [] ∧ f = folderOf p := by
  unfold Up folderOf parent?
  cases segments p with
  | nil => simp
  | cons n rest => simp [orRoot, eq_comm]

/-- What is under a folder has a parent, which is that folder or again under it. -/
theorem isUnder_iff_folderOf :
    isUnder p q = true ↔
      segments p ≠ [] ∧ (normalize (folderOf p) = normalize q ∨ isUnder (folderOf p) q = true) := by
  rw [normalize_eq_iff, isUnder_iff_append, isUnder_iff_append, segments_folderOf]
  constructor
  · rintro ⟨rest, hne, hrest⟩
    refine ⟨by simp [hrest, hne], ?_⟩
    rw [hrest, List.dropLast_append_of_ne_nil hne]
    by_cases hone : rest.dropLast = []
    · exact Or.inl (by rw [hone, List.append_nil])
    · exact Or.inr ⟨rest.dropLast, hone, rfl⟩
  · rintro ⟨hsome, habove⟩
    have hsplit := List.dropLast_append_getLast hsome
    rcases habove with heq | ⟨rest, -, hrest⟩
    · exact ⟨[(segments p).getLast hsome], by simp, by rw [← heq, hsplit]⟩
    · refine ⟨rest ++ [(segments p).getLast hsome], by simp, ?_⟩
      rw [← List.append_assoc, ← hrest, hsplit]

/-- Going up from a path leads to the folders that it is under. -/
theorem isUnder_iff_up : isUnder p q = true ↔ Relation.TransGen Up p (normalize q) := by
  constructor
  · intro hunder
    -- Each step up leaves one name less, and the last one ends at the folder's normal form.
    generalize hn : (segments p).length = n
    induction n generalizing p with
    | zero => exact absurd (List.length_eq_zero_iff.mp hn) (isUnder_iff_folderOf.mp hunder).1
    | succ n ih =>
      obtain ⟨hsome, habove⟩ := isUnder_iff_folderOf.mp hunder
      have hup : Up p (folderOf p) := up_iff.mpr ⟨hsome, rfl⟩
      rcases habove with heq | hunder'
      · rw [normalize_folderOf] at heq
        exact heq ▸ .single hup
      · refine .head hup (ih hunder' ?_)
        rw [segments_folderOf, List.length_dropLast, hn, Nat.add_sub_cancel]
  · intro hreached
    induction hreached using Relation.TransGen.head_induction_on with
    | single hup =>
      obtain ⟨hsome, hfolder⟩ := up_iff.mp hup
      refine isUnder_iff_folderOf.mpr ⟨hsome, Or.inl ?_⟩
      rw [← hfolder, normalize_normalize]
    | head hup _ ih =>
      obtain ⟨hsome, rfl⟩ := up_iff.mp hup
      exact isUnder_iff_folderOf.mpr ⟨hsome, Or.inr ih⟩

/-- The text of a folder and a separator begin what is under it. -/
theorem isUnder_iff_startsWith :
    isUnder p q = true ↔
      normalize p ≠ root ∧
        (normalize q = root ∨ (normalize p).startsWith (normalize q ++ "/") = true) := by
  rw [String.startsWith_string_iff, ne_eq, normalize_eq_root_iff, normalize_eq_root_iff,
    isUnder_iff_append]
  constructor
  · rintro ⟨rest, hne, hrest⟩
    refine ⟨by simp [hrest, hne], ?_⟩
    by_cases hq : segments q = []
    · exact Or.inl hq
    · right
      rw [normalize, normalize, hrest, join_append hq hne]
      exact ⟨_, String.toList_append.symm⟩
  · rintro ⟨hp, habove⟩
    by_cases hq : segments q = []
    · exact ⟨segments p, hp, by rw [hq, List.nil_append]⟩
    · obtain ⟨tail, htail⟩ := habove.resolve_left hq
      have htext : normalize p = normalize q ++ "/" ++ String.ofList tail := by
        apply String.toList_injective
        simp only [← htail, String.toList_append, String.toList_ofList]
      refine ⟨pieces (String.ofList tail), ?_, ?_⟩
      · exact fun hnil => List.splitOn_ne_nil _ _ (List.map_eq_nil_iff.mp hnil)
      · rw [← pieces_normalize hp, htext, ← pieces_normalize hq]
        exact pieces_append _ _

/-- Of two folders around a path one is the other or under it. -/
theorem comparable_of_isUnder (hpq : isUnder p q = true) (hpr : isUnder p r = true) :
    normalize q = normalize r ∨ isUnder q r = true ∨ isUnder r q = true := by
  have hq := (isUnder_iff.mp hpq).2
  have hr := (isUnder_iff.mp hpr).2
  rcases Nat.lt_trichotomy (segments q).length (segments r).length with hlt | heq | hgt
  · have hsub := List.prefix_of_prefix_length_le hq hr (Nat.le_of_lt hlt)
    exact Or.inr (Or.inr (isUnder_iff.mpr ⟨hlt, hsub⟩))
  · have hsub := List.prefix_of_prefix_length_le hq hr (Nat.le_of_eq heq)
    exact Or.inl (normalize_eq_iff.mpr (hsub.eq_of_length heq))
  · have hsub := List.prefix_of_prefix_length_le hr hq (Nat.le_of_lt hgt)
    exact Or.inr (Or.inl (isUnder_iff.mpr ⟨hgt, hsub⟩))

/-- To be under a folder is to have it among one's ancestors. It is a matter of the normal forms
alone, irreflexive and transitive. What is under a folder is not the root, and its parent is that
folder or again under it, so that going up once or more often leads to the folder; its normal
form begins with that of the folder and a separator, unless the folder is the root, which
everything else is under. Of any two folders around one path, one is the other or under it. -/
theorem ancestor_order (p q r : String) :
    isUnder p q = isUnder (normalize p) (normalize q) ∧
    isUnder p p = false ∧
    (isUnder p q = true → isUnder q r = true → isUnder p r = true) ∧
    (isUnder p q = true ↔ isRoot p = false ∧
      (normalize (orRoot (parent? p)) = normalize q ∨ isUnder (orRoot (parent? p)) q = true)) ∧
    (isUnder p q = true ↔ Relation.TransGen Up p (normalize q)) ∧
    (isUnder p q = true ↔ normalize p ≠ root ∧
      (normalize q = root ∨ (normalize p).startsWith (normalize q ++ "/") = true)) ∧
    (isUnder p q = true → isUnder p r = true →
      normalize q = normalize r ∨ isUnder q r = true ∨ isUnder r q = true) := by
  refine ⟨(isUnder_normalize p q).symm, not_isUnder_self p, isUnder_trans, ?_, isUnder_iff_up,
    isUnder_iff_startsWith, comparable_of_isUnder⟩
  rw [isRoot_eq_false_iff]
  exact isUnder_iff_folderOf

/-- A folder's namesake further down, and a name that only begins with the folder's. -/
theorem ancestor_order_namesake :
    isUnder "/a/ab//a/x" "a/ab/." = true ∧ isUnder "a/ab/." "b/../a" = true ∧
      isUnder "/a/ab//a/x" "b/../a" = true ∧ isUnder "a/ab" "a/a" = false := by
  have hunder : isUnder "/a/ab//a/x" "a/ab/." = true := by decide
  have habove : isUnder "a/ab/." "b/../a" = true := by decide
  obtain ⟨-, -, htrans, -⟩ := ancestor_order "/a/ab//a/x" "a/ab/." "b/../a"
  exact ⟨hunder, habove, htrans hunder habove, by decide⟩

end Depot.Path
