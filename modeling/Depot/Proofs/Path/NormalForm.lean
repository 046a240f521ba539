import Depot.Proofs.Path

/-!
The normal form of a path. A text that is made around a separator has the pieces of both sides,
so that a separator at an end or beside another one leaves an empty piece. Clean names are the
pieces of their join and are read back from it, and a path in normal form is nothing but a list
of clean names.
-/
namespace Depot.Path

variable {p q : String} {names others : List String} {n : String}

theorem pieces_append (p q : String) :
    pieces (p ++ String.singleton separator ++ q) = pieces p ++ pieces q := by
  simp only [pieces, String.toList_append, String.toList_singleton, List.append_assoc,
    List.singleton_append, List.splitOn_append_cons_self, List.map_append]

theorem join_append (hnames : names ≠ []) (hothers : others ≠ []) :
    join (names ++ others) = join names ++ String.singleton separator ++ join others :=
  String.intercalate_append_of_ne_nil hnames hothers

/-- A clean name is a path of its own. -/
theorem pieces_of_clean (hclean : Clean n) : pieces n = [n] := by
  have hfree : ∀ m ∈ [n], separator ∉ m.toList := fun m hm => by
    rw [List.mem_singleton.mp hm]
    exact hclean.2.1
  have hjoin := pieces_join (List.cons_ne_nil n []) hfree
  rwa [join, String.intercalate_singleton] at hjoin

theorem segments_of_clean (hclean : Clean n) : segments n = [n] := by
  rw [segments, pieces_of_clean hclean, List.foldl_cons, List.foldl_nil, step_of_clean hclean]
  rfl

theorem pieces_normalize (hp : segments p ≠ []) : pieces (normalize p) = segments p :=
  pieces_join hp fun _ hm => (clean_of_mem_segments hm).2.1

/-- A separator stands at neither end and nowhere beside another one. -/
structure Trim (p : String) : Prop where
  first : p.toList.head? ≠ some separator
  last : p.toList.getLast? ≠ some separator
  apart : ¬ [separator, separator] <:+: p.toList

/-- Separators at an end or side by side leave an empty piece. -/
theorem trim_of_pieces (hpieces : "" ∉ pieces p) : Trim p := by
  have hempty : [] ∉ p.toList.splitOn separator := fun hmem =>
    hpieces (List.mem_map.mpr ⟨[], hmem, rfl⟩)
  refine ⟨fun hfirst => ?_, fun hlast => ?_, fun ⟨front, back, hsplit⟩ => ?_⟩
  · obtain ⟨rest, hrest⟩ := List.head?_eq_some_iff.mp hfirst
    apply hempty
    rw [hrest]
    exact List.splitOn_append_cons_self [] rest ▸ List.mem_append_left _ (by simp)
  · obtain ⟨rest, hrest⟩ := List.getLast?_eq_some_iff.mp hlast
    apply hempty
    rw [hrest, List.splitOn_append_cons_self]
    exact List.mem_append_right _ (by simp)
  · apply hempty
    rw [← hsplit, List.append_assoc]
    change [] ∈ (front ++ separator :: ([] ++ separator :: back)).splitOn separator
    rw [List.splitOn_append_cons_self, List.splitOn_append_cons_self]
    exact List.mem_append_right _ (List.mem_append_left _ (by simp))

theorem trim_normalize (p : String) : Trim (normalize p) := by
  by_cases hsegments : segments p = []
  · rw [normalize, hsegments]
    exact ⟨by simp [join], by simp [join], by simp [join]⟩
  · apply trim_of_pieces
    rw [pieces_normalize hsegments]
    exact fun hmem => (clean_of_mem_segments hmem).1 rfl

theorem normalize_join (hclean : ∀ n ∈ names, Clean n) : normalize (join names) = join names := by
  rw [normalize, segments_join hclean]

theorem normalize_eq_self_iff :
    normalize p = p ↔ ∃ names, (∀ n ∈ names, Clean n) ∧ p = join names := by
  constructor
  · intro hp
    exact ⟨segments p, fun n => clean_of_mem_segments, hp.symm⟩
  · rintro ⟨names, hclean, rfl⟩
    exact normalize_join hclean

/-- Paths are lists of clean names. Whatever is read from a path is such a list, each such list is
read back from its join, and so the normal form of a path keeps its names, is its own normal form
and tells apart just the paths with different names. The paths in normal form are the joins of
clean names, and no separator in them stands at an end or beside another one. -/
theorem normal_form (p q : Option String) (names : List String) :
    (∀ n ∈ segments (orRoot p), Clean n) ∧
    ((∀ n ∈ names, Clean n) → segments (join names) = names) ∧
    segments (normalize (orRoot p)) = segments (orRoot p) ∧
    normalize (normalize (orRoot p)) = normalize (orRoot p) ∧
    (normalize (orRoot p) = normalize (orRoot q) ↔ segments (orRoot p) = segments (orRoot q)) ∧
    (some (normalize (orRoot p)) = p ↔ ∃ names, (∀ n ∈ names, Clean n) ∧ p = some (join names)) ∧
    Trim (normalize (orRoot p)) := by
  refine ⟨fun n => clean_of_mem_segments, segments_join, segments_normalize _,
    normalize_normalize _, normalize_eq_iff, ?_, trim_normalize _⟩
  cases p with
  | none => simp
  | some p => simpa [orRoot] using normalize_eq_self_iff

/-- Dots are no obstacle as long as there are not just one or two of them. -/
theorem normal_form_dots :
    (∀ n ∈ ["...", "..a", "b."], Clean n) ∧
      segments (join ["...", "..a", "b."]) = ["...", "..a", "b."] := by
  have hclean : ∀ n ∈ ["...", "..a", "b."], Clean n := by decide
  exact ⟨hclean, (normal_form none none ["...", "..a", "b."]).2.1 hclean⟩

end Depot.Path
