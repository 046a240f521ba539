import Depot.Proofs.Path.NormalForm

/-!
Fragments that are put together. A fragment acts on the names that were read before it: it
goes down by a name, goes up, which at the root leads nowhere, or stays where it is. A
combination of fragments is what they lead to from the root one after another, and since the
normal form of a path leads there as well, combining is an action of fragments on folders.
-/
namespace Depot.Path

variable {names front : List String} {p : String} {f : Option String}
  {fs gs : List (Option String)}

def follow (names : List String) (f : Option String) : List String :=
  (pieces (orRoot f)).foldl step names

/-- A fragment of separators and `.` alone; one that is missing or empty is a case of it. -/
def Idle (f : Option String) : Prop := ∀ piece ∈ pieces (orRoot f), piece = "" ∨ piece = "."

instance (f : Option String) : Decidable (Idle f) := inferInstanceAs (Decidable (∀ _ ∈ _, _))

def Downward (f : Option String) : Prop := ".." ∉ pieces (orRoot f)

instance (f : Option String) : Decidable (Downward f) := inferInstanceAs (Decidable (_ ∉ _))

theorem idle_none : Idle none := by decide

theorem idle_empty : Idle (some "") := by decide

theorem follow_nil (f : Option String) : follow [] f = (segments (orRoot f)).reverse := by
  rw [segments, List.reverse_reverse]
  rfl

theorem follow_of_idle (hidle : Idle f) (names : List String) : follow names f = names := by
  unfold follow
  unfold Idle at hidle
  generalize pieces (orRoot f) = parts at hidle ⊢
  induction parts with
  | nil => rfl
  | cons piece rest ih =>
    rw [List.foldl_cons, step, if_pos (hidle piece List.mem_cons_self)]
    exact ih fun q hq => hidle q (List.mem_cons_of_mem _ hq)

/-- A path in normal form leads from the root to where its fragments lead. -/
theorem follow_normalize (f : Option String) :
    follow [] (some (normalize (orRoot f))) = follow [] f := by
  rw [follow_nil, follow_nil]
  exact congrArg List.reverse (segments_normalize _)

/-- What is read before does not matter to pieces that only go down. -/
theorem foldl_step_append {parts : List String} (hdown : ".." ∉ parts) (front names : List String) :
    parts.foldl step (front ++ names) = parts.foldl step front ++ names := by
  induction parts generalizing front with
  | nil => rfl
  | cons piece rest ih =>
    rw [List.mem_cons, not_or] at hdown
    have hstep : step (front ++ names) piece = step front piece ++ names := by
      unfold step
      split
      · rfl
      · rw [if_neg (Ne.symm hdown.1), if_neg (Ne.symm hdown.1), List.cons_append]
    rw [List.foldl_cons, List.foldl_cons, hstep, ih hdown.2]

theorem follow_of_downward (hdown : Downward f) (names : List String) :
    follow names f = (segments (orRoot f)).reverse ++ names := by
  rw [← follow_nil]
  exact foldl_step_append hdown [] names

theorem foldl_follow_of_downward (hdown : ∀ f ∈ fs, Downward f) (names : List String) :
    fs.foldl follow names = (fs.flatMap fun f => segments (orRoot f)).reverse ++ names := by
  induction fs generalizing names with
  | nil => rfl
  | cons f rest ih =>
    rw [List.foldl_cons, follow_of_downward (hdown f List.mem_cons_self),
      ih fun g hg => hdown g (List.mem_cons_of_mem _ hg)]
    simp

/-- The pieces of a join are those of its parts. -/
theorem follow_join (parts names : List String) :
    follow names (some (join parts)) = (parts.map some).foldl follow names := by
  induction parts generalizing names with
  | nil => exact follow_of_idle idle_empty names
  | cons p rest ih =>
    by_cases hrest : rest = []
    · simp [hrest, join]
    · have hjoin : join (p :: rest) = p ++ String.singleton separator ++ join rest :=
        String.intercalate_cons_of_ne_nil hrest
      have hpieces : pieces (join (p :: rest)) = pieces p ++ pieces (join rest) := by
        rw [hjoin, pieces_append]
      rw [List.map_cons, List.foldl_cons, ← ih]
      simp only [follow, orRoot, Option.getD_some, hpieces, List.foldl_append]

/-- Fragments that are left out of a combination would lead nowhere. -/
theorem foldl_follow_given (fs : List (Option String)) (names : List String) :
    ((fs.filterMap fun f => if f = some "" then none else f).map some).foldl follow names =
      fs.foldl follow names := by
  induction fs generalizing names with
  | nil => rfl
  | cons f rest ih =>
    rw [List.foldl_cons, ← ih]
    cases f with
    | none => rw [follow_of_idle idle_none, List.filterMap_cons_none (by simp)]
    | some p =>
      by_cases hp : p = ""
      · rw [hp, follow_of_idle idle_empty, List.filterMap_cons_none (by simp)]
      · simp only [List.filterMap_cons, Option.some.injEq, hp, if_false, List.map_cons,
          List.foldl_cons]

/-- A combination leads where its fragments lead one after another. -/
theorem follow_combine (fs : List (Option String)) :
    follow [] (some (combine fs)) = fs.foldl follow [] := by
  rw [← foldl_follow_given fs, ← follow_join]
  exact follow_normalize (some _)

theorem segments_combine (fs : List (Option String)) :
    segments (combine fs) = (fs.foldl follow []).reverse := by
  rw [← follow_combine, follow_nil, List.reverse_reverse]
  rfl

theorem normalize_combine (fs : List (Option String)) : normalize (combine fs) = combine fs :=
  normalize_normalize _

/-- A combination is known by where its fragments lead. -/
theorem combine_congr (h : fs.foldl follow [] = gs.foldl follow []) : combine fs = combine gs := by
  apply eq_of_segments (normalize_combine fs) (normalize_combine gs)
  rw [segments_combine, segments_combine, h]

/-- What comes after a combination goes on from where that one led. -/
theorem combine_append (fs gs : List (Option String)) :
    combine (some (combine fs) :: gs) = combine (fs ++ gs) := by
  apply combine_congr
  rw [List.foldl_cons, follow_combine, List.foldl_append]

theorem combine_insert_idle (hidle : Idle f) (fs gs : List (Option String)) :
    combine (fs ++ f :: gs) = combine (fs ++ gs) := by
  apply combine_congr
  rw [List.foldl_append, List.foldl_cons, follow_of_idle hidle, List.foldl_append]

/-- Fragments that go nowhere can be left out all at once. -/
theorem combine_filter_idle (fs : List (Option String)) :
    combine (fs.filter fun f => ¬ Idle f) = combine fs := by
  apply combine_congr
  generalize ([] : List String) = names
  induction fs generalizing names with
  | nil => rfl
  | cons f rest ih =>
    by_cases hidle : Idle f
    · rw [List.filter_cons_of_neg (by simpa using hidle), ih, List.foldl_cons,
        follow_of_idle hidle]
    · rw [List.filter_cons_of_pos (by simpa using hidle), List.foldl_cons, ih, List.foldl_cons]

theorem segments_combine_of_downward (hdown : ∀ g ∈ gs, Downward g) (f : Option String) :
    segments (combine (f :: gs)) =
      segments (orRoot f) ++ gs.flatMap fun g => segments (orRoot g) := by
  rw [segments_combine, List.foldl_cons, follow_nil, foldl_follow_of_downward hdown,
    List.reverse_append, List.reverse_reverse, List.reverse_reverse]

/-- Whatever goes down from a folder stays in it. -/
theorem combine_of_downward (hdown : ∀ g ∈ gs, Downward g) (f : Option String) :
    combine (f :: gs) = normalize (orRoot f) ∨ isUnder (combine (f :: gs)) (orRoot f) = true := by
  have hsegments := segments_combine_of_downward hdown f
  by_cases hrest : (gs.flatMap fun g => segments (orRoot g)) = []
  · left
    apply eq_of_segments (normalize_combine _) (normalize_normalize _)
    rw [hsegments, hrest, List.append_nil, segments_normalize]
  · right
    have hpos := List.length_pos_iff.mpr hrest
    rw [isUnder_iff, hsegments, List.length_append]
    exact ⟨by omega, List.prefix_append _ _⟩

theorem segments_eq_concat (hp : segments p ≠ []) :
    segments p = segments (folderOf p) ++ [name p] := by
  rw [segments_folderOf, name, List.getLastD_eq_getLast?, List.getLast?_eq_some_getLast hp,
    Option.getD_some, List.dropLast_append_getLast]

/-- A path is its last name in its folder; for the root there is neither. -/
theorem combine_parent_name (p : String) : combine [parent? p, some (name p)] = normalize p := by
  by_cases hp : segments p = []
  · have hparent : parent? p = none := by rw [parent?, hp]
    have hname : name p = root := by rw [name, hp]; rfl
    rw [hparent, hname, normalize, hp]
    decide
  · have hsegments := segments_eq_concat hp
    have hclean : Clean (name p) := clean_of_mem_segments (p := p) (by rw [hsegments]; simp)
    have hdown : ∀ g ∈ [some (name p)], Downward g := fun g hg => by
      rw [List.mem_singleton.mp hg, Downward]
      change ".." ∉ pieces (name p)
      rw [pieces_of_clean hclean, List.mem_singleton]
      exact hclean.2.2.2.symm
    apply eq_of_segments (normalize_combine _) (normalize_normalize p)
    rw [segments_combine_of_downward hdown, List.flatMap_singleton, segments_normalize, hsegments]
    exact congrArg (segments (folderOf p) ++ ·) (segments_of_clean hclean)

/-- Combining is an action of fragments on folders. To combine the combination of some
fragments with others is to combine them all, and fragments that are missing, empty or made of
separators and `.` alone may come and go anywhere. From a folder, fragments without a `..` lead
to its names followed by theirs, and so to the folder itself or to something under it. And a path
is the combination of its parent and its name. -/
theorem combine_acts (ps qs : List (Option String)) (f : Option String) :
    combine (some (combine ps) :: qs) = combine (ps ++ qs) ∧
    combine (ps.filter fun g => ¬ Idle g) = combine ps ∧
    (Idle f → combine (ps ++ f :: qs) = combine (ps ++ qs)) ∧
    ((∀ q ∈ qs, Downward q) →
      segments (combine (f :: qs)) =
        segments (orRoot f) ++ qs.flatMap (fun q => segments (orRoot q)) ∧
      (combine (f :: qs) = normalize (orRoot f) ∨
        isUnder (combine (f :: qs)) (orRoot f) = true)) ∧
    combine [parent? (orRoot f), some (name (orRoot f))] = normalize (orRoot f) :=
  ⟨combine_append ps qs, combine_filter_idle ps, fun hidle => combine_insert_idle hidle ps qs,
    fun hdown => ⟨segments_combine_of_downward hdown f, combine_of_downward hdown f⟩,
    combine_parent_name _⟩

/-- Fragments lead down from a folder that is itself reached by going up too far. -/
theorem combine_acts_fromAbove :
    Idle (some "/./") ∧ (∀ q ∈ [none, some "b/./c", some ".../"], Downward q) ∧
      combine ([some "a", some "../.."] ++ some "/./" :: [none, some "b/./c", some ".../"]) =
        combine ([some "a", some "../.."] ++ [none, some "b/./c", some ".../"]) ∧
      segments (combine [some "../a", none, some "b/./c", some ".../"]) =
        ["a", "b", "c", "..."] := by
  have hidle : Idle (some "/./") := by decide
  have hdown : ∀ q ∈ [none, some "b/./c", some ".../"], Downward q := by decide
  obtain ⟨-, -, hinsert, -, -⟩ :=
    combine_acts [some "a", some "../.."] [none, some "b/./c", some ".../"] (some "/./")
  obtain ⟨-, -, -, hunder, -⟩ :=
    combine_acts [] [none, some "b/./c", some ".../"] (some "../a")
  exact ⟨hidle, hdown, hinsert hidle, (hunder hdown).1.trans (by decide)⟩

/-- Fragments do not act on those after them: going up is lost when it is combined first. -/
example : combine [some "a", some (combine [some "..", some "b"])] = "a/b" ∧
    combine [some "a", some "..", some "b"] = "b" := by decide

end Depot.Path
