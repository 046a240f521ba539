/-!
Storage paths. A path is a sequence of names joined by `/`; the root is the
empty sequence and is written as the empty text. Reading a path drops empty
pieces and `.`, and `..` takes back the name before it, but never climbs above
the root. The normal form of a path is the join of its segments.
-/
namespace Depot.Path

def separator : Char := '/'

def root : String := ""

def pieces (p : String) : List String := (p.toList.splitOn separator).map String.ofList

/-- One piece applied to the names read so far, the latest name first. -/
def step (names : List String) (piece : String) : List String :=
  if piece = "" ∨ piece = "." then names
  else if piece = ".." then names.tail
  else piece :: names

def segments (p : String) : List String := ((pieces p).foldl step []).reverse

def join (names : List String) : String := (String.singleton separator).intercalate names

def normalize (p : String) : String := join (segments p)

def orRoot (p : Option String) : String := p.getD root

def combine (fragments : List (Option String)) : String :=
  normalize (join (fragments.filterMap fun f => if f = some "" then none else f))

def isRoot (p : String) : Bool := (segments p).isEmpty

def parent? (p : String) : Option String :=
  match segments p with
  | [] => none
  | names => some (join names.dropLast)

def name (p : String) : String := (segments p).getLastD root

def isUnder (p folder : String) : Bool :=
  (segments folder).length < (segments p).length && (segments folder).isPrefixOf (segments p)

def properAncestors (p : String) : List String :=
  let names := segments p
  (List.range (names.length - 1)).map fun i => join (names.take (i + 1))

/-- A name that stands in a normal form: not empty, without a separator, and
neither `.` nor `..`. -/
def Clean (n : String) : Prop := n ≠ "" ∧ separator ∉ n.toList ∧ n ≠ "." ∧ n ≠ ".."

instance (n : String) : Decidable (Clean n) := inferInstanceAs (Decidable (_ ∧ _))

theorem step_of_clean {n : String} (h : Clean n) (names : List String) :
    step names n = n :: names := by
  obtain ⟨nonempty, _, notDot, notDots⟩ := h
  simp [step, nonempty, notDot, notDots]

theorem clean_of_mem_step {piece : String} (free : separator ∉ piece.toList)
    {names : List String} (h : ∀ n ∈ names, Clean n) : ∀ n ∈ step names piece, Clean n := by
  unfold step
  split
  · exact h
  · rename_i kept
    split
    · exact fun n hn => h n (List.mem_of_mem_tail hn)
    · rename_i notDots
      intro n hn
      rcases List.mem_cons.mp hn with rfl | hn
      · exact ⟨fun e => kept (.inl e), free, fun e => kept (.inr e), notDots⟩
      · exact h n hn

private theorem not_mem_of_mem_splitOn {x : Char} {cs l : List Char} (h : l ∈ cs.splitOn x) :
    x ∉ l := by
  induction cs generalizing l with
  | nil => simp_all
  | cons c rest ih =>
    rw [List.splitOn_cons_eq_if_modifyHead] at h
    by_cases hc : c = x
    · rcases List.mem_cons.mp (by simpa [hc] using h) with rfl | h
      · simp
      · exact ih h
    · cases hs : rest.splitOn x with
      | nil => exact absurd hs (List.splitOn_ne_nil x rest)
      | cons first others =>
        simp only [beq_iff_eq, hc, if_false, hs, List.modifyHead_cons, List.mem_cons] at h
        rcases h with rfl | h
        · have := @ih first (by simp [hs])
          simp [this, Ne.symm hc]
        · exact ih (by simp [hs, h])

theorem separator_not_mem_of_mem_pieces {p piece : String} (h : piece ∈ pieces p) :
    separator ∉ piece.toList := by
  obtain ⟨cs, hcs, rfl⟩ := List.mem_map.mp h
  rw [String.toList_ofList]
  exact not_mem_of_mem_splitOn hcs

private theorem clean_of_mem_foldl (parts : List String)
    (free : ∀ piece ∈ parts, separator ∉ piece.toList) (names : List String)
    (h : ∀ n ∈ names, Clean n) : ∀ n ∈ parts.foldl step names, Clean n := by
  induction parts generalizing names with
  | nil => exact h
  | cons piece rest ih =>
    exact ih (fun q hq => free q (List.mem_cons_of_mem _ hq)) (step names piece)
      (clean_of_mem_step (free piece List.mem_cons_self) h)

theorem clean_of_mem_segments {p n : String} (h : n ∈ segments p) : Clean n :=
  clean_of_mem_foldl (pieces p) (fun _ => separator_not_mem_of_mem_pieces) [] (by simp) n
    (List.mem_reverse.mp h)

private theorem foldl_step_of_clean (parts : List String) (h : ∀ n ∈ parts, Clean n)
    (names : List String) : parts.foldl step names = parts.reverse ++ names := by
  induction parts generalizing names with
  | nil => rfl
  | cons n rest ih =>
    rw [List.foldl_cons, step_of_clean (h n List.mem_cons_self),
      ih (fun q hq => h q (List.mem_cons_of_mem _ hq))]
    simp

@[simp] theorem segments_root : segments root = [] := by
  simp [segments, pieces, root, step, List.splitOn]

theorem pieces_join {names : List String} (nonempty : names ≠ [])
    (h : ∀ n ∈ names, separator ∉ n.toList) : pieces (join names) = names := by
  have split : ([separator].intercalate (names.map String.toList)).splitOn separator =
      names.map String.toList :=
    List.splitOn_intercalate separator (by simpa using h) (by simpa using nonempty)
  simp only [pieces, join, String.toList_intercalate, String.toList_singleton, split,
    List.map_map]
  simp [Function.comp_def]

/-- Names that are clean are read back from their join. -/
theorem segments_join {names : List String} (h : ∀ n ∈ names, Clean n) :
    segments (join names) = names := by
  cases names with
  | nil => exact segments_root
  | cons n rest =>
    rw [segments, pieces_join (by simp) fun m hm => (h m hm).2.1, foldl_step_of_clean _ h]
    simp

@[simp] theorem segments_normalize (p : String) : segments (normalize p) = segments p :=
  segments_join fun _ => clean_of_mem_segments

@[simp] theorem normalize_normalize (p : String) : normalize (normalize p) = normalize p := by
  rw [normalize, segments_normalize, normalize]

end Depot.Path
