import Depot.Logging.Hierarchy
import Mathlib.Data.List.Find
import Mathlib.Data.List.Infix
import Mathlib.Data.List.Sublists

/-!
Loggers in the order of their names. Whatever loggers have been asked for, and in whatever order,
each one is below the nearest of those that are there and whose names are above its own. The names
that this is said of have no two dots side by side, for the search for names above leaves some of
those out, and do not begin with a part of the root's name.
-/
namespace Depot.Logging

variable {l : List Nat} {n c name : Name} {names before after : List Name}

/-! ### The names above a name -/

theorem cuts_dot (d : Nat) (further : List Nat) :
    cuts (dot :: d :: further) = (d :: further).reverse :: cuts further := by
  simp only [cuts, if_true]

theorem cuts_other {d : Nat} (hd : d ≠ dot) (rest : List Nat) : cuts (d :: rest) = cuts rest := by
  rw [cuts.eq_def]
  exact if_neg hd

/-- A name above is a first part that ends before a dot. -/
theorem mem_cuts (hn : n ∈ cuts l) :
    n ≠ [] ∧ ∃ rest, l = rest ++ dot :: n.reverse := by
  induction l using cuts.induct with
  | case1 => simp [cuts] at hn
  | case2 => simp [cuts] at hn
  | case3 d further ih =>
    rw [cuts_dot] at hn
    rcases List.mem_cons.mp hn with rfl | hn
    · exact ⟨by simp, [], by simp⟩
    · obtain ⟨hsome, rest, hrest⟩ := ih hn
      exact ⟨hsome, dot :: d :: rest, by rw [hrest]; rfl⟩
  | case4 d rest hd ih =>
    rw [cuts_other hd] at hn
    obtain ⟨hsome, init, hrest⟩ := ih hn
    exact ⟨hsome, d :: init, by rw [hrest]; rfl⟩

theorem pairwise_cuts (l : List Nat) : (cuts l).Pairwise fun n m => m.length < n.length := by
  induction l using cuts.induct with
  | case1 => simp [cuts]
  | case2 => simp [cuts]
  | case3 d further ih =>
    rw [cuts_dot]
    refine List.pairwise_cons.mpr ⟨fun m hm => ?_, ih⟩
    obtain ⟨-, rest, hrest⟩ := mem_cuts hm
    have hlength := congrArg List.length hrest
    simp only [List.length_append, List.length_cons, List.length_reverse] at hlength
    simp only [List.length_reverse, List.length_cons]
    omega
  | case4 d rest hd ih => rwa [cuts_other hd]

/-- Without dots side by side, the names above a name above come after it. -/
theorem cuts_append (hdots : ¬ [dot, dot] <:+: l) (hsplit : cuts l = before ++ n :: after) :
    after = cuts n.reverse := by
  induction l using cuts.induct generalizing before with
  | case1 => simp [cuts] at hsplit
  | case2 => simp [cuts] at hsplit
  | case3 d further ih =>
    have hd : d ≠ dot := by
      rintro rfl
      exact hdots ⟨[], further, rfl⟩
    rw [cuts_dot] at hsplit
    cases before with
    | nil =>
      obtain ⟨rfl, rfl⟩ := List.cons.inj hsplit
      rw [List.reverse_reverse, cuts_other hd]
    | cons first before =>
      refine ih (fun hsub => hdots (hsub.trans ?_)) (List.cons.inj hsplit).2
      exact ⟨[dot, d], [], by simp⟩
  | case4 d rest hd ih =>
    rw [cuts_other hd] at hsplit
    exact ih (fun hsub => hdots (hsub.trans ⟨[d], [], by simp⟩)) hsplit

def partsOfRoot : List Name := ["r", "ro", "roo"].map nameOf

/-- Names that say all about the loggers above them. -/
structure Plain (name : Name) : Prop where
  dots : ¬ [dot, dot] <:+: name
  start : ∀ n ∈ above name, n ∉ partsOfRoot

instance (name : Name) : Decidable (Plain name) :=
  decidable_of_iff (¬ [dot, dot] <:+: name ∧ ∀ n ∈ above name, n ∉ partsOfRoot)
    ⟨fun ⟨h, h'⟩ => ⟨h, h'⟩, fun ⟨h, h'⟩ => ⟨h, h'⟩⟩

theorem mem_above (hn : n ∈ above c) :
    n ≠ [] ∧ n <+: c ∧ n.length < c.length := by
  obtain ⟨hsome, rest, hrest⟩ := mem_cuts hn
  have hname : c = n ++ dot :: rest.reverse := by
    simpa using congrArg List.reverse hrest
  have hlength := congrArg List.length hname
  simp only [List.length_append, List.length_cons] at hlength
  exact ⟨hsome, ⟨_, hname.symm⟩, by omega⟩

theorem Plain.append (hplain : Plain c) (hsplit : above c = before ++ n :: after) :
    after = above n := by
  refine cuts_append (fun hsub => hplain.dots ?_) hsplit
  simpa using List.reverse_infix.mpr hsub

theorem Plain.of_mem (hplain : Plain c) (hn : n ∈ above c) : Plain n where
  dots hsub := hplain.dots (hsub.trans (mem_above hn).2.1.isInfix)
  start m hm := by
    obtain ⟨before, after, hsplit⟩ := List.append_of_mem hn
    refine hplain.start m ?_
    rw [hsplit, hplain.append hsplit]
    simp [hm]

/-- Only a part of the root's name begins it. -/
theorem part_of_root (hn : n <+: root) : isRoot n = true ∨ n ∈ partsOfRoot := by
  have hall : ∀ n ∈ root.inits, isRoot n = true ∨ n ∈ partsOfRoot := by decide
  exact hall n ((List.mem_inits _ _).mpr hn)

namespace Loggers

variable {m m' : Loggers} {given : Level} {parent : Option Name} {below : List Name}

theorem isLogger_iff :
    isLogger m n = true ↔ ∃ level parent, m.get? n = some (.logger level parent) := by
  unfold isLogger
  cases m.get? n with
  | none => simp
  | some seat => cases seat <;> simp

theorem isLogger_of_get? (h : m.get? n = some (.logger given parent)) : isLogger m n = true :=
  isLogger_iff.mpr ⟨given, parent, h⟩

theorem isLogger_insert_awaited (hn : isLogger m n = false) (below : List Name) (c : Name) :
    isLogger (m.insert n (.awaited below)) c = isLogger m c := by
  unfold isLogger at hn ⊢
  rw [OrderedMap.get?_insert]
  by_cases hc : c = n
  · rw [if_pos hc, hc, hn]
  · rw [if_neg hc]

theorem waiting_insert_awaited (below : List Name) (c : Name) :
    waiting (m.insert n (.awaited below)) c = if c = n then below else waiting m c := by
  unfold waiting
  rw [OrderedMap.get?_insert]
  by_cases hc : c = n
  · rw [if_pos hc, if_pos hc]
  · rw [if_neg hc, if_neg hc]

theorem waiting_of_logger (h : isLogger m n = true) : waiting m n = [] := by
  obtain ⟨level, parent, hn⟩ := isLogger_iff.mp h
  rw [waiting, hn]

/-! ### A new logger -/

structure Sought (m : Loggers) (child : Name) (names : List Name)
    (found : Option Name × Loggers) : Prop where
  nearest : found.1 = names.find? (isLogger m)
  same : ∀ n, isLogger found.2 n = isLogger m n
  kept : ∀ n, isLogger m n = true → found.2.get? n = m.get? n
  old : ∀ n, ∀ c ∈ waiting found.2 n, c ∈ waiting m n ∨ (c = child ∧ n ∈ names)
  stays : ∀ n, ∀ c ∈ waiting m n, c ∈ waiting found.2 n
  noted : ∀ before n after, names = before ++ n :: after → (∀ q ∈ before, isLogger m q = false) →
    isLogger m n = false → child ∈ waiting found.2 n

/-- The search ends at the first logger. -/
theorem sought_here (child : Name) {name : Name} (rest : List Name)
    (hlogger : isLogger m name = true) : Sought m child (name :: rest) (some name, m) where
  nearest := by simp [hlogger]
  same _ := rfl
  kept _ _ := rfl
  old _ _ hc := .inl hc
  stays _ _ hc := hc
  noted before n after hsplit hbefore hn := by
    cases before with
    | nil =>
      obtain ⟨rfl, -⟩ := List.cons.inj hsplit
      simp [hlogger] at hn
    | cons first before =>
      obtain ⟨rfl, -⟩ := List.cons.inj hsplit
      simp [hlogger] at hbefore

/-- It passes a name without one, where it leaves a note. -/
theorem Sought.pass {child name : Name} {rest : List Name} {found : Option Name × Loggers}
    (hnone : isLogger m name = false)
    (h : Sought (m.insert name (.awaited (waiting m name ++ [child]))) child rest found) :
    Sought m child (name :: rest) found := by
  have hsame := isLogger_insert_awaited hnone (waiting m name ++ [child])
  have hwait := waiting_insert_awaited (m := m) (n := name) (waiting m name ++ [child])
  refine ⟨?_, fun n => (h.same n).trans (hsame n), fun n hn => ?_, fun n c hc => ?_,
    fun n c hc => h.stays n c ?_, fun before n after hsplit hbefore hn => ?_⟩
  · rw [h.nearest, List.find?_cons, hnone, funext hsame]
  · have hne : n ≠ name := by
      rintro rfl
      simp [hnone] at hn
    rw [h.kept n ((hsame n).trans hn), OrderedMap.get?_insert, if_neg hne]
  · rcases h.old n c hc with hc | ⟨rfl, hn⟩
    · rw [hwait] at hc
      split at hc
      · next heq =>
        rcases List.mem_append.mp hc with hc | hc
        · exact .inl (heq ▸ hc)
        · exact .inr ⟨List.mem_singleton.mp hc, by simp [heq]⟩
      · exact .inl hc
    · exact .inr ⟨rfl, List.mem_cons_of_mem _ hn⟩
  · rw [hwait]
    split
    · next heq => exact List.mem_append_left _ (heq ▸ hc)
    · exact hc
  · cases before with
    | nil =>
      obtain ⟨rfl, -⟩ := List.cons.inj hsplit
      exact h.stays _ _ (by rw [hwait, if_pos rfl]; simp)
    | cons first before =>
      refine h.noted before n after (List.cons.inj hsplit).2 (fun q hq => ?_)
        ((hsame n).trans hn)
      exact (hsame q).trans (hbefore q (List.mem_cons_of_mem _ hq))

theorem sought_seek (child : Name) (names : List Name) (m : Loggers) :
    Sought m child names (seek child names m) := by
  induction names generalizing m with
  | nil =>
    exact ⟨rfl, fun _ => rfl, fun _ _ => rfl, fun _ _ hc => .inl hc, fun _ _ hc => hc, by simp⟩
  | cons name rest ih =>
    rw [seek.eq_def]
    dsimp only
    split
    · next hlogger => exact sought_here child rest hlogger
    · next hnone => exact (ih _).pass ((Bool.not_eq_true _).mp hnone)

theorem adopt_logger (h : m.get? c = some (.logger given parent)) (name : Name) :
    adopt name m c =
      if name <+: parent.getD root then m
      else m.insert c (.logger given (some name)) := by
  rw [adopt, h]
  simp only [List.isPrefixOf_iff_prefix]

theorem adopt_other (h : isLogger m c = false) (name : Name) : adopt name m c = m := by
  unfold isLogger at h
  unfold adopt
  cases hc : m.get? c with
  | none => rfl
  | some seat =>
    cases seat with
    | awaited below => rfl
    | logger level parent => simp [hc] at h

theorem get?_adopt_other (h : isLogger m n = false) (name c : Name) :
    (adopt name m c).get? n = m.get? n := by
  by_cases hc : isLogger m c = true
  · obtain ⟨level, parent, hseat⟩ := isLogger_iff.mp hc
    have hne : n ≠ c := by
      rintro rfl
      simp [hc] at h
    rw [adopt_logger hseat]
    split
    · rfl
    · rw [OrderedMap.get?_insert, if_neg hne]
  · rw [adopt_other ((Bool.not_eq_true _).mp hc)]

theorem isLogger_adopt (m : Loggers) (name c n : Name) :
    isLogger (adopt name m c) n = isLogger m n := by
  by_cases hc : isLogger m c = true
  · obtain ⟨level, parent, hseat⟩ := isLogger_iff.mp hc
    rw [adopt_logger hseat]
    split
    · rfl
    · by_cases hn : n = c
      · rw [hn, hc]
        exact isLogger_of_get? (by rw [OrderedMap.get?_insert, if_pos rfl])
      · rw [isLogger, isLogger, OrderedMap.get?_insert, if_neg hn]
  · rw [adopt_other ((Bool.not_eq_true _).mp hc)]

def newParent (name : Name) (below : List Name) (child : Name) (parent : Option Name) :
    Option Name :=
  if child ∈ below ∧ ¬ name <+: parent.getD root then some name else parent

theorem get?_foldl_adopt (below : List Name) (h : m.get? n = some (.logger given parent)) :
    (below.foldl (adopt name) m).get? n = some (.logger given (newParent name below n parent)) := by
  induction below generalizing m parent with
  | nil => simpa [newParent] using h
  | cons c rest ih =>
    rw [List.foldl_cons]
    by_cases hc : n = c
    · subst hc
      rw [adopt_logger h]
      split
      · next hsub =>
        rw [ih h]
        simp [newParent, hsub]
      · next hsub =>
        have hnew : (m.insert n (.logger given (some name))).get? n =
            some (.logger given (some name)) := by
          rw [OrderedMap.get?_insert, if_pos rfl]
        rw [ih hnew]
        simp [newParent, hsub]
    · have hkept : (adopt name m c).get? n = some (.logger given parent) := by
        by_cases hlogger : isLogger m c = true
        · obtain ⟨level', parent', hseat⟩ := isLogger_iff.mp hlogger
          rw [adopt_logger hseat]
          split
          · exact h
          · rw [OrderedMap.get?_insert, if_neg hc, h]
        · rw [adopt_other ((Bool.not_eq_true _).mp hlogger), h]
      rw [ih hkept]
      simp [newParent, hc]

theorem isLogger_foldl_adopt (below : List Name) (m : Loggers) (name n : Name) :
    isLogger (below.foldl (adopt name) m) n = isLogger m n := by
  induction below generalizing m with
  | nil => rfl
  | cons c rest ih => rw [List.foldl_cons, ih, isLogger_adopt]

theorem get?_foldl_adopt_other (below : List Name) (h : isLogger m n = false) (name : Name) :
    (below.foldl (adopt name) m).get? n = m.get? n := by
  induction below generalizing m with
  | nil => rfl
  | cons c rest ih =>
    rw [List.foldl_cons, ih ((isLogger_adopt m name c n).trans h), get?_adopt_other h]

/-- The new logger with those that waited for it below, before its own parent is looked for. -/
def adopting (m : Loggers) (name : Name) : Loggers :=
  (waiting m name).foldl (adopt name) (m.insert name (.logger 0 none))

theorem isLogger_insert_logger (m : Loggers) (name n : Name) :
    isLogger (m.insert name (.logger 0 none)) n = true ↔ n = name ∨ isLogger m n = true := by
  rw [isLogger, OrderedMap.get?_insert]
  by_cases hn : n = name
  · simp [hn]
  · rw [if_neg hn, or_iff_right hn]
    rfl

theorem isLogger_adopting :
    isLogger (adopting m name) n = true ↔ n = name ∨ isLogger m n = true := by
  rw [adopting, isLogger_foldl_adopt, isLogger_insert_logger]

theorem waiting_adopting (hn : n ≠ name) : waiting (adopting m name) n = waiting m n := by
  by_cases hold : isLogger m n = true
  · rw [waiting_of_logger hold, waiting_of_logger (isLogger_adopting.mpr (.inr hold))]
  · have hnot : isLogger (m.insert name (.logger 0 none)) n = false := by
      rw [← Bool.not_eq_true, isLogger_insert_logger]
      simp [hn, hold]
    rw [waiting, waiting, adopting, get?_foldl_adopt_other _ hnot, OrderedMap.get?_insert,
      if_neg hn]

theorem get?_adopting (hn : n ≠ name) (h : m.get? n = some (.logger given parent)) :
    (adopting m name).get? n =
      some (.logger given (newParent name (waiting m name) n parent)) :=
  get?_foldl_adopt (waiting m name) (by rw [OrderedMap.get?_insert, if_neg hn, h])

theorem not_mem_above (name : Name) : name ∉ above name := fun hmem =>
  absurd (mem_above hmem).2.2 (Nat.lt_irrefl _)

theorem isLogger_adopting_above (hn : n ∈ above name) :
    isLogger (adopting m name) n = isLogger m n := by
  have hne : n ≠ name := fun heq => not_mem_above name (heq ▸ hn)
  rw [Bool.eq_iff_iff, isLogger_adopting, or_iff_right hne]

structure Made (m : Loggers) (name : Name) (m' : Loggers) : Prop where
  logger_iff : ∀ n, isLogger m' n = true ↔ n = name ∨ isLogger m n = true
  new : m'.get? name = some (.logger 0 ((above name).find? (isLogger m)))
  kept : ∀ n level parent, m.get? n = some (.logger level parent) →
    m'.get? n = some (.logger level (newParent name (waiting m name) n parent))
  old : ∀ n, ∀ c ∈ waiting m' n, c ∈ waiting m n ∨ (c = name ∧ n ∈ above name)
  stays : ∀ n, n ≠ name → ∀ c ∈ waiting m n, c ∈ waiting m' n
  noted : ∀ before n after, above name = before ++ n :: after →
    (∀ q ∈ before, isLogger m q = false) → isLogger m n = false → name ∈ waiting m' n

theorem Sought.made {found : Option Name × Loggers}
    (h : Sought (adopting m name) name (above name) found) (hnew : isLogger m name = false) :
    Made m name (found.2.insert name (.logger 0 found.1)) := by
  generalize hmake : found.2.insert name (.logger 0 found.1) = m'
  have hget : ∀ n, n ≠ name → m'.get? n = found.2.get? n := fun n hn => by
    rw [← hmake, OrderedMap.get?_insert, if_neg hn]
  have hself : m'.get? name = some (.logger 0 found.1) := by
    rw [← hmake, OrderedMap.get?_insert, if_pos rfl]
  have hwaiting : ∀ n, n ≠ name → waiting m' n = waiting found.2 n := fun n hn => by
    rw [waiting, waiting, hget n hn]
  refine ⟨fun n => ?_, ?_, fun n level parent hn => ?_, fun n c hc => ?_, fun n hn c hc => ?_,
    fun before n after hsplit hbefore hn => ?_⟩
  · by_cases hn : n = name
    · simp [hn, isLogger_of_get? hself]
    · rw [isLogger, hget n hn, ← isLogger, h.same, isLogger_adopting]
  · rw [hself, h.nearest, List.find?_congr fun n hn => isLogger_adopting_above hn]
  · have hold := isLogger_of_get? hn
    have hne : n ≠ name := by
      rintro rfl
      simp [hnew] at hold
    rw [hget n hne, h.kept n (isLogger_adopting.mpr (.inr hold)), get?_adopting hne hn]
  · by_cases hn : n = name
    · rw [hn, waiting_of_logger (isLogger_of_get? hself)] at hc
      simp at hc
    · rw [hwaiting n hn] at hc
      exact (h.old n c hc).imp_left fun hc => waiting_adopting hn ▸ hc
  · rw [hwaiting n hn]
    exact h.stays n c ((waiting_adopting hn).symm ▸ hc)
  · have hmem : ∀ q, q = n ∨ q ∈ before → q ∈ above name := fun q hq => by
      rw [hsplit]
      rcases hq with rfl | hq
      · simp
      · exact List.mem_append_left _ hq
    have hn' := hmem n (.inl rfl)
    rw [hwaiting n fun heq => not_mem_above name (heq ▸ hn')]
    refine h.noted before n after hsplit (fun q hq => ?_) ?_
    · rw [isLogger_adopting_above (hmem q (.inr hq)), hbefore q hq]
    · rw [isLogger_adopting_above hn', hn]

theorem made_make (hnew : isLogger m name = false) : Made m name (make m name) :=
  (sought_seek name (above name) (adopting m name)).made hnew

/-! ### Loggers that are linked -/

/-- Each logger is below the nearest one above it, and the names before that one know of it. -/
structure Linked (m : Loggers) : Prop where
  ordinary : ∀ n, isLogger m n = true → isRoot n = false
  waits : ∀ n, ∀ c ∈ waiting m n, isLogger m c = true ∧ n ∈ above c
  noted : ∀ c, isLogger m c = true → ∀ before n after, above c = before ++ n :: after →
    (∀ q ∈ before, isLogger m q = false) → isLogger m n = false → c ∈ waiting m n
  nearest : ∀ c level parent, Plain c → m.get? c = some (.logger level parent) →
    parent = (above c).find? (isLogger m)

theorem linked_empty : Linked .empty where
  ordinary n hn := by simp [isLogger] at hn
  waits n c hc := by simp [waiting] at hc
  noted c hc := by simp [isLogger] at hc
  nearest c level parent _ hc := by simp at hc

theorem pairwise_above (c : Name) : (above c).Pairwise fun n q => q.length < n.length :=
  pairwise_cuts c.reverse

/-- Of two names above one the longer begins with the shorter. -/
theorem prefix_iff_of_above (hsplit : above c = before ++ n :: after) :
    (∀ q ∈ before, n <+: q) ∧ ∀ q ∈ after, ¬ n <+: q := by
  have hpairwise := pairwise_above c
  have hmem : ∀ q, q = n ∨ q ∈ before ∨ q ∈ after → q <+: c := fun q hq => by
    refine (mem_above ?_).2.1
    rw [hsplit]
    rcases hq with rfl | hq | hq <;> simp [*]
  rw [hsplit, List.pairwise_append, List.pairwise_cons] at hpairwise
  obtain ⟨-, ⟨hafter, -⟩, hbefore⟩ := hpairwise
  refine ⟨fun q hq => ?_, fun q hq hsub => ?_⟩
  · refine List.prefix_of_prefix_length_le (hmem n (.inl rfl)) (hmem q (.inr (.inl hq))) ?_
    exact Nat.le_of_lt (hbefore q hq n (by simp))
  · exact absurd (hafter q hq) (Nat.not_lt.mpr hsub.length_le)

/-- Each name above a logger is met once. -/
theorem not_mem_of_above (hsplit : above c = before ++ name :: after) : name ∉ before := by
  have hsorted := pairwise_above c
  rw [hsplit, List.pairwise_append] at hsorted
  exact fun hname => Nat.lt_irrefl _ (hsorted.2.2 name hname name (by simp))

/-- A search among other names passes over the new one. -/
theorem find?_or_isLogger {ns : List Name} (hother : name ∉ ns) :
    (ns.find? fun n => n = name || isLogger m n) = ns.find? (isLogger m) :=
  List.find?_congr fun n hn => by
    have hne : n ≠ name := fun heq => hother (heq ▸ hn)
    simp [hne]

/-- A new logger is put above just those that it is now the nearest for. -/
theorem Linked.newParent_eq (h : Linked m) (hnew : isLogger m name = false)
    (hordinary : isRoot name = false) (hplain : Plain c)
    (hc : m.get? c = some (.logger given parent)) :
    newParent name (waiting m name) c parent =
      (above c).find? fun n => n = name || isLogger m n := by
  have hparent := h.nearest c given parent hplain hc
  by_cases hmem : name ∈ above c
  case neg =>
    have hfree : c ∉ waiting m name := fun hwait => hmem (h.waits name c hwait).2
    rw [newParent, if_neg fun hboth => hfree hboth.1, hparent, find?_or_isLogger hmem]
  obtain ⟨before, after, hsplit⟩ := List.append_of_mem hmem
  obtain ⟨hbefore, hafter⟩ := prefix_iff_of_above hsplit
  rw [hsplit, List.find?_append] at hparent ⊢
  rw [find?_or_isLogger (not_mem_of_above hsplit), List.find?_cons_of_pos (by simp)]
  cases hfound : before.find? (isLogger m) with
  | some q =>
    rw [hfound] at hparent
    have hsub := hbefore q (List.mem_of_find?_eq_some hfound)
    rw [hparent]
    simp [newParent, hsub]
  | none =>
    rw [hfound, List.find?_cons_of_neg (by simp [hnew]), Option.none_or] at hparent
    rw [List.find?_eq_none] at hfound
    have hwait : c ∈ waiting m name :=
      h.noted c (isLogger_of_get? hc) before name after hsplit
        (fun q hq => (Bool.not_eq_true _).mp (hfound q hq)) hnew
    have hfar : ¬ name <+: parent.getD root := by
      cases hnear : parent with
      | some q => exact hafter q (List.mem_of_find?_eq_some (hparent.symm.trans hnear))
      | none =>
        intro hsub
        rcases part_of_root hsub with hroot | hpart
        · simp [hordinary] at hroot
        · exact hplain.start name hmem hpart
    rw [newParent, if_pos ⟨hwait, hfar⟩]
    rfl

theorem linked_make (h : Linked m) (hnew : isLogger m name = false)
    (hordinary : isRoot name = false) : Linked (make m name) := by
  have hmade := made_make hnew
  have hquiet : ∀ n, isLogger (make m name) n = false → n ≠ name ∧ isLogger m n = false := by
    intro n hn
    rw [← Bool.not_eq_true, hmade.logger_iff, not_or, Bool.not_eq_true] at hn
    exact hn
  have hlogger : isLogger (make m name) = fun n => n = name || isLogger m n := by
    funext n
    rw [Bool.eq_iff_iff, hmade.logger_iff]
    simp
  refine ⟨fun n hn => ?_, fun n c hc => ?_, fun c hc before n after hsplit hbefore hn => ?_,
    fun c level parent hplain hc => ?_⟩
  · rcases (hmade.logger_iff n).mp hn with rfl | hn
    · exact hordinary
    · exact h.ordinary n hn
  · rcases hmade.old n c hc with hc | ⟨rfl, hn⟩
    · obtain ⟨hlogger, hn⟩ := h.waits n c hc
      exact ⟨(hmade.logger_iff c).mpr (.inr hlogger), hn⟩
    · exact ⟨(hmade.logger_iff c).mpr (.inl rfl), hn⟩
  · obtain ⟨hne, hquiet'⟩ := hquiet n hn
    have hbefore' := fun q hq => (hquiet q (hbefore q hq)).2
    rcases (hmade.logger_iff c).mp hc with rfl | hold
    · exact hmade.noted before n after hsplit hbefore' hquiet'
    · exact hmade.stays n hne c (h.noted c hold before n after hsplit hbefore' hquiet')
  · rw [hlogger]
    by_cases heq : c = name
    · subst heq
      have hseat := hmade.new
      rw [hc] at hseat
      have hsame : ∀ n ∈ above c, (n = c || isLogger m n) = isLogger m n := fun n hn => by
        have hne : n ≠ c := fun heq => not_mem_above c (heq ▸ hn)
        simp [hne]
      rw [List.find?_congr hsame]
      exact (Seat.logger.inj (Option.some.inj hseat)).2
    · have hold : isLogger m c = true :=
        ((hmade.logger_iff c).mp (isLogger_of_get? hc)).resolve_left heq
      obtain ⟨level', parent', hseat⟩ := isLogger_iff.mp hold
      rw [← h.newParent_eq hnew hordinary hplain hseat]
      have hkept := hmade.kept c level' parent' hseat
      rw [hc] at hkept
      exact (Seat.logger.inj (Option.some.inj hkept)).2

theorem linked_ask (h : Linked m) (hordinary : isRoot name = false) : Linked (m.ask name) := by
  unfold ask
  split
  · exact h
  · next hnew => exact linked_make h ((Bool.not_eq_true _).mp hnew) hordinary

theorem isLogger_ask (m : Loggers) (name n : Name) :
    isLogger (m.ask name) n = true ↔ n = name ∨ isLogger m n = true := by
  unfold ask
  split
  · next hold => exact ⟨.inr, fun hn => hn.elim (fun heq => heq ▸ hold) id⟩
  · next hnew => exact (made_make ((Bool.not_eq_true _).mp hnew)).logger_iff n

theorem level_eq_zero (h : isLogger m n = false) : level m n = 0 := by
  unfold isLogger at h
  unfold Loggers.level
  cases hn : m.get? n with
  | none => rfl
  | some seat =>
    cases seat with
    | awaited below => rfl
    | logger level parent => simp [hn] at h

/-- A logger that is asked for gets no level by this. -/
theorem level_ask (m : Loggers) (name n : Name) : level (m.ask name) n = level m n := by
  unfold ask
  split
  · rfl
  next hnew =>
  have hmade := made_make ((Bool.not_eq_true _).mp hnew)
  by_cases hn : n = name
  · rw [hn, level_eq_zero ((Bool.not_eq_true _).mp hnew), level, hmade.new]
  · by_cases hold : isLogger m n = true
    · obtain ⟨level, parent, hseat⟩ := isLogger_iff.mp hold
      rw [Loggers.level, Loggers.level, hmade.kept n level parent hseat, hseat]
    · have hnone : isLogger (make m name) n = false := by
        rw [← Bool.not_eq_true, hmade.logger_iff]
        simp [hn, hold]
      rw [level_eq_zero hnone, level_eq_zero ((Bool.not_eq_true _).mp hold)]

theorem isLogger_setLevel (m : Loggers) (name n : Name) (level : Level) :
    isLogger (m.setLevel name level) n = isLogger m n := by
  unfold setLevel
  split
  · next old parent hseat =>
    by_cases hn : n = name
    · rw [hn, isLogger_of_get? hseat]
      exact isLogger_of_get? (by rw [OrderedMap.get?_insert, if_pos rfl])
    · rw [isLogger, isLogger, OrderedMap.get?_insert, if_neg hn]
  · rfl

theorem waiting_setLevel (m : Loggers) (name n : Name) (level : Level) :
    waiting (m.setLevel name level) n = waiting m n := by
  unfold setLevel
  split
  · next old parent hseat =>
    by_cases hn : n = name
    · rw [hn, waiting_of_logger (isLogger_of_get? hseat)]
      exact waiting_of_logger (isLogger_of_get? (by rw [OrderedMap.get?_insert, if_pos rfl]))
    · rw [waiting, waiting, OrderedMap.get?_insert, if_neg hn]
  · rfl

theorem parent_setLevel {level : Level}
    (h : (m.setLevel name level).get? n = some (.logger given parent)) :
    ∃ old, m.get? n = some (.logger old parent) := by
  unfold setLevel at h
  split at h
  · next old parent' hseat =>
    rw [OrderedMap.get?_insert] at h
    split at h
    · next hn => exact ⟨old, hn ▸ (Seat.logger.inj (Option.some.inj h)).2 ▸ hseat⟩
    · exact ⟨given, h⟩
  · exact ⟨given, h⟩

/-- Levels have nothing to do with who is below whom. -/
theorem linked_setLevel (h : Linked m) (name : Name) (level : Level) :
    Linked (m.setLevel name level) := by
  have hlogger : isLogger (m.setLevel name level) = isLogger m :=
    funext fun n => isLogger_setLevel m name n level
  have hwaiting : waiting (m.setLevel name level) = waiting m :=
    funext fun n => waiting_setLevel m name n level
  refine ⟨?_, ?_, ?_, fun c given parent hplain hc => ?_⟩
  · exact hlogger ▸ h.ordinary
  · exact hlogger ▸ hwaiting ▸ h.waits
  · exact hlogger ▸ hwaiting ▸ h.noted
  · obtain ⟨old, hold⟩ := parent_setLevel hc
    exact hlogger ▸ h.nearest c old parent hplain hold

theorem level_setLevel (h : isLogger m name = true) (n : Name) (level : Level) :
    Loggers.level (m.setLevel name level) n = if n = name then level else Loggers.level m n := by
  obtain ⟨old, parent, hseat⟩ := isLogger_iff.mp h
  unfold setLevel
  simp only [hseat]
  unfold Loggers.level
  rw [OrderedMap.get?_insert]
  by_cases hn : n = name
  · rw [if_pos hn, if_pos hn]
  · rw [if_neg hn, if_neg hn]

/-- The loggers above one are those whose names are above its own. -/
theorem Linked.lineage_eq (h : Linked m) (hplain : Plain c) (hc : isLogger m c = true) :
    lineage m c = c :: (above c).filter (isLogger m) := by
  suffices hgo : ∀ k c, c.length ≤ k → Plain c → isLogger m c = true →
      lineage.go m k c = c :: (above c).filter (isLogger m) from hgo _ c (Nat.le_refl _) hplain hc
  intro k
  induction k with
  | zero =>
    intro c hlength _ hc
    have hnone : c = [] := List.length_eq_zero_iff.mp (Nat.le_zero.mp hlength)
    have hordinary := h.ordinary c hc
    rw [hnone] at hordinary
    simp [isRoot] at hordinary
  | succ k ih =>
    intro c hlength hplain hc
    obtain ⟨level, parent, hseat⟩ := isLogger_iff.mp hc
    have hnear := (h.nearest c level parent hplain hseat).symm
    rw [lineage.go, hseat]
    cases parent with
    | none =>
      have hnone : (above c).filter (isLogger m) = [] :=
        List.filter_eq_nil_iff.mpr (List.find?_eq_none.mp hnear)
      rw [hnone]
    | some q =>
      obtain ⟨hq, before, after, hsplit, hbefore⟩ := List.find?_eq_some_iff_append.mp hnear
      have hmem : q ∈ above c := by simp [hsplit]
      have hbelow : q.length ≤ k := by
        have hshorter := (mem_above hmem).2.2
        omega
      have hnone : before.filter (isLogger m) = [] :=
        List.filter_eq_nil_iff.mpr fun n hn => by simpa using hbefore n hn
      rw [hsplit, List.filter_append, hnone, List.nil_append, List.filter_cons_of_pos hq]
      dsimp only
      rw [ih q hbelow (hplain.of_mem hmem) hq, hplain.append hsplit]

end Loggers

end Depot.Logging
