import Depot.Proofs.Listing.Ledger
import Mathlib.Algebra.Order.BigOperators.Group.List
import Mathlib.Algebra.Order.Group.Nat
import Mathlib.Data.Nat.Init
import Mathlib.Tactic.Push

/-!
The visits of a listing as a tree. The first visit is its root, and every other one
was found by the visit above it, in a folder that lies deeper. A visit that gathers
counts those of its own that have not reported; when the first visit is over, all
are, and as long as it is not, some visit can go on without the ones below it.
-/
namespace Depot.Listing.Timeline

/-- What a visit is to those above and below it. -/
inductive Phase
  | absent
  | early
  | gathering (unreported : Nat)
  | gathered
  | ended (reported : Bool)
  deriving DecidableEq

def Role.phase : Role → Phase
  | .absent => .absent
  | .gathering n => .gathering n
  | .gathered | .closing => .gathered
  | .ended reported => .ended reported
  | _ => .early

abbrev Link := String × Option String

def Link.weight (phase : String → Phase) (a : String) (l : Link) : Nat :=
  if l.2 = some a ∧ phase l.1 ≠ .ended true then 1 else 0

def pending (phase : String → Phase) (a : String) (links : List Link) : Nat :=
  (links.map (Link.weight phase a)).sum

structure Family (start : String) (phase : String → Phase) (links : List Link) : Prop where
  first : ∃ rest, links = (start, none) :: rest ∧ ∀ l ∈ rest, l.2 ≠ none
  unique : (links.map Prod.fst).Nodup
  known : ∀ f, phase f = .absent ↔ f ∉ links.map Prod.fst
  below : ∀ f a, (f, some a) ∈ links → Path.isUnder f a = true
  parent : ∀ f a, (f, some a) ∈ links → (∃ n, phase a = .gathering n) ∨
    ((phase a = .gathered ∨ ∃ reported, phase a = .ended reported) ∧ phase f = .ended true)
  count : ∀ a n, phase a = .gathering n → 0 < n ∧ pending phase a links = n
  top : phase start ≠ .ended false

variable {start f a : String} {phase : String → Phase} {links : List Link}

theorem pending_eq_zero_iff :
    pending phase a links = 0 ↔ ∀ g, (g, some a) ∈ links → phase g = .ended true := by
  rw [pending, List.sum_eq_zero_iff_forall_eq_nat]
  constructor
  · intro hzero g hg
    have hweight := hzero _ (List.mem_map_of_mem hg)
    simpa [Link.weight] using hweight
  · intro hover n hn
    obtain ⟨⟨g, b⟩, hg, rfl⟩ := List.mem_map.mp hn
    by_cases hb : b = some a
    · subst hb
      simp [Link.weight, hover g hg]
    · simp [Link.weight, hb]

/-- A change at one visit that counts for the one above as it did. -/
theorem pending_congr {phase' : String → Phase}
    (h : ∀ l ∈ links, l.2 = some a → (phase' l.1 = .ended true ↔ phase l.1 = .ended true)) :
    pending phase' a links = pending phase a links := by
  unfold pending
  apply congrArg List.sum
  apply List.map_congr_left
  intro l hl
  by_cases hb : l.2 = some a
  · simp [Link.weight, hb, h l hl hb]
  · simp [Link.weight, hb]

theorem pending_append {more : List Link} :
    pending phase a (links ++ more) = pending phase a links + pending phase a more := by
  rw [pending, List.map_append, List.sum_append]
  rfl

/-- New visits all count for the one that found them. -/
theorem pending_found {found : List String} (hopen : ∀ g ∈ found, phase g ≠ .ended true) :
    pending phase a (found.map fun g => (g, some f)) = if a = f then found.length else 0 := by
  unfold pending
  rw [List.map_map]
  split
  · next ha =>
    have hones : found.map (Link.weight phase a ∘ fun g => (g, some f)) =
        List.replicate found.length 1 := by
      rw [List.eq_replicate_iff]
      refine ⟨by simp, fun n hn => ?_⟩
      obtain ⟨g, hg, rfl⟩ := List.mem_map.mp hn
      simp [Link.weight, ha, hopen g hg]
    rw [hones]
    simp
  · next ha =>
    rw [List.sum_eq_zero_iff_forall_eq_nat]
    intro n hn
    obtain ⟨g, -, rfl⟩ := List.mem_map.mp hn
    simp [Link.weight, Ne.symm ha]

/-- A visit that reports counts no longer. -/
theorem pending_report (hunique : (links.map Prod.fst).Nodup) (hf : (f, some a) ∈ links)
    (hphase : phase f ≠ .ended true) :
    pending (Function.update phase f (.ended true)) a links + 1 = pending phase a links := by
  have hswap := sum_map_swap hunique hf
    (u := Link.weight (Function.update phase f (.ended true)) a) (w := Link.weight phase a) (by
      intro l _ hl
      simp [Link.weight, show l.1 ≠ f from hl])
  simp only [Link.weight, Function.update_self] at hswap
  simp only [pending]
  simp [hphase] at hswap
  omega

theorem length_lt_of_isUnder {p q : String} (h : Path.isUnder p q = true) :
    (Path.segments q).length < (Path.segments p).length := by
  simp only [Path.isUnder, Bool.and_eq_true, decide_eq_true_eq] at h
  exact h.1

namespace Family

theorem single : Family start (fun f => if f = start then .early else .absent) [(start, none)] where
  first := ⟨[], rfl, by simp⟩
  unique := by simp
  known f := by
    by_cases hf : f = start
    · simp [hf]
    · simp [hf]
  below f a h := by simp at h
  parent f a h := by simp at h
  count a n h := by
    by_cases ha : a = start
    · simp [ha] at h
    · simp [ha] at h
  top := by simp

theorem start_mem (h : Family start phase links) : (start, none) ∈ links := by
  obtain ⟨rest, rfl, -⟩ := h.first
  exact List.mem_cons_self

theorem eq_start (h : Family start phase links) (hf : (f, none) ∈ links) : f = start := by
  obtain ⟨rest, rfl, hrest⟩ := h.first
  rcases List.mem_cons.mp hf with heq | hmem
  · exact congrArg Prod.fst heq
  · exact absurd rfl (hrest _ hmem)

theorem above_unique (h : Family start phase links) {b c : Option String} (hb : (f, b) ∈ links)
    (hc : (f, c) ∈ links) : b = c := by
  have heq := List.inj_on_of_nodup_map h.unique hb hc rfl
  exact congrArg Prod.snd heq

theorem ne_start (h : Family start phase links) (hf : (f, some a) ∈ links) : f ≠ start := by
  rintro rfl
  have hsame := h.above_unique hf h.start_mem
  simp at hsame

theorem mem_above (h : Family start phase links) (hf : (f, some a) ∈ links) :
    a ∈ links.map Prod.fst := by
  by_contra hnot
  have habsent := (h.known a).mpr hnot
  rcases h.parent f a hf with ⟨n, hn⟩ | ⟨hg | ⟨b, hb⟩, -⟩
  · simp [habsent] at hn
  · simp [habsent] at hg
  · simp [habsent] at hb

/-- When the first visit is over, all are. -/
theorem all_over (h : Family start phase links)
    (hstart : ∃ reported, phase start = .ended reported) :
    ∀ f ∈ links.map Prod.fst, phase f = .ended true := by
  have aux : ∀ n f, (Path.segments f).length = n → f ∈ links.map Prod.fst →
      phase f = .ended true := by
    intro n
    induction n using Nat.strong_induction_on with
    | h n ih =>
      intro f hn hf
      obtain ⟨⟨g, b⟩, hmem, rfl⟩ := List.mem_map.mp hf
      cases b with
      | none =>
        obtain ⟨reported, hover⟩ := hstart
        rw [h.eq_start hmem]
        cases reported with
        | true => exact hover
        | false => exact absurd hover h.top
      | some a =>
        have hshort : (Path.segments a).length < n := by
          rw [← hn]
          exact length_lt_of_isUnder (h.below g a hmem)
        have ha : phase a = .ended true := ih _ hshort a rfl (h.mem_above hmem)
        rcases h.parent g a hmem with ⟨m, hm⟩ | ⟨-, hover⟩
        · simp [ha] at hm
        · exact hover
  intro f hf
  exact aux _ f rfl hf

/-- While the first visit is not over, some visit waits for none below it. -/
theorem exists_open (h : Family start phase links)
    (hstart : ∀ reported, phase start ≠ .ended reported) :
    ∃ f ∈ links.map Prod.fst, phase f = .early ∨ phase f = .gathered ∨ phase f = .ended false := by
  by_contra hnone
  push Not at hnone
  have hdeeper : ∀ f ∈ links.map Prod.fst, phase f ≠ .ended true →
      ∃ g ∈ links.map Prod.fst, phase g ≠ .ended true ∧
        (Path.segments f).length < (Path.segments g).length := by
    intro f hf hopen
    have hall := hnone f hf
    cases hphase : phase f with
    | absent => exact absurd hf ((h.known f).mp hphase)
    | early => exact absurd hphase hall.1
    | gathered => exact absurd hphase hall.2.1
    | ended reported => cases reported <;> simp_all
    | gathering n =>
      obtain ⟨hpos, hcount⟩ := h.count f n hphase
      have hsome : ¬ ∀ g, (g, some f) ∈ links → phase g = .ended true := by
        rw [← pending_eq_zero_iff]
        omega
      push Not at hsome
      obtain ⟨g, hg, hgopen⟩ := hsome
      exact ⟨g, List.mem_map_of_mem hg, hgopen, length_lt_of_isUnder (h.below g f hg)⟩
  have hlong : ∀ n, ∃ f ∈ links.map Prod.fst, phase f ≠ .ended true ∧
      n ≤ (Path.segments f).length := by
    intro n
    induction n with
    | zero => exact ⟨start, List.mem_map_of_mem h.start_mem, hstart true, Nat.zero_le _⟩
    | succ n ih =>
      obtain ⟨f, hf, hopen, hn⟩ := ih
      obtain ⟨g, hg, hgopen, hlt⟩ := hdeeper f hf hopen
      exact ⟨g, hg, hgopen, by omega⟩
  obtain ⟨f, hf, -, hn⟩ := hlong
    (((links.map Prod.fst).map fun f => (Path.segments f).length).sum + 1)
  have hle := List.le_sum_of_mem (List.mem_map_of_mem (f := fun f => (Path.segments f).length) hf)
  omega

/-- An early visit has none below it. -/
theorem none_below (h : Family start phase links) (ha : phase a = .early) :
    (f, some a) ∉ links := by
  intro hf
  rcases h.parent f a hf with ⟨n, hn⟩ | ⟨hg | ⟨b, hb⟩, -⟩
  · simp [ha] at hn
  · simp [ha] at hg
  · simp [ha] at hb

/-- A visit without any left below it comes to its end. -/
theorem settle (h : Family start phase links) {above : Option String} (hf : (f, above) ∈ links)
    (hphase : phase f = .early ∨ phase f = .gathered) :
    Family start (Function.update phase f (.ended above.isNone)) links where
  first := h.first
  unique := h.unique
  known g := by
    by_cases hg : g = f
    · subst hg
      simp only [Function.update_self, reduceCtorEq, false_iff, not_not]
      exact List.mem_map_of_mem hf
    · simp [hg, h.known g]
  below := h.below
  parent g a hg := by
    have hold := h.parent g a hg
    have hgf : g = f → phase g ≠ .ended true := by
      rintro rfl
      rcases hphase with hp | hp <;> simp [hp]
    by_cases haf : a = f
    · subst haf
      have hgather : phase a ≠ .early := fun hp => h.none_below hp hg
      have hnot : ∀ n, phase a ≠ .gathering n := by
        intro n hn
        rcases hphase with hp | hp <;> simp [hp] at hn
      rcases hold with ⟨n, hn⟩ | ⟨-, hover⟩
      · exact absurd hn (hnot n)
      · refine Or.inr ⟨Or.inr ⟨_, Function.update_self ..⟩, ?_⟩
        rw [Function.update_of_ne (fun he => hgf he hover)]
        exact hover
    · rw [Function.update_of_ne haf]
      rcases hold with hn | ⟨ha, hover⟩
      · exact Or.inl hn
      · refine Or.inr ⟨ha, ?_⟩
        rw [Function.update_of_ne (fun he => hgf he hover)]
        exact hover
  count a n hn := by
    have haf : a ≠ f := by
      rintro rfl
      simp at hn
    rw [Function.update_of_ne haf] at hn
    refine ⟨(h.count a n hn).1, ?_⟩
    rw [← (h.count a n hn).2]
    apply pending_congr
    rintro ⟨g, b⟩ hg rfl
    by_cases hgf : g = f
    · subst hgf
      have habove : above = some a := h.above_unique hf hg
      rcases hphase with hp | hp <;> simp [hp, habove]
    · simp [hgf]
  top := by
    by_cases hs : start = f
    · subst hs
      have habove : above = none := h.above_unique hf h.start_mem
      simp [habove]
    · simpa [hs] using h.top

/-- New visits below an early one, which waits for them. -/
theorem gather (h : Family start phase links) {found : List String} (hphase : phase f = .early)
    (hsome : found ≠ []) (hnodup : found.Nodup) (hnew : ∀ g ∈ found, g ∉ links.map Prod.fst)
    (hunder : ∀ g ∈ found, Path.isUnder g f = true) :
    Family start
      (Function.update (fun g => if g ∈ found then .early else phase g) f (.gathering found.length))
      (links ++ found.map fun g => (g, some f)) := by
  have hmem : f ∈ links.map Prod.fst := by
    by_contra hnot
    simp [(h.known f).mpr hnot] at hphase
  have hfresh : f ∉ found := fun hf => hnew f hf hmem
  have hopen : ∀ g ∈ found,
      Function.update (fun g => if g ∈ found then Phase.early else phase g) f
        (.gathering found.length) g ≠ .ended true := by
    intro g hg
    have hgf : g ≠ f := fun he => hfresh (he ▸ hg)
    rw [Function.update_of_ne hgf, if_pos hg]
    simp
  have hnames : (links ++ found.map fun g => ((g, some f) : Link)).map Prod.fst =
      links.map Prod.fst ++ found := by
    simp [List.map_map, Function.comp_def]
  have hold : ∀ g, g ∈ links.map Prod.fst → g ≠ f →
      Function.update (fun g => if g ∈ found then Phase.early else phase g) f
        (.gathering found.length) g = phase g := by
    intro g hg hgf
    rw [Function.update_of_ne hgf, if_neg fun hin => hnew g hin hg]
  refine ⟨?_, ?_, ?_, ?_, ?_, ?_, ?_⟩
  · obtain ⟨rest, rfl, hrest⟩ := h.first
    refine ⟨rest ++ found.map fun g => (g, some f), rfl, ?_⟩
    intro l hl
    rcases List.mem_append.mp hl with hl | hl
    · exact hrest l hl
    · obtain ⟨g, -, rfl⟩ := List.mem_map.mp hl
      simp
  · rw [hnames, List.nodup_append]
    exact ⟨h.unique, hnodup, fun a ha b hb hab => hnew b hb (hab ▸ ha)⟩
  · intro g
    rw [hnames, List.mem_append]
    by_cases hg : g = f
    · subst hg
      simp [hmem]
    · rw [Function.update_of_ne hg]
      by_cases hin : g ∈ found
      · simp [hin]
      · simp [hin, h.known g]
  · intro g a hg
    rcases List.mem_append.mp hg with hg | hg
    · exact h.below g a hg
    · obtain ⟨b, hb, heq⟩ := List.mem_map.mp hg
      obtain ⟨rfl, hfa⟩ := Prod.mk.inj heq
      rw [← Option.some.inj hfa]
      exact hunder b hb
  · intro g a hlink
    rcases List.mem_append.mp hlink with hg | hg
    · have ha : a ≠ f := by
        rintro rfl
        exact h.none_below hphase hg
      have hgn := List.mem_map_of_mem (f := Prod.fst) hg
      rw [hold a (h.mem_above hg) ha]
      rcases h.parent g a hg with hn | ⟨hpast, hover⟩
      · exact Or.inl hn
      · refine Or.inr ⟨hpast, ?_⟩
        rw [hold g hgn (fun he => by simp [he, hphase] at hover)]
        exact hover
    · obtain ⟨b, -, heq⟩ := List.mem_map.mp hg
      obtain ⟨-, hfa⟩ := Prod.mk.inj heq
      rw [← Option.some.inj hfa]
      exact Or.inl ⟨_, Function.update_self ..⟩
  · intro a n hn
    by_cases ha : a = f
    · subst ha
      rw [Function.update_self] at hn
      obtain rfl : found.length = n := by simpa using hn
      refine ⟨List.length_pos_iff.mpr hsome, ?_⟩
      rw [pending_append, pending_found hopen, if_pos rfl, pending_eq_zero_iff.mpr, Nat.zero_add]
      intro g hg
      exact absurd hg (h.none_below hphase)
    · have hn' : phase a = .gathering n := by
        rw [Function.update_of_ne ha] at hn
        by_cases hin : a ∈ found
        · simp [hin] at hn
        · simpa [hin] using hn
      obtain ⟨hpos, hcount⟩ := h.count a n hn'
      refine ⟨hpos, ?_⟩
      rw [pending_append, pending_found hopen, if_neg ha, Nat.add_zero, ← hcount]
      apply pending_congr
      rintro ⟨g, b⟩ hg rfl
      by_cases hgf : g = f
      · subst hgf
        simp [hphase]
      · rw [hold g (List.mem_map_of_mem (f := Prod.fst) hg) hgf]
  · by_cases hs : start = f
    · subst hs
      simp
    · rw [hold start (List.mem_map_of_mem h.start_mem) hs]
      exact h.top

/-- A report reaches the visit above, which counts one less. -/
theorem report (h : Family start phase links) {n : Nat} (hf : (f, some a) ∈ links)
    (hphase : phase f = .ended false) (ha : phase a = .gathering n) :
    Family start (Function.update (Function.update phase f (.ended true)) a
      (if n ≤ 1 then .gathered else .gathering (n - 1))) links := by
  have hfa : f ≠ a := by
    rintro rfl
    simp [hphase] at ha
  have hpending : pending (Function.update phase f (.ended true)) a links + 1 = n := by
    rw [pending_report h.unique hf (by simp [hphase]), (h.count a n ha).2]
  have hstart : start ≠ f := fun he => h.ne_start hf he.symm
  have hlast : ∀ g, (g, some a) ∈ links → n ≤ 1 →
      Function.update phase f (.ended true) g = .ended true := by
    intro g hg hn
    exact pending_eq_zero_iff.mp (by omega) g hg
  have hkeep : ∀ g, phase g = .ended true → g ≠ a ∧ g ≠ f := by
    intro g hg
    constructor
    · rintro rfl
      simp [hg] at ha
    · rintro rfl
      simp [hg] at hphase
  refine ⟨h.first, h.unique, ?_, h.below, ?_, ?_, ?_⟩
  · intro g
    by_cases hga : g = a
    · subst hga
      have hmem := h.mem_above hf
      by_cases hn : n ≤ 1 <;> simp [hn, hmem]
    · by_cases hgf : g = f
      · subst hgf
        have hmem := List.mem_map_of_mem (f := Prod.fst) hf
        simp [hga, hmem]
      · simp [hga, hgf, h.known g]
  · intro g b hg
    by_cases hb : b = a
    · subst hb
      rw [Function.update_self]
      by_cases hn : n ≤ 1
      · have hover := hlast g hg hn
        have hgb : g ≠ b := by
          rintro rfl
          rw [Function.update_of_ne (Ne.symm hfa), ha] at hover
          simp at hover
        refine Or.inr ⟨Or.inl (if_pos hn), ?_⟩
        rw [Function.update_of_ne hgb]
        exact hover
      · exact Or.inl ⟨n - 1, if_neg hn⟩
    · rw [Function.update_of_ne hb]
      rcases h.parent g b hg with ⟨m, hm⟩ | ⟨hpast, hover⟩
      · refine Or.inl ⟨m, ?_⟩
        rw [Function.update_of_ne (fun he => by simp [he, hphase] at hm)]
        exact hm
      · obtain ⟨hga, hgf⟩ := hkeep g hover
        refine Or.inr ⟨?_, by rw [Function.update_of_ne hga,
          Function.update_of_ne hgf]; exact hover⟩
        by_cases hbf : b = f
        · subst hbf
          exact Or.inr ⟨true, Function.update_self ..⟩
        · rw [Function.update_of_ne hbf]
          exact hpast
  · intro b m hm
    by_cases hb : b = a
    · subst hb
      rw [Function.update_self] at hm
      by_cases hn : n ≤ 1
      · simp [hn] at hm
      · rw [if_neg hn] at hm
        obtain rfl : n - 1 = m := by simpa using hm
        refine ⟨by omega, ?_⟩
        have hsame : pending (Function.update (Function.update phase f (.ended true)) b
            (if n ≤ 1 then .gathered else .gathering (n - 1))) b links =
            pending (Function.update phase f (.ended true)) b links := by
          apply pending_congr
          rintro ⟨g, c⟩ hg rfl
          by_cases hgb : g = b
          · subst hgb
            simp [hn, Ne.symm hfa, ha]
          · simp [hgb]
        omega
    · have hbf : b ≠ f := by
        rintro rfl
        simp [hb] at hm
      rw [Function.update_of_ne hb, Function.update_of_ne hbf] at hm
      obtain ⟨hpos, hcount⟩ := h.count b m hm
      refine ⟨hpos, ?_⟩
      rw [← hcount]
      apply pending_congr
      rintro ⟨g, c⟩ hg rfl
      have hgf : g ≠ f := by
        rintro rfl
        exact hb (Option.some.inj (h.above_unique hf hg)).symm
      by_cases hga : g = a
      · subst hga
        by_cases hn : n ≤ 1 <;> simp [hn, ha]
      · simp [hga, hgf]
  · by_cases hs : start = a
    · subst hs
      by_cases hn : n ≤ 1 <;> simp [hn]
    · simpa [hs, hstart] using h.top

end Family

end Depot.Listing.Timeline
