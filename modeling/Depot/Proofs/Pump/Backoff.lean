import Depot.Proofs.Pump.Trace
import Mathlib.Algebra.Order.Ring.Rat
import Mathlib.Algebra.Order.Ring.Unbundled.Basic
import Mathlib.Tactic.NormNum

/-!
The delays of a policy over exact numbers. Each one is cut at the largest and multiplied on
from there, and since the factor is not below one this comes to the same as cutting the power
itself: the delays are a geometric sequence up to the largest delay, and from there constant.
-/
namespace Depot.Pump.Policy

inductive Ask
  | next
  | reset
  deriving DecidableEq, Repr

structure Spell (α : Type) where
  delays : List α
  policy : Policy α

variable {α : Type} [CommSemiring α] [LinearOrder α]

def Spell.after (x : Spell α) : Ask → Spell α
  | .next => ⟨x.delays ++ [x.policy.advance.1], x.policy.advance.2⟩
  | .reset => ⟨[], x.policy.reset⟩

def asked (p : Policy α) (asks : List Ask) : Spell α := asks.foldl Spell.after ⟨[], p⟩

/-- The delay after so many others, as a power that is cut at the largest delay. -/
def capped (p : Policy α) (n : Nat) : α := min (p.smallest * p.factor ^ n) p.largest

def delayed (p : Policy α) (n : Nat) : Policy α :=
  { p with current := ((List.range n).map p.capped).getLast? }

/-- What the checks at the making of a policy leave. -/
structure Accepted (p : Policy α) : Prop where
  smallest_pos : 0 < p.smallest
  smallest_le_largest : p.smallest ≤ p.largest
  one_le_factor : 1 ≤ p.factor

variable {p : Policy α} {written : α → String} {smallest largest factor : α} {n m : Nat}

theorem create?_eq_ok : create? written smallest largest factor = .ok p ↔
    Accepted p ∧ p = ⟨smallest, largest, factor, none⟩ := by
  unfold create?
  constructor
  · intro h
    split at h
    · cases h
    · split at h
      · cases h
      · split at h
        · cases h
        · next hpos horder hfactor =>
          obtain rfl := Except.ok.inj h
          exact ⟨⟨not_le.mp hpos, not_lt.mp horder, not_lt.mp hfactor⟩, rfl⟩
  · rintro ⟨⟨hpos, horder, hfactor⟩, rfl⟩
    rw [if_neg (not_le.mpr hpos), if_neg (not_lt.mpr horder), if_neg (not_lt.mpr hfactor)]

omit [CommSemiring α] in
theorem smaller_eq_min (a b : α) : smaller a b = min a b := by
  rw [smaller, min_comm, min_def_lt]

theorem capped_le_largest (p : Policy α) (n : Nat) : p.capped n ≤ p.largest := min_le_right _ _

theorem delayed_zero (hnew : p.current = none) : p.delayed 0 = p := by
  rw [delayed, List.range_zero, List.map_nil, List.getLast?_nil, ← hnew]

theorem delayed_succ (p : Policy α) (n : Nat) :
    p.delayed (n + 1) = { p with current := some (p.capped n) } := by
  rw [delayed, List.range_succ, List.map_append, List.map_singleton, List.getLast?_concat]

/-- A reset forgets the delays, however many there were. -/
theorem reset_advanced (hnew : p.current = none) (n : Nat) : (advanced p n).reset = p := by
  induction n with
  | zero =>
    change p.reset = p
    rw [reset, ← hnew]
  | succ n ih =>
    rw [advanced_succ]
    exact ih

/-- A policy is known by the number of its delays since the start or the last reset. -/
theorem asked_eq (hnew : p.current = none) (asks : List Ask) :
    ∃ n, asked p asks = ⟨(List.range n).map (nthDelay p), advanced p n⟩ := by
  induction asks using List.reverseRecOn with
  | nil => exact ⟨0, rfl⟩
  | append_singleton asks ask ih =>
    obtain ⟨n, hn⟩ := ih
    rw [asked, List.foldl_append, ← asked, hn, List.foldl_cons, List.foldl_nil]
    cases ask with
    | next =>
      refine ⟨n + 1, ?_⟩
      rw [List.range_succ, List.map_append, advanced_succ]
      rfl
    | reset =>
      refine ⟨0, ?_⟩
      rw [Spell.after, reset_advanced hnew]
      rfl

namespace Accepted

theorem capped_zero (h : p.Accepted) : p.capped 0 = p.smallest := by
  rw [capped, pow_zero, mul_one, min_eq_left h.smallest_le_largest]

variable [IsStrictOrderedRing α]

/-- A delay that was cut leads to the same next one as the power would. -/
theorem capped_succ (h : p.Accepted) (n : Nat) :
    p.capped (n + 1) = min (p.capped n * p.factor) p.largest := by
  have hfactor : 0 ≤ p.factor := zero_le_one.trans h.one_le_factor
  have hlargest : p.largest ≤ p.largest * p.factor :=
    le_mul_of_one_le_right (h.smallest_pos.le.trans h.smallest_le_largest) h.one_le_factor
  rw [capped, capped, min_mul_of_nonneg _ _ hfactor, min_assoc, min_eq_right hlargest, pow_succ,
    mul_assoc]

theorem capped_mono (h : p.Accepted) (hle : n ≤ m) : p.capped n ≤ p.capped m :=
  min_le_min_right _ (mul_le_mul_of_nonneg_left (pow_le_pow_right₀ h.one_le_factor hle)
    h.smallest_pos.le)

theorem smallest_le_capped (h : p.Accepted) (n : Nat) : p.smallest ≤ p.capped n :=
  h.capped_zero.ge.trans (h.capped_mono n.zero_le)

theorem advance_delayed (h : p.Accepted) (n : Nat) :
    (p.delayed n).advance = (p.capped n, p.delayed (n + 1)) := by
  have hnext : (p.delayed n).nextWait = p.capped n := by
    cases n with
    | zero => exact h.capped_zero.symm
    | succ n =>
      rw [delayed_succ, h.capped_succ]
      exact smaller_eq_min _ _
  rw [advance, hnext, delayed_succ]
  rfl

/-- The delays of a policy that was made or reset, until the next reset. -/
theorem advanced_eq (h : p.Accepted) (hnew : p.current = none) (n : Nat) :
    advanced p n = p.delayed n ∧ nthDelay p n = p.capped n := by
  have hadvanced : advanced p n = p.delayed n := by
    induction n with
    | zero => exact (delayed_zero hnew).symm
    | succ n ih =>
      rw [advanced_succ, ih]
      exact congrArg Prod.snd (h.advance_delayed n)
  refine ⟨hadvanced, ?_⟩
  rw [nthDelay, hadvanced]
  exact congrArg Prod.fst (h.advance_delayed n)

end Accepted

/-- Whatever is asked of a policy that was made, its delays since the start or the last reset
are the smallest delay times the powers of the factor, cut at the largest delay, and so is the
one that comes next. They lie between the smallest and the largest delay, never become smaller
and stay at the largest once they reach it; and the current delay is the last of them, or none
right after a reset. -/
theorem delays_law [IsStrictOrderedRing α] (written : α → String) (smallest largest factor : α)
    (hmade : create? written smallest largest factor = .ok p) (asks : List Ask) :
    let x := asked p asks
    (x.delays = (List.range x.delays.length).map fun n => min (smallest * factor ^ n) largest) ∧
    x.policy.advance.1 = min (smallest * factor ^ x.delays.length) largest ∧
    (∀ d ∈ x.delays, smallest ≤ d ∧ d ≤ largest) ∧
    x.delays.Pairwise (fun d d' => d ≤ d' ∧ (d = largest → d' = largest)) ∧
    x.policy.current = x.delays.getLast? := by
  intro x
  obtain ⟨haccepted, hp⟩ := create?_eq_ok.mp hmade
  have hnew : p.current = none := congrArg current hp
  have hcapped : p.capped = fun n => min (smallest * factor ^ n) largest := by
    rw [hp]
    rfl
  obtain ⟨n, hn⟩ := asked_eq hnew asks
  have hdelays : nthDelay p = p.capped := funext fun m => (haccepted.advanced_eq hnew m).2
  rw [hdelays, (haccepted.advanced_eq hnew n).1] at hn
  rw [show x = ⟨(List.range n).map p.capped, p.delayed n⟩ from hn, ← hcapped, List.length_map,
    List.length_range, haccepted.advance_delayed]
  refine ⟨rfl, congrFun hcapped n, fun d hd => ?_, ?_, rfl⟩
  · obtain ⟨m, -, rfl⟩ := List.mem_map.mp hd
    exact ⟨hp ▸ haccepted.smallest_le_capped m, (congrFun hcapped m).le.trans (min_le_right _ _)⟩
  · rw [List.pairwise_map]
    refine List.pairwise_lt_range.imp fun hlt => ?_
    have hle := haccepted.capped_mono hlt.le
    have hlargest : p.largest = largest := congrArg Policy.largest hp
    refine ⟨hle, fun hreached => ?_⟩
    rw [← hlargest] at hreached ⊢
    exact (capped_le_largest p _).antisymm (hreached.ge.trans hle)

/-- The last delay is cut, and after a reset the first one comes again. -/
theorem delays_law_threeHalves :
    let p : Policy ℚ := ⟨1, 3, 3 / 2, none⟩
    create? (fun _ => "") 1 3 (3 / 2) = .ok p ∧
      (asked p [.next, .reset, .next, .next, .next]).policy.advance.1 = 3 ∧
      (asked p [.next, .next, .next, .next, .reset]).policy.advance.1 = 1 := by
  intro p
  have hmade : create? (fun _ => "") 1 3 (3 / 2) = .ok p :=
    create?_eq_ok.mpr ⟨⟨by norm_num [p], by norm_num [p], by norm_num [p]⟩, rfl⟩
  obtain ⟨-, hcut, -⟩ :=
    delays_law (fun _ => "") 1 3 (3 / 2) hmade [.next, .reset, .next, .next, .next]
  obtain ⟨-, hfirst, -⟩ :=
    delays_law (fun _ => "") 1 3 (3 / 2) hmade [.next, .next, .next, .next, .reset]
  refine ⟨hmade, hcut.trans ?_, hfirst.trans ?_⟩
  · norm_num [asked, Spell.after]
  · norm_num [asked, Spell.after]

end Depot.Pump.Policy
