import Depot.Channel.Queue
import Depot.Proofs.Decimal.Double

/-!
Lengths of time from numbers of seconds. A positive number of seconds is a length of time
as long as it is less than a billion days: the fraction of a second, which is rounded twice,
never reaches past the next whole second.
-/
namespace Depot.Decimal

theorem nearestQuotient_le {n d m : Nat} (hd : 0 < d) (h : n ≤ m * d) :
    nearestQuotient n d ≤ m := by
  rcases h.lt_or_eq with hlt | rfl
  · have hquotient : n / d < m := Nat.div_lt_of_lt_mul (by rwa [mul_comm] at hlt)
    unfold nearestQuotient
    dsimp only
    split_ifs <;> omega
  · simp [nearestQuotient, hd]

/-- Neither rounding goes above a whole number of few digits. -/
theorem nearestRounded_le {n k m : Nat} (hm : m < 2 ^ 52) (h : n ≤ m * 2 ^ k) :
    nearestRounded n k ≤ m := by
  have hcut : n.log2 - 52 ≤ k := by
    rcases Nat.eq_zero_or_pos n with rfl | hpos
    · simp
    · have hlog : n.log2 < 52 + k := by
        rw [Nat.log2_lt hpos.ne', pow_add]
        exact h.trans_lt (Nat.mul_lt_mul_of_pos_right hm (by positivity))
      omega
  have hpow : 2 ^ k = 2 ^ (k - (n.log2 - 52)) * 2 ^ (n.log2 - 52) := by
    rw [← pow_add, Nat.sub_add_cancel hcut]
  have hrounded : nearestQuotient n (2 ^ (n.log2 - 52)) ≤ m * 2 ^ (k - (n.log2 - 52)) :=
    nearestQuotient_le (by positivity) (by rwa [mul_assoc, ← hpow])
  unfold nearestRounded
  simp only [Nat.pow_eq]
  refine nearestQuotient_le (by positivity) ?_
  rw [hpow, ← mul_assoc]
  exact Nat.mul_le_mul_right _ hrounded

namespace Binary

variable {b : Binary}

theorem rest_lt : b.rest < 2 ^ (-b.exponent).toNat := by
  unfold rest
  rw [Nat.pow_eq]
  split_ifs
  · positivity
  · exact Nat.mod_lt _ (by positivity)

/-- A whole part of many digits leaves few for the rest. -/
theorem places_le_of_whole {k : Nat} (hb : b.Normal) (hk : k ≤ 52) (h : 2 ^ (52 - k) ≤ b.whole) :
    (-b.exponent).toNat ≤ k := by
  by_contra hmore
  have hneg : ¬ 0 ≤ b.exponent := by omega
  rw [whole, if_neg hneg, Nat.pow_eq, Nat.le_div_iff_mul_le (by positivity), ← pow_add] at h
  have hfew := (Nat.pow_lt_pow_iff_right (by norm_num)).mp (h.trans_lt hb.short)
  omega

end Binary

end Depot.Decimal

namespace Depot.Channel

open Decimal (Binary classify nearestRounded inUnits?)

namespace Window

/-- A billion days in seconds, the first number of seconds that is no length of time. -/
def tooLong : Float := 86400000000000

theorem classify_tooLong : classify tooLong = .finite false ⟨5529600000000000, -6, false⟩ := rfl

variable {x : Float} {b : Binary}

theorem lt_tooLong_iff (hx : classify x = .finite false b) :
    x < tooLong ↔ b.whole < 86400000000000 := by
  refine Decimal.lt_iff_whole_lt hx classify_tooLong ?_
  norm_num [Binary.rational]

def fraction (b : Binary) : Nat := nearestRounded (1000000 * b.rest) (-b.exponent).toNat

theorem ofSeconds?_of_finite (hx : classify x = .finite false b) :
    ofSeconds? x = checked (1000000 * b.whole + fraction b : Nat) := by
  rw [ofSeconds?, ofUnits?, inUnits?, hx]
  rfl

theorem fraction_le (b : Binary) : fraction b ≤ 1000000 :=
  Decimal.nearestRounded_le (by norm_num) (Nat.mul_le_mul_left _ b.rest_lt.le)

/-- With six binary digits after the point no fraction is rounded up to a second. -/
theorem fraction_lt (h : (-b.exponent).toNat ≤ 6) : fraction b < 1000000 := by
  have hrest := b.rest_lt
  have hpow : 2 ^ (-b.exponent).toNat ≤ 2 ^ 6 := Nat.pow_le_pow_right (by norm_num) h
  have hle : fraction b ≤ 999999 := Decimal.nearestRounded_le (by norm_num) (by omega)
  omega

theorem total_lt_iff (hb : b.Normal) :
    1000000 * b.whole + fraction b < 1000000 * 86400000000000 ↔ b.whole < 86400000000000 := by
  have hfraction := fraction_le b
  constructor
  · omega
  · intro h
    rcases Nat.lt_or_eq_of_le (Nat.le_of_lt_succ h) with hless | hlast
    · omega
    · have := fraction_lt (Binary.places_le_of_whole (k := 6) hb (by norm_num) (by omega))
      omega

theorem checked_natCast (n : Nat) :
    checked n = if n < 1000000 * 86400000000000 then .ok (n : Int) else .error .outOfRange := by
  have hrange : inRange n = decide (n < 1000000 * 86400000000000) := by
    rw [inRange, dayLimit, Calendar.microsecondsPerDay, Bool.eq_iff_iff]
    simp only [Bool.and_eq_true, decide_eq_true_eq]
    change -(999999999 * 86400000000 : Int) ≤ n ∧ (n : Int) < (999999999 + 1) * 86400000000 ↔ _
    omega
  simp only [checked, hrange, decide_eq_true_eq]

/-- A positive number of seconds is a length of time exactly if it is not too long. -/
theorem ofSeconds?_of_pos (hx : 0 < x) :
    (x < tooLong → ∃ w : Window, ofSeconds? x = .ok w) ∧
      (¬ x < tooLong → ofSeconds? x = .error .outOfRange) := by
  rcases Decimal.pos_iff.mp hx with hinfinite | ⟨b, hb⟩
  · have hnone : ofSeconds? x = .error .outOfRange := by
      rw [ofSeconds?, ofUnits?, inUnits?, hinfinite]
    exact ⟨fun h => absurd h (Decimal.not_lt_of_infinite hinfinite), fun _ => hnone⟩
  · obtain ⟨hnormal, -⟩ := Decimal.unpack_of_classify hb
    rw [lt_tooLong_iff hb, ← total_lt_iff hnormal, ofSeconds?_of_finite hb, checked_natCast]
    exact ⟨fun h => ⟨_, if_pos h⟩, fun h => if_neg h⟩

end Window

end Depot.Channel
