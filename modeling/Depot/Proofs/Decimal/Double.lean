import Depot.Decimal.Whole
import Mathlib

/-!
Doubles by their bits and in their order. The class of a double agrees with the form in
which doubles are compared, so that a comparison says where its whole part lies.
-/
namespace Depot.Decimal

open Float.Model (UnpackedFloat Format)
open Float.Model.UnpackedFloat (Sign unpackMantissa unpackExponent unpackSign)

def signOf (negative : Bool) : Sign := if negative then .negative else .positive

/-- A mantissa has 53 binary digits; only at the least exponent it may have fewer. -/
structure Binary.Normal (b : Binary) : Prop where
  positive : 0 < b.mantissa
  short : b.mantissa < 2 ^ 53
  lowest : -1074 ≤ b.exponent
  full : -1074 < b.exponent → 2 ^ 52 ≤ b.mantissa

inductive Class.Describes : Class → UnpackedFloat → Prop
  | nan : Describes .nan .notANumber
  | infinite (negative : Bool) : Describes (.infinite negative) (.infinity (signOf negative))
  | zero (negative : Bool) : Describes (.zero negative) (.zero (signOf negative))
  | finite (negative : Bool) (b : Binary) (h : b.Normal) :
      Describes (.finite negative b) (.finite (signOf negative) b.mantissa b.exponent h.positive)

theorem Class.Describes.of_finite {negative : Bool} {b : Binary} {m : Nat} {e : Int} {hpos : 0 < m}
    (hm : m = b.mantissa) (he : e = b.exponent) (h : b.Normal) :
    Describes (.finite negative b) (.finite (signOf negative) m e hpos) := by
  subst hm he
  exact .finite negative b h

section Fields

variable (v : BitVec Format.binary64.numBits)

theorem toNat_unpackMantissa : (unpackMantissa v).toNat = v.toNat % 2 ^ 52 := by
  simp [unpackMantissa]

theorem toNat_unpackExponent : (unpackExponent v).toNat = v.toNat / 2 ^ 52 % 2 ^ 11 := by
  simp [unpackExponent, Nat.shiftRight_eq_div_pow]

theorem ofBitVec_unpackSign :
    Sign.ofBitVec (unpackSign v) = signOf (v.toNat / 2 ^ 63 = 1) := by
  have hv : v.toNat < 2 ^ 64 := v.isLt
  have hsign : (unpackSign v).toNat = v.toNat / 2 ^ 63 := by
    simp [unpackSign, Nat.shiftRight_eq_div_pow]
    omega
  by_cases hzero : unpackSign v = 0#1
  · have hclear : v.toNat / 2 ^ 63 = 0 := by rw [← hsign, hzero]; rfl
    rw [hzero, hclear]
    rfl
  · have hset : v.toNat / 2 ^ 63 = 1 := by
      rw [← BitVec.toNat_inj, hsign, BitVec.toNat_zero] at hzero
      omega
    rw [hset, Sign.ofBitVec, if_neg hzero]
    rfl

theorem toNat_implicit (m : BitVec 52) : (1#1 ++ m).toNat = 2 ^ 52 + m.toNat := by
  rw [BitVec.toNat_append, ← Nat.shiftLeft_add_eq_or_of_lt m.isLt]
  rfl

end Fields

theorem classify_describes (x : Float) : (classify x).Describes x.toModel.unpack := by
  let v : BitVec Format.binary64.numBits := x.toModel.toBits.toBitVec
  have hmantissa : x.toBits.toNat % Nat.pow 2 52 = (unpackMantissa v).toNat :=
    (toNat_unpackMantissa v).symm
  have hexponent : x.toBits.toNat / Nat.pow 2 52 % Nat.pow 2 11 = (unpackExponent v).toNat :=
    (toNat_unpackExponent v).symm
  have hsign : Sign.ofBitVec (unpackSign v) = signOf (x.toBits.toNat / Nat.pow 2 63 = 1) :=
    ofBitVec_unpackSign v
  have hone : unpackExponent v = -1#11 ↔ (unpackExponent v).toNat = 2047 := by
    rw [← BitVec.toNat_inj]; rfl
  have hnone : unpackExponent v = 0#11 ↔ (unpackExponent v).toNat = 0 := by
    rw [← BitVec.toNat_inj]; rfl
  have hempty : unpackMantissa v = 0#52 ↔ (unpackMantissa v).toNat = 0 := by
    rw [← BitVec.toNat_inj]; rfl
  have hlt : (unpackMantissa v).toNat < 2 ^ 52 := (unpackMantissa v).isLt
  change (classify x).Describes (UnpackedFloat.unpack Format.binary64 v)
  rw [classify, hmantissa, hexponent]
  dsimp only [UnpackedFloat.unpack]
  rw [hsign]
  by_cases hlast : (unpackExponent v).toNat = 2047
  · rw [if_pos hlast, if_pos (hone.mpr hlast)]
    by_cases hnothing : (unpackMantissa v).toNat = 0
    · rw [if_pos hnothing, if_pos (hempty.mpr hnothing)]
      exact .infinite _
    · rw [if_neg hnothing, if_neg (mt hempty.mp hnothing)]
      exact .nan
  · rw [if_neg hlast, if_neg (mt hone.mp hlast)]
    by_cases hfirst : (unpackExponent v).toNat = 0
    · rw [if_pos hfirst, if_pos (hnone.mpr hfirst)]
      by_cases hnothing : (unpackMantissa v).toNat = 0
      · rw [if_pos hnothing, dif_pos (hempty.mpr hnothing)]
        exact .zero _
      · rw [if_neg hnothing, dif_neg (mt hempty.mp hnothing)]
        exact .of_finite rfl (by rw [hfirst]; rfl)
          ⟨Nat.pos_of_ne_zero hnothing, hlt.trans (by norm_num), le_rfl, fun h =>
            absurd h (lt_irrefl _)⟩
    · rw [if_neg hfirst, if_neg (mt hnone.mp hfirst)]
      refine .of_finite (toNat_implicit _) rfl ⟨?_, ?_, ?_, ?_⟩ <;> simp only [Nat.pow_eq] <;> omega

/-! ### Order -/

variable {x y : Float} {b : Binary}

theorem unpack_zero : (0 : Float).toModel.unpack = .zero .positive := rfl

theorem lt_iff_unpack : x < y ↔ x.toModel.unpack.lt y.toModel.unpack = true :=
  decide_eq_true_iff (p := x.toModel < y.toModel)

theorem le_iff_unpack : x ≤ y ↔ x.toModel.unpack.le y.toModel.unpack = true :=
  decide_eq_true_iff (p := x.toModel ≤ y.toModel)

theorem pos_iff_not_le : 0 < x ↔ ¬ x ≤ 0 ∧ x.isNaN = false := by
  rw [lt_iff_unpack, le_iff_unpack, unpack_zero]
  change _ ↔ _ ∧ x.toModel.unpack.isNaN = false
  cases x.toModel.unpack with
  | notANumber => simp [UnpackedFloat.lt, UnpackedFloat.compare, UnpackedFloat.isNaN]
  | infinity s | zero s | finite s =>
    cases s <;>
      simp [UnpackedFloat.lt, UnpackedFloat.le, UnpackedFloat.compare, UnpackedFloat.isNaN]

theorem pos_iff : 0 < x ↔ classify x = .infinite false ∨ ∃ b, classify x = .finite false b := by
  have hx := classify_describes x
  rw [lt_iff_unpack, unpack_zero]
  generalize classify x = c, x.toModel.unpack = u at hx ⊢
  cases hx with
  | nan => simp [UnpackedFloat.lt, UnpackedFloat.compare]
  | zero negative => simp [UnpackedFloat.lt, UnpackedFloat.compare]
  | infinite negative | finite negative =>
    cases negative <;> simp [UnpackedFloat.lt, UnpackedFloat.compare, signOf]

theorem not_lt_of_infinite (h : classify x = .infinite false) : ¬ x < y := by
  have hx := classify_describes x
  rw [h] at hx
  rw [lt_iff_unpack]
  generalize x.toModel.unpack = u at hx ⊢
  cases hx
  cases y.toModel.unpack with
  | infinity s => cases s <;> simp [UnpackedFloat.lt, UnpackedFloat.compare, signOf]
  | _ => simp [UnpackedFloat.lt, UnpackedFloat.compare, signOf]

theorem unpack_of_classify {negative : Bool} (h : classify x = .finite negative b) :
    ∃ hb : b.Normal,
      x.toModel.unpack = .finite (signOf negative) b.mantissa b.exponent hb.positive := by
  have hx := classify_describes x
  rw [h] at hx
  generalize x.toModel.unpack = u at hx ⊢
  cases hx with
  | finite _ _ hb => exact ⟨hb, rfl⟩

def Binary.rational (b : Binary) : ℚ := b.mantissa * 2 ^ b.exponent

theorem Binary.rational_lt_of_exponent_lt {c : Binary} (hb : b.Normal) (hc : c.Normal)
    (h : b.exponent < c.exponent) : b.rational < c.rational := by
  have hfull := hc.full (lt_of_le_of_lt hb.lowest h)
  have hdouble : (b.mantissa : ℚ) < c.mantissa * 2 := by
    have := hb.short
    exact_mod_cast (by omega : b.mantissa < c.mantissa * 2)
  calc b.rational < c.mantissa * 2 * 2 ^ b.exponent := by
        unfold rational
        gcongr
    _ = c.mantissa * 2 ^ (b.exponent + 1) := by rw [zpow_add_one₀ two_ne_zero]; ring
    _ ≤ c.rational := by
        unfold rational
        gcongr
        · norm_num
        · omega

/-- Positive doubles are ordered as the numbers that they stand for. -/
theorem lt_iff_rational {c : Binary} (hx : classify x = .finite false b)
    (hy : classify y = .finite false c) : x < y ↔ b.rational < c.rational := by
  obtain ⟨hb, hx⟩ := unpack_of_classify hx
  obtain ⟨hc, hy⟩ := unpack_of_classify hy
  rw [lt_iff_unpack, hx, hy]
  have horder : (UnpackedFloat.finite (signOf false) b.mantissa b.exponent hb.positive).lt
      (.finite (signOf false) c.mantissa c.exponent hc.positive) = true ↔
      b.exponent < c.exponent ∨ b.exponent = c.exponent ∧ b.mantissa < c.mantissa := by
    simp [signOf, UnpackedFloat.lt, UnpackedFloat.compare, Ordering.then_eq_lt,
      Int.compare_eq_lt, Nat.compare_eq_lt]
  rw [horder]
  rcases lt_trichotomy b.exponent c.exponent with h | h | h
  · exact iff_of_true (.inl h) (Binary.rational_lt_of_exponent_lt hb hc h)
  · have hpow : (0 : ℚ) < 2 ^ c.exponent := by positivity
    rw [Binary.rational, Binary.rational, h, mul_lt_mul_iff_left₀ hpow, Nat.cast_lt]
    simp
  · have hlt := Binary.rational_lt_of_exponent_lt hc hb h
    exact iff_of_false (by omega) hlt.asymm

/-- The whole part of a number is the greatest whole number up to it. -/
theorem Binary.whole_eq_floor : b.whole = ⌊b.rational⌋₊ := by
  unfold whole rational
  split_ifs with h
  · have hpow : (2 : ℚ) ^ b.exponent = 2 ^ b.exponent.toNat := by
      rw [← zpow_natCast, Int.toNat_of_nonneg h]
    rw [hpow]
    exact_mod_cast (Nat.floor_natCast (R := ℚ) _).symm
  · have hpow : (2 : ℚ) ^ b.exponent = (2 ^ (-b.exponent).toNat)⁻¹ := by
      rw [← zpow_natCast, Int.toNat_of_nonneg (by omega), zpow_neg, inv_inv]
    rw [hpow, ← div_eq_mul_inv]
    exact_mod_cast (Nat.floor_div_eq_div (K := ℚ) _ _).symm

/-- A positive double is less than a whole one exactly when its whole part is. -/
theorem lt_iff_whole_lt {c : Binary} {n : Nat} (hx : classify x = .finite false b)
    (hy : classify y = .finite false c) (hn : c.rational = n) : x < y ↔ b.whole < n := by
  have hnonneg : 0 ≤ b.rational := by unfold Binary.rational; positivity
  rw [lt_iff_rational hx hy, hn, Binary.whole_eq_floor, Nat.floor_lt hnonneg]

end Depot.Decimal
