import Mathlib.Algebra.Order.Field.Power
import Mathlib.Data.Int.Log
import Mathlib.Data.Rat.Cast.Order
import Mathlib.Tactic.FieldSimp
import Mathlib.Tactic.GCongr
import Mathlib.Tactic.NormNum
import Mathlib.Tactic.Positivity
import Mathlib.Tactic.Ring
import PartDepot.Number.Binary64

/-!
# Rounding fractions to doubles

What is rounded is the value of a fraction, however it is written; and a value that a double has is
rounded to that double.
-/

namespace PartDepot.Binary64

/-! ## Powers of two -/

section Scale

variable (num den : Nat) (shift : Int)

theorem scale_pos (hden : 0 < den) : 0 < (scale num den shift).2 := by
  unfold scale
  split
  · exact hden
  · exact Nat.mul_pos hden (Nat.two_pow_pos _)

theorem scale_ratio :
    ((scale num den shift).1 : ℚ) / (scale num den shift).2 = num / den * 2 ^ shift := by
  unfold scale
  split
  · next h =>
    have hpow : ((Nat.pow 2 shift.toNat : Nat) : ℚ) = 2 ^ shift := by
      obtain ⟨k, rfl⟩ := Int.eq_ofNat_of_zero_le h
      simp
    rw [Nat.cast_mul, hpow]
    ring
  · next h =>
    have hpow : ((Nat.pow 2 (-shift).toNat : Nat) : ℚ) = (2 ^ shift)⁻¹ := by
      obtain ⟨k, hk⟩ := Int.eq_ofNat_of_zero_le (show 0 ≤ -shift by omega)
      rw [hk, ← zpow_neg, hk]
      simp
    rw [Nat.cast_mul, hpow, div_mul_eq_div_div, div_inv_eq_mul]

theorem scale_mul (k : Nat) : scale (num * k) (den * k) shift =
    ((scale num den shift).1 * k, (scale num den shift).2 * k) := by
  unfold scale
  split <;> simp only [Prod.mk.injEq, true_and, and_true] <;> ring

end Scale

theorem log2_bounds {n : Nat} (hn : 0 < n) :
    (2 : ℚ) ^ (n.log2 : Int) ≤ n ∧ (n : ℚ) < 2 ^ ((n.log2 : Int) + 1) := by
  have hle : 2 ^ n.log2 ≤ n := Nat.log2_self_le hn.ne'
  have hlt : n < 2 ^ (n.log2 + 1) := Nat.lt_log2_self
  exact ⟨by exact_mod_cast hle, by exact_mod_cast hlt⟩

section LeadingExponent

variable {num den : Nat} (hnum : 0 < num) (hden : 0 < den)

include hnum hden

/-- The logarithms of a fraction's parts give its own but for one. -/
theorem ratio_bounds : (2 : ℚ) ^ ((num.log2 : Int) - den.log2 - 1) ≤ num / den ∧
    (num : ℚ) / den < 2 ^ ((num.log2 : Int) - den.log2 + 1) := by
  have hpos : (0 : ℚ) < den := by exact_mod_cast hden
  obtain ⟨hn, hn'⟩ := log2_bounds hnum
  obtain ⟨hd, hd'⟩ := log2_bounds hden
  constructor
  · rw [le_div_iff₀ hpos]
    calc (2 : ℚ) ^ ((num.log2 : Int) - den.log2 - 1) * den
        ≤ 2 ^ ((num.log2 : Int) - den.log2 - 1) * 2 ^ ((den.log2 : Int) + 1) := by gcongr
      _ = 2 ^ (num.log2 : Int) := by
        rw [← zpow_add₀ two_ne_zero]
        congr 1
        ring
      _ ≤ num := hn
  · rw [div_lt_iff₀ hpos]
    calc (num : ℚ) < 2 ^ ((num.log2 : Int) + 1) := hn'
      _ = 2 ^ ((num.log2 : Int) - den.log2 + 1) * 2 ^ (den.log2 : Int) := by
        rw [← zpow_add₀ two_ne_zero]
        congr 1
        ring
      _ ≤ 2 ^ ((num.log2 : Int) - den.log2 + 1) * den := by gcongr

theorem leadingExponent_spec :
    (2 : ℚ) ^ leadingExponent num den ≤ num / den ∧
      (num : ℚ) / den < 2 ^ (leadingExponent num den + 1) := by
  obtain ⟨hlower, hupper⟩ := ratio_bounds hnum hden
  have hpos : (0 : ℚ) < den := by exact_mod_cast hden
  have hscale := scale_ratio num den (-((num.log2 : Int) - den.log2))
  have hscalePos := scale_pos num den (-((num.log2 : Int) - den.log2)) hden
  unfold leadingExponent
  generalize (num.log2 : Int) - den.log2 = guess at *
  simp only
  -- The scaled fraction reaches one exactly when the guess is not too large.
  have hreach : (scale num den (-guess)).2 ≤ (scale num den (-guess)).1 ↔
      (2 : ℚ) ^ guess ≤ num / den := by
    have hd₂ : (0 : ℚ) < (scale num den (-guess)).2 := by exact_mod_cast hscalePos
    rw [zpow_neg, ← div_eq_mul_inv] at hscale
    rw [← Nat.cast_le (α := ℚ), ← one_le_div hd₂, hscale, one_le_div (by positivity)]
  split
  · next h => exact ⟨hreach.mp h, hupper⟩
  · next h =>
    refine ⟨hlower, ?_⟩
    rw [sub_add_cancel]
    exact lt_of_not_ge (mt hreach.mpr h)

theorem leadingExponent_eq {e : Int} (hle : (2 : ℚ) ^ e ≤ num / den)
    (hlt : (num : ℚ) / den < 2 ^ (e + 1)) : leadingExponent num den = e := by
  obtain ⟨hle', hlt'⟩ := leadingExponent_spec hnum hden
  have h₁ : leadingExponent num den < e + 1 :=
    (zpow_lt_zpow_iff_right₀ (by norm_num : (1 : ℚ) < 2)).mp (lt_of_le_of_lt hle' hlt)
  have h₂ : e < leadingExponent num den + 1 :=
    (zpow_lt_zpow_iff_right₀ (by norm_num : (1 : ℚ) < 2)).mp (lt_of_le_of_lt hle hlt')
  omega

theorem leadingExponent_mul {k : Nat} (hk : 0 < k) :
    leadingExponent (num * k) (den * k) = leadingExponent num den := by
  obtain ⟨hle, hlt⟩ := leadingExponent_spec hnum hden
  have hk' : (k : ℚ) ≠ 0 := by exact_mod_cast hk.ne'
  have hratio : ((num * k : Nat) : ℚ) / (den * k : Nat) = num / den := by
    rw [Nat.cast_mul, Nat.cast_mul, mul_div_mul_right _ _ hk']
  refine leadingExponent_eq (Nat.mul_pos hnum hk) (Nat.mul_pos hden hk) ?_ ?_
  · rwa [hratio]
  · rwa [hratio]

end LeadingExponent

/-! ## Rounding -/

theorem roundHalfEven_mul (num den : Nat) {k : Nat} (hk : 0 < k) :
    roundHalfEven (num * k) (den * k) = roundHalfEven num den := by
  have hlt : 2 * (num % den * k) > den * k ↔ 2 * (num % den) > den := by
    rw [← Nat.mul_assoc]
    exact Nat.mul_lt_mul_right hk
  have heq : 2 * (num % den * k) = den * k ↔ 2 * (num % den) = den := by
    rw [← Nat.mul_assoc]
    exact Nat.mul_left_inj hk.ne'
  simp only [roundHalfEven, Nat.mul_div_mul_right _ _ hk, Nat.mul_mod_mul_right, hlt,
    beq_iff_eq, heq, Bool.and_eq_true, Bool.or_eq_true, decide_eq_true_eq]

theorem roundHalfEven_whole (n : Nat) {den : Nat} (hden : 0 < den) :
    roundHalfEven (n * den) den = n := by
  have hne : ¬ 0 = den := hden.ne
  simp [roundHalfEven, Nat.mul_div_cancel _ hden, hne]

/-- A common factor does not count. -/
theorem roundQuotient_mul (negative : Bool) (num : Nat) {den : Nat} (hden : 0 < den) {k : Nat}
    (hk : 0 < k) : roundQuotient negative (num * k) (den * k) = roundQuotient negative num den := by
  by_cases hnum : num = 0
  · simp [roundQuotient, hnum]
  · have hpos : 0 < num := Nat.pos_of_ne_zero hnum
    have hne : num * k ≠ 0 := (Nat.mul_pos hpos hk).ne'
    simp only [roundQuotient, beq_iff_eq, hne, hnum, if_false, leadingExponent_mul hpos hden hk,
      scale_mul, roundHalfEven_mul _ _ hk]

section Exact

variable {num den m : Nat} {e : Int} (hnum : 0 < num) (hden : 0 < den)
  (hvalue : (num : ℚ) / den = m * 2 ^ e)

include hnum hden hvalue

/-- The place of the last digit that is kept is that of the double. -/
theorem max_leadingExponent (hm : Canonical m e) :
    max (-1074) (leadingExponent num den - 52) = e := by
  obtain ⟨hlt, he, -, hnormal⟩ := hm
  have hone : (1 : ℚ) < 2 := by norm_num
  obtain ⟨hlower, hupper⟩ := leadingExponent_spec hnum hden
  rw [hvalue] at hlower hupper
  have hle : leadingExponent num den < 53 + e := by
    have hm₂ : (m : ℚ) < 2 ^ (53 : Int) := by exact_mod_cast hlt
    rw [← zpow_lt_zpow_iff_right₀ hone, zpow_add₀ two_ne_zero]
    exact lt_of_le_of_lt hlower (by gcongr)
  rcases hnormal with rfl | hnormal
  · omega
  · have hm₂ : (2 : ℚ) ^ (52 : Int) ≤ m := by exact_mod_cast hnormal
    have hge : 52 + e < leadingExponent num den + 1 := by
      rw [← zpow_lt_zpow_iff_right₀ hone, zpow_add₀ two_ne_zero]
      exact lt_of_le_of_lt (by gcongr) hupper
    omega

omit hnum in
theorem roundHalfEven_scale : roundHalfEven (scale num den (-e)).1 (scale num den (-e)).2 = m := by
  have hd : (0 : ℚ) < (scale num den (-e)).2 := by exact_mod_cast scale_pos num den (-e) hden
  have hratio := scale_ratio num den (-e)
  rw [hvalue, mul_assoc, ← zpow_add₀ two_ne_zero, add_neg_cancel, zpow_zero, mul_one,
    div_eq_iff hd.ne'] at hratio
  have hscale : (scale num den (-e)).1 = m * (scale num den (-e)).2 := by exact_mod_cast hratio
  rw [hscale, roundHalfEven_whole m (scale_pos num den (-e) hden)]

end Exact

/-- The value of a double is rounded to that double. -/
theorem roundQuotient_exact (x : Binary64) (hx : 0 < x.significand) {num den : Nat} (hden : 0 < den)
    (hvalue : (num : ℚ) / den = x.significand * 2 ^ x.exponent) :
    roundQuotient x.negative num den = some x := by
  obtain ⟨negative, m, e, hcanonical⟩ := x
  simp only at hx hvalue ⊢
  have hnum : 0 < num := by
    have hden' : (0 : ℚ) < den := by exact_mod_cast hden
    have hm' : (0 : ℚ) < m := by exact_mod_cast hx
    have hpos : (0 : ℚ) < num / den := by
      rw [hvalue]
      positivity
    exact_mod_cast (div_pos_iff_of_pos_right hden').mp hpos
  have hexponent := max_leadingExponent hnum hden hvalue hcanonical
  have hround := roundHalfEven_scale hden hvalue
  have hbelow : m ≠ 0x20_0000_0000_0000 := hcanonical.1.ne
  simp [roundQuotient, hnum.ne', hexponent, hround, hbelow, ofParts?, hcanonical]

end PartDepot.Binary64
