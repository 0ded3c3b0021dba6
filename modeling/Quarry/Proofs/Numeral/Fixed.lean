import Mathlib
import Quarry.Numeral.Fixed

/-!
Decimals that are integers. Their sums are exact as long as 96 bits hold them, so are their
quotients that are integers, and they become floating point as integers do.
-/

namespace Quarry.Numeral.Fixed

@[simp] theorem mant_ofInt (z : Int) : (ofInt z).mant = z.natAbs := rfl

@[simp] theorem scale_ofInt (z : Int) : (ofInt z).scale = 0 := rfl

theorem negative_ofInt (z : Int) : (ofInt z).negative = decide (z < 0) := rfl

theorem zero_eq_ofInt : zero = ofInt 0 := rfl

theorem signed_ofInt (z : Int) : (ofInt z).signed = z := by
  unfold signed ofInt
  by_cases h : z < 0
  · simp only [h, decide_true, if_true]
    omega
  · simp only [h, decide_false, Bool.false_eq_true, if_false]
    omega

/-! ### Sums -/

theorem roundEven_one (m : Nat) : roundEven m 1 = m := by
  have hrem : 2 * (m % 1) = 0 := by omega
  rw [roundEven, hrem]
  exact Nat.div_one m

theorem fit_zero {m : Nat} (h : m < mantLimit) (negative : Bool) :
    fit negative m 0 = some ⟨negative, m, 0⟩ := by
  simp [fit, roundEven_one, h]

theorem add?_ofInt {y z : Int} (h : (y + z).natAbs < mantLimit) :
    (ofInt y).add? (ofInt z) = some (ofInt (y + z)) := by
  unfold add?
  simp only [mant_ofInt, scale_ofInt, Int.natAbs_eq_zero, signed_ofInt, Nat.max_self, Nat.sub_self,
    tenTo_zero, Nat.cast_one, mul_one]
  by_cases hy : y = 0
  · rw [if_pos hy, hy, zero_add]
  · by_cases hz : z = 0
    · rw [if_neg hy, if_pos hz, hz, add_zero]
    · rw [if_neg hy, if_neg hz, fit_zero h]
      rfl

/-! ### Quotients -/

theorem divide_ofInt {n : Nat} (hn : 0 < n) (q : Int) : (ofInt (q * n)).divide n = ofInt q := by
  have hmant : (ofInt (q * n)).mant = q.natAbs * n := by
    rw [mant_ofInt, Int.natAbs_mul, Int.natAbs_natCast]
  rw [divide, hmant]
  by_cases hq : q = 0
  · subst hq
    rw [if_pos (by simp)]
    rfl
  · have hne : q.natAbs * n ≠ 0 := Nat.mul_ne_zero (Int.natAbs_ne_zero.2 hq) hn.ne'
    have hneg : q * (n : Int) < 0 ↔ q < 0 := by
      have hcount : 0 < (n : Int) := by omega
      rcases lt_or_gt_of_ne hq with h | h
      · exact iff_of_true (mul_neg_of_neg_of_pos h hcount) h
      · exact iff_of_false (mul_pos h hcount).le.not_gt h.le.not_gt
    rw [if_neg hne, if_pos (Nat.mul_mod_left _ _), Nat.mul_div_cancel _ hn]
    simp only [ofInt, hneg]

theorem toFloat_ofInt (z : Int) : (ofInt z).toFloat = Float.ofInt z := by
  rw [toFloat, if_pos (scale_ofInt z), mant_ofInt, negative_ofInt]
  cases z with
  | ofNat n =>
    have hsign : decide (Int.ofNat n < 0) = false := rfl
    rw [hsign]
    rfl
  | negSucc n =>
    rw [decide_eq_true (Int.negSucc_lt_zero n), Int.natAbs_negSucc, Bool.true_and,
      decide_eq_true (Nat.succ_ne_zero n)]
    rfl

end Quarry.Numeral.Fixed
