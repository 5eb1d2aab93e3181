import Lish.Core.SoftFpMul
import Lish.Ieee.Real
/-!
# SoftFpSqrt — the square root is correctly rounded

The Newton iteration starts above the root and decreases to its floor.  The radicand is shifted so far up that the floor keeps two bits
below the unit, and the remainder is its sticky bit.
-/
namespace Lish.SoftFp

open Lish.Ieee

namespace Sf

variable (f : Sf)

/-! ## The integer root -/

/-- One step of the iteration stays above the root. -/
theorem newton_above {a s : ℕ} (hs : 0 < s) : a < ((a / s + s) / 2 + 1) * ((a / s + s) / 2 + 1) := by
  have hlt : a < s * (a / s + 1) := Nat.lt_mul_div_succ a hs
  have hu : a / s + 1 + s ≤ 2 * ((a / s + s) / 2 + 1) := by omega
  have hmean : 4 * (s * (a / s + 1)) ≤ (a / s + 1 + s) * (a / s + 1 + s) := by
    nlinarith [sq_nonneg ((a / s + 1 : ℤ) - s)]
  have hsq : (a / s + 1 + s) * (a / s + 1 + s) ≤ 2 * ((a / s + s) / 2 + 1) * (2 * ((a / s + s) / 2 + 1)) := Nat.mul_le_mul hu hu
  nlinarith

/-- **The Newton iteration** from above the root ends in its floor. -/
theorem sqrtLoop_eq (a s : ℕ) (h : a < (s + 1) * (s + 1)) : sqrtLoop a s = Nat.sqrt a := by
  induction s using Nat.strong_induction_on with
  | _ s ih =>
    unfold sqrtLoop
    dsimp only
    split_ifs with hstop
    · have hle : s * s ≤ a := by
        rcases Nat.eq_zero_or_pos s with rfl | hs
        · exact Nat.zero_le _
        · exact (Nat.le_div_iff_mul_le hs).1 (by omega)
      exact Nat.eq_sqrt.2 ⟨hle, h⟩
    · have hdown : (a / s + s) / 2 < s := not_le.1 hstop
      exact ih _ hdown (newton_above (Nat.zero_lt_of_lt hdown))

/-- The root of `ah:0`, and whether it is inexact. -/
theorem sqrtremU_eq {ah : ℕ} (h : ah < 2 ^ f.fSize) : f.sqrtremU ah 0 =
    (Nat.sqrt (ah * 2 ^ f.fSize), decide (ah * 2 ^ f.fSize - Nat.sqrt (ah * 2 ^ f.fSize) * Nat.sqrt (ah * 2 ^ f.fSize) ≠ 0)) := by
  unfold sqrtremU
  by_cases h0 : ah = 0
  · subst h0
    simp
  · have hsize : (ah - 1).size ≤ f.fSize := Nat.size_le.2 (by omega)
    have hl : 2 * f.fSize - f.leadingZeros (ah - 1) = f.fSize + (ah - 1).size := by unfold leadingZeros; omega
    have hah : ah ≤ 2 ^ (ah - 1).size := by
      have := Nat.lt_size_self (ah - 1)
      omega
    have hstart : ah * 2 ^ f.fSize < (2 ^ ((f.fSize + (ah - 1).size + 1) / 2) + 1) * (2 ^ ((f.fSize + (ah - 1).size + 1) / 2) + 1) := by
      calc ah * 2 ^ f.fSize ≤ 2 ^ (ah - 1).size * 2 ^ f.fSize := Nat.mul_le_mul_right _ hah
        _ = 2 ^ ((ah - 1).size + f.fSize) := (pow_add ..).symm
        _ ≤ 2 ^ ((f.fSize + (ah - 1).size + 1) / 2 + (f.fSize + (ah - 1).size + 1) / 2) :=
          Nat.pow_le_pow_right (by norm_num) (by omega)
        _ = 2 ^ ((f.fSize + (ah - 1).size + 1) / 2) * 2 ^ ((f.fSize + (ah - 1).size + 1) / 2) := pow_add ..
        _ < _ := Nat.mul_lt_mul_of_lt_of_lt (Nat.lt_succ_self _) (Nat.lt_succ_self _)
    have hroot : Nat.sqrt (ah * 2 ^ f.fSize) < 2 ^ f.fSize := by
      rw [Nat.sqrt_lt]
      exact Nat.mul_lt_mul_of_pos_right h (Nat.two_pow_pos _)
    rw [if_neg (by simp [h0])]
    dsimp only
    rw [if_pos h0, hl, Nat.or_zero, Nat.shiftLeft_eq, sqrtLoop_eq _ _ hstart, Nat.mod_eq_of_lt hroot]

/-! ## The root of an encoding -/

/-- The floor of a root and the numbers it stands for: the root itself when exact, else any between it and its successor. -/
theorem root_sticky (a : ℕ) : ∃ q : ℚ, (Nat.sqrt a : ℚ) ≤ q ∧ Alike 1 q (Real.sqrt a) ∧
    Sticky (if decide (a - Nat.sqrt a * Nat.sqrt a ≠ 0) = true then Nat.sqrt a ||| 1 else Nat.sqrt a) q := by
  have hle := Nat.sqrt_le a
  by_cases hex : a - Nat.sqrt a * Nat.sqrt a = 0
  · have ha : Nat.sqrt a * Nat.sqrt a = a := by omega
    have hroot : Real.sqrt a = ((Nat.sqrt a : ℚ) : ℝ) := by
      rw [← ha]
      push_cast
      rw [Nat.sqrt_eq, Real.sqrt_mul_self (Nat.cast_nonneg _)]
    refine ⟨Nat.sqrt a, le_rfl, ?_, ?_⟩
    · rw [hroot]
      exact alike_self 1 _
    · rw [if_neg (by simp [hex])]
      exact Sticky.self _
  · have hlo : (Nat.sqrt a : ℝ) < Real.sqrt a := by
      rw [Real.lt_sqrt (Nat.cast_nonneg _), sq]
      exact_mod_cast (by omega : Nat.sqrt a * Nat.sqrt a < a)
    have hhi : Real.sqrt a < Nat.sqrt a + 1 := by
      rw [Real.sqrt_lt' (by positivity), sq]
      exact_mod_cast Nat.lt_succ_sqrt a
    refine ⟨((2 * Nat.sqrt a + 1 : ℕ) : ℚ) / (2 : ℕ), ?_, fun n => ⟨?_, ?_⟩, ?_⟩
    · rw [le_div_iff₀ (by norm_num)]
      push_cast
      linarith
    · push_cast
      constructor
      · intro h
        have hn : n ≤ Nat.sqrt a := Nat.lt_succ_iff.1 (by exact_mod_cast (by linarith : (n : ℚ) < Nat.sqrt a + 1))
        have : (n : ℝ) ≤ Nat.sqrt a := by exact_mod_cast hn
        linarith
      · intro h
        have hn : n ≤ Nat.sqrt a := Nat.lt_succ_iff.1 (by exact_mod_cast (by linarith : (n : ℝ) < Nat.sqrt a + 1))
        have : (n : ℚ) ≤ Nat.sqrt a := by exact_mod_cast hn
        linarith
    · push_cast
      constructor
      · intro h
        have hn : Nat.sqrt a < n := by exact_mod_cast (by linarith : (Nat.sqrt a : ℚ) < n)
        have : (Nat.sqrt a + 1 : ℝ) ≤ n := by exact_mod_cast hn
        linarith
      · intro h
        have hn : Nat.sqrt a < n := by exact_mod_cast (by linarith : (Nat.sqrt a : ℝ) < n)
        have : (Nat.sqrt a + 1 : ℚ) ≤ n := by exact_mod_cast hn
        linarith
    · have hst := sticky_div (2 * Nat.sqrt a + 1) (by norm_num : 0 < 2)
      rw [show (2 * Nat.sqrt a + 1) / 2 = Nat.sqrt a by omega, if_neg (by omega)] at hst
      rw [if_pos (by simpa using hex)]
      exact hst

theorem halfMask : (f.expMask / 2 : ℕ) = f.bias := by
  have hR := f.rndPow_ge
  rw [f.expMask_eq, f.bias_eq]
  have h : (2 * 2 ^ f.rndSize - 1) / 2 = 2 ^ f.rndSize - 1 := by omega
  rw [h]
  push_cast [Nat.one_le_two_pow]
  rfl

/-- An exponent made even, the mantissa doubled where it was odd. -/
theorem even_exponent {e : ℤ} {m : ℕ} (hm : m < 2 ^ (f.mantSize + 1)) : ∃ (k : ℤ) (p : ℕ),
    ((if e % 2 ≠ 0 then (e - 1, f.shl m 1) else (e, m)) : ℤ × ℕ) = (2 * k, p) ∧ m ≤ p ∧ p < 2 ^ (f.mantSize + 2) ∧
      (p : ℚ) * 2 ^ (2 * k) = m * 2 ^ e := by
  have hF := f.fSize_eq
  have hM : 2 ^ (f.mantSize + 2) = 2 * 2 ^ (f.mantSize + 1) := pow_succ' ..
  split_ifs with h
  · have hshl : f.shl m 1 = m * 2 ^ 1 := f.shl_eq (by
      calc m * 2 ^ 1 < 2 ^ (f.mantSize + 1) * 2 ^ 1 := Nat.mul_lt_mul_of_pos_right hm (by norm_num)
        _ = 2 ^ (f.mantSize + 1 + 1) := (pow_add ..).symm
        _ ≤ _ := Nat.pow_le_pow_right (by norm_num) (by have := f.rndSize_ge; omega))
    refine ⟨(e - 1) / 2, m * 2 ^ 1, ?_, by omega, by omega, ?_⟩
    · rw [hshl, Int.mul_ediv_cancel' (by omega)]
    · rw [Int.mul_ediv_cancel' (by omega), zpow_sub₀ (by norm_num)]
      push_cast
      ring
  · refine ⟨e / 2, m, ?_, le_rfl, by omega, ?_⟩
    · rw [Int.mul_ediv_cancel' (by omega)]
    · rw [Int.mul_ediv_cancel' (by omega)]

/-- The radicand of the integer root has an even number of bits above the mantissa. -/
theorem radicand_eq (k : ℤ) (p : ℕ) : ((p * 2 ^ (f.rndSize - 2) * 2 ^ f.fSize : ℕ) : ℚ) * (2 ^ (k - f.mantSize - f.rndSize)) ^ 2 =
    p * 2 ^ (2 * k) * 2 ^ (-(f.mantSize : ℤ)) := by
  have hF := f.fSize_eq
  have hR := f.rndSize_ge
  push_cast
  rw [← zpow_natCast (2 : ℚ) (f.rndSize - 2), ← zpow_natCast (2 : ℚ) f.fSize, ← zpow_natCast ((2 : ℚ) ^ (k - f.mantSize - f.rndSize)),
    ← zpow_mul, mul_assoc, mul_assoc, mul_assoc, ← zpow_add₀ (by norm_num), ← zpow_add₀ (by norm_num), ← zpow_add₀ (by norm_num)]
  congr 2
  push_cast [hF]
  omega

/-- The root of a positive number in a format, from its exponent and normalized mantissa. -/
theorem sqrt_round {rm : ℕ} (hrm : rm ≤ 4) (fl : FFlags) {e : ℤ} {m : ℕ} (hl : 2 ^ f.mantSize ≤ m)
    {k : ℤ} {p : ℕ} (hp : m ≤ p) (hp' : p < 2 ^ (f.mantSize + 2)) (hk : (p : ℚ) * 2 ^ (2 * k) = m * 2 ^ (e - f.bias)) :
    f.Yields (f.normalize 0 (k + f.bias) (if decide (p * 2 ^ (f.rndSize - 2) * 2 ^ f.fSize -
          Nat.sqrt (p * 2 ^ (f.rndSize - 2) * 2 ^ f.fSize) * Nat.sqrt (p * 2 ^ (f.rndSize - 2) * 2 ^ f.fSize) ≠ 0) = true
        then Nat.sqrt (p * 2 ^ (f.rndSize - 2) * 2 ^ f.fSize) ||| 1 else Nat.sqrt (p * 2 ^ (f.rndSize - 2) * 2 ^ f.fSize)) rm fl) fl
      (f.format.roundReal (roundingOf rm) false (Real.sqrt ((m * 2 ^ (e - f.bias - f.mantSize) : ℚ) : ℝ))) := by
  have hF := f.fSize_eq
  have hR := f.rndSize_ge
  set n := p * 2 ^ (f.rndSize - 2) * 2 ^ f.fSize with hn
  obtain ⟨q, hq, halike, hst⟩ := root_sticky n
  have hlow : 2 ^ (f.fSize - 2) ≤ Nat.sqrt n := by
    rw [Nat.le_sqrt]
    calc 2 ^ (f.fSize - 2) * 2 ^ (f.fSize - 2) = 2 ^ f.mantSize * 2 ^ (f.rndSize - 2) * 2 ^ f.fSize := by
          simp only [← pow_add]
          congr 1
          omega
      _ ≤ n := Nat.mul_le_mul_right _ (Nat.mul_le_mul_right _ (le_trans hl hp))
  have hhigh : Nat.sqrt n < 2 ^ (f.fSize - 1) := by
    rw [Nat.sqrt_lt]
    calc n < 2 ^ (f.mantSize + 2) * 2 ^ (f.rndSize - 2) * 2 ^ f.fSize :=
          Nat.mul_lt_mul_of_pos_right (Nat.mul_lt_mul_of_pos_right hp' (Nat.two_pow_pos _)) (Nat.two_pow_pos _)
      _ = 2 ^ (f.fSize - 1) * 2 ^ (f.fSize - 1) := by
          simp only [← pow_add]
          congr 1
          omega
  set j := if decide (n - Nat.sqrt n * Nat.sqrt n ≠ 0) = true then Nat.sqrt n ||| 1 else Nat.sqrt n with hj
  have heven : 2 ^ (f.fSize - 1) = 2 * 2 ^ (f.fSize - 2) := by rw [← pow_succ']; congr 1; omega
  have hj1 : 2 ^ (f.fSize - 2) ≤ j := by
    rw [hj, or_one_eq]
    split_ifs <;> omega
  have hj2 : j < 2 ^ (f.fSize - 1) := by
    rw [hj, or_one_eq]
    split_ifs <;> omega
  -- the root of the operand, and the unit of the rounding
  set t : ℤ := k - f.mantSize - f.rndSize with ht
  have hroot : Real.sqrt ((m * 2 ^ (e - f.bias - f.mantSize) : ℚ) : ℝ) = Real.sqrt n * ((2 ^ t : ℚ) : ℝ) := by
    have hval : (m * 2 ^ (e - f.bias - f.mantSize) : ℚ) = n * (2 ^ t) ^ 2 := by
      rw [hn, f.radicand_eq, hk, mul_assoc, ← zpow_add₀ (by norm_num), ← sub_eq_add_neg]
    rw [hval]
    push_cast
    rw [Real.sqrt_mul (Nat.cast_nonneg _), Real.sqrt_sq (by positivity)]
  have hmag : f.magnitude (k + f.bias) q = q * 2 ^ t := by
    unfold magnitude
    congr 2
    omega
  have hlarge : (2 : ℚ) ^ (t + (f.mantSize + 1 : ℕ)) ≤ q * 2 ^ t := by
    have hM : 2 ^ (f.mantSize + 1) ≤ Nat.sqrt n := le_trans (Nat.pow_le_pow_right (by norm_num) (by omega)) hlow
    have hM' : (2 : ℚ) ^ (f.mantSize + 1) ≤ q := le_trans (by exact_mod_cast hM) hq
    rw [zpow_add₀ (by norm_num), zpow_natCast, mul_comm]
    exact mul_le_mul_of_nonneg_right hM' (by positivity)
  have halike' : Alike (2 ^ t) (q * 2 ^ t) (Real.sqrt n * ((2 ^ t : ℚ) : ℝ)) := by
    have h := halike.scale (c := 2 ^ t) (by positivity)
    rwa [one_mul] at h
  rw [hroot, f.format.roundReal_congr (Nat.succ_pos _) _ _ halike' hlarge, ← hmag]
  refine f.normalize_yields (by norm_num) hrm ?_ hj2 (Or.inr ⟨0, f.fSize - 2, hst.at 0, hj1, by omega⟩) _ fl
  have := Nat.two_pow_pos (f.fSize - 2)
  omega

/-- **The square root is correctly rounded**, with exact flags. -/
theorem sqrt_yields {a rm : ℕ} (ha : a < 2 ^ f.fSize) (hrm : rm ≤ 4) (fl : FFlags) :
    f.Yields (f.sqrt a rm fl) fl (f.format.sqrt (roundingOf rm) (f.decode a)) := by
  unfold sqrt Format.sqrt
  dsimp only
  rw [isNan_decode, isSignaling_decode, isZero_decode]
  by_cases hsp : f.expOf a = f.expMask
  · rw [if_pos hsp]
    by_cases hm : f.mantOf a ≠ 0
    · rw [if_pos hm, if_pos ((f.isNan_iff a).2 ⟨hsp, hm⟩)]
      exact f.yields_nan fl _
    · have hnan : f.isNan a = false := Bool.eq_false_iff.2 fun h => hm ((f.isNan_iff a).1 h).2
      have hz : ¬ (f.expOf a = 0 ∧ f.mantOf a = 0) := fun h => f.expMask_pos.ne' (hsp.symm.trans h.1)
      rw [if_neg hm, hnan, f.neg_decode hnan, f.isInf_of_not_nan hnan, if_neg Bool.false_ne_true, decide_eq_false hz,
        if_neg Bool.false_ne_true]
      by_cases hs : f.signOf a ≠ 0
      · rw [if_pos hs, if_pos (decide_eq_true hs)]
        exact f.yields_invalid fl
      · rw [if_neg hs, if_neg (by simpa using hs), if_pos (decide_eq_true hsp)]
        exact f.yields_self ha hnan fl
  · have hnan := f.not_nan_of_finite hsp
    rw [if_neg hsp, hnan, f.neg_decode hnan, f.isInf_of_not_nan hnan, if_neg Bool.false_ne_true]
    by_cases hz : f.expOf a = 0 ∧ f.mantOf a = 0
    · rw [if_pos (decide_eq_true hz), if_pos hz, if_pos hz]
      by_cases hs : f.signOf a ≠ 0
      · rw [if_pos hs]
        exact f.yields_self ha hnan fl
      · have hd : f.decode a = .num (decide ((0 : ℕ) ≠ 0)) 0 := by
          unfold decode
          simp [hz, hs, f.expMask_pos.ne]
        rw [if_neg hs, hd]
        exact f.yields_zero (by norm_num) fl
    · rw [decide_eq_false hz, if_neg Bool.false_ne_true, if_neg hz, if_neg hz]
      by_cases hs : f.signOf a ≠ 0
      · rw [if_pos hs, if_pos (decide_eq_true hs)]
        exact f.yields_invalid fl
      · obtain ⟨e, m, hl, hu, hn, hd⟩ := f.decode_normalized hsp hz
        obtain ⟨k, p, hk, hp, hp', hv⟩ := f.even_exponent (e := e - f.bias) hu
        have hs0 : f.signOf a = 0 := not_not.1 hs
        have hR := f.rndSize_ge
        have hF := f.fSize_eq
        have hlt : p * 2 ^ (f.rndSize - 2) < 2 ^ f.fSize := by
          calc p * 2 ^ (f.rndSize - 2) < 2 ^ (f.mantSize + 2) * 2 ^ (f.rndSize - 2) :=
                Nat.mul_lt_mul_of_pos_right hp' (Nat.two_pow_pos _)
            _ = 2 ^ (f.mantSize + 2 + (f.rndSize - 2)) := (pow_add ..).symm
            _ ≤ _ := Nat.pow_le_pow_right (by norm_num) (by omega)
        have hshl : f.shl p (f.fSize - 4 - f.mantSize) = p * 2 ^ (f.rndSize - 2) := by
          rw [show f.fSize - 4 - f.mantSize = f.rndSize - 2 by omega]
          exact f.shl_eq hlt
        have hneg : ¬ decide (f.signOf a ≠ 0) = true := by simpa using hs
        rw [if_neg hs, if_neg hneg, decide_eq_false hsp, if_neg Bool.false_ne_true, hn, hd, hs0]
        dsimp only
        rw [f.halfMask, hk]
        dsimp only
        rw [hshl, f.sqrtremU_eq hlt, Int.mul_ediv_cancel_left k (by norm_num)]
        exact f.sqrt_round hrm fl hl hp hp' hv

end Sf
end Lish.SoftFp
