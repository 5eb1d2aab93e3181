import Mathlib.Tactic.LinearCombination
import Lish.Core.SoftFpOperand
/-!
# SoftFpMul — multiplication and division are correctly rounded

The double-word product, and the quotient with its remainder, are kept as one sticky word whose leading bit is known to
within two places; `normalize` rounds it.
-/
namespace Lish.SoftFp.Sf

open Lish.Ieee

variable (f : Sf)

theorem isInf_of_not_nan {a : ℕ} (h : f.isNan a = false) : (f.decode a).isInf = decide (f.expOf a = f.expMask) := by
  have hn : ¬ (f.expOf a = f.expMask ∧ f.mantOf a ≠ 0) := by rw [← isNan_iff, h]; simp
  rw [isInf_decode, decide_eq_decide]
  exact ⟨And.left, fun he => ⟨he, by_contra fun h0 => hn ⟨he, h0⟩⟩⟩

theorem not_nan_of_finite {a : ℕ} (h : f.expOf a ≠ f.expMask) : f.isNan a = false := by
  rw [← Bool.not_eq_true, isNan_iff]; exact fun hn => h hn.1

/-- The high word of a product, the low word jammed into it. -/
theorem mulU_jam {a b : ℕ} (h : a * b < 2 ^ (2 * f.fSize)) :
    (f.mulU a b).1 ||| (if (f.mulU a b).2 ≠ 0 then 1 else 0) = shiftJam (a * b) f.fSize := by
  have hq : a * b / 2 ^ f.fSize < 2 ^ f.fSize := by
    rw [Nat.div_lt_iff_lt_mul (Nat.two_pow_pos _), ← pow_add, ← two_mul]; exact h
  unfold mulU shiftJam
  dsimp only
  rw [Nat.shiftRight_eq_div_pow, Nat.mod_eq_of_lt hq, ite_not]

/-! ## Special operands -/

theorem mul_nan_spec {a b : ℕ} (m : Rounding) (h : f.isNan a = true ∨ f.isNan b = true) :
    f.format.mul m (f.decode a) (f.decode b) = propagate (decide (f.isSignan a = true ∨ f.isSignan b = true)) := by
  unfold Format.mul
  rw [isNan_decode, isNan_decode, isSignaling_decode, isSignaling_decode, if_pos (by simpa using h)]
  simp

theorem mul_inf_spec {a b : ℕ} (m : Rounding) (ha : f.isNan a = false) (hb : f.isNan b = false)
    (h : f.expOf a = f.expMask ∨ f.expOf b = f.expMask) :
    f.format.mul m (f.decode a) (f.decode b) =
      if (f.expOf a = f.expMask ∧ (f.expOf b = 0 ∧ f.mantOf b = 0)) ∨ (f.expOf b = f.expMask ∧ (f.expOf a = 0 ∧ f.mantOf a = 0))
      then invalid else (.inf (decide (f.signOf a ≠ 0) != decide (f.signOf b ≠ 0)), {}) := by
  have hp := f.expMask_pos
  unfold Format.mul
  rw [isNan_decode, isNan_decode, ha, hb, f.isInf_of_not_nan ha, f.isInf_of_not_nan hb, isZero_decode, isZero_decode,
    f.neg_decode ha, f.neg_decode hb]
  dsimp only
  rw [if_neg (by simp), if_pos (by simpa using h)]
  congr 1
  simp only [Bool.or_eq_true, decide_eq_true_eq, eq_iff_iff]
  omega

theorem mul_zero_spec {a b : ℕ} (m : Rounding) (ha : f.expOf a ≠ f.expMask) (hb : f.expOf b ≠ f.expMask)
    (h : (f.expOf a = 0 ∧ f.mantOf a = 0) ∨ (f.expOf b = 0 ∧ f.mantOf b = 0)) :
    f.format.mul m (f.decode a) (f.decode b) = (.num (decide (f.signOf a ≠ 0) != decide (f.signOf b ≠ 0)) 0, {}) := by
  have hna := f.not_nan_of_finite ha; have hnb := f.not_nan_of_finite hb
  unfold Format.mul
  rw [isNan_decode, isNan_decode, hna, hnb, f.isInf_of_not_nan hna, f.isInf_of_not_nan hnb, isZero_decode, isZero_decode,
    f.neg_decode hna, f.neg_decode hnb]
  dsimp only
  rw [if_neg (by simp), if_neg (by simp [ha, hb]), if_pos (by simpa using h)]

/-! ## The product -/

theorem mul_magnitude (e1 e2 : ℤ) (m1 m2 : ℕ) :
    f.magnitude (e1 + e2 - 2 ^ (f.expSize - 1) + 2) ((m1 * 2 ^ f.rndSize * (m2 * 2 ^ (f.rndSize + 1)) : ℕ) / 2 ^ f.fSize) =
      m1 * 2 ^ (e1 - f.bias - f.mantSize) * (m2 * 2 ^ (e2 - f.bias - f.mantSize)) := by
  have hb : (2 : ℤ) ^ (f.expSize - 1) = f.bias + 1 := by unfold bias; ring
  have hF := f.fSize_eq
  unfold magnitude
  rw [hb, ← zpow_natCast (2 : ℚ) f.fSize]
  push_cast
  have key : (2 : ℚ) ^ f.rndSize * 2 ^ (f.rndSize + 1) * 2 ^ (e1 + e2 - (f.bias + 1) + 2 - f.bias - f.mantSize - f.rndSize) =
      2 ^ (e1 - f.bias - f.mantSize) * 2 ^ (e2 - f.bias - f.mantSize) * 2 ^ (f.fSize : ℤ) := by
    rw [← zpow_natCast, ← zpow_natCast, ← zpow_add₀ (by norm_num), ← zpow_add₀ (by norm_num), ← zpow_add₀ (by norm_num),
      ← zpow_add₀ (by norm_num)]
    congr 1; push_cast; omega
  rw [div_mul_eq_mul_div, div_eq_iff (by positivity)]
  linear_combination (m1 * m2 : ℚ) * key

/-- **Multiplication is correctly rounded**, with exact flags. -/
theorem mul_yields {a b rm : ℕ} (ha : a < 2 ^ f.fSize) (hb : b < 2 ^ f.fSize) (hrm : rm ≤ 4) (fl : FFlags) :
    f.Yields (f.mul a b rm fl) fl (f.format.mul (roundingOf rm) (f.decode a) (f.decode b)) := by
  obtain ⟨hrs, hneg⟩ := sign_xor (f.signOf_le ha) (f.signOf_le hb)
  unfold mul
  dsimp only
  by_cases hsp : f.expOf a = f.expMask ∨ f.expOf b = f.expMask
  · rw [if_pos hsp]
    by_cases hn : f.isNan a = true ∨ f.isNan b = true
    · rw [if_pos hn, f.mul_nan_spec _ hn]
      exact f.yields_nan fl _
    · obtain ⟨hna, hnb⟩ := not_or.1 hn
      rw [if_neg hn, f.mul_inf_spec _ (by simpa using hna) (by simpa using hnb) hsp, ← hneg]
      split_ifs
      · exact f.yields_invalid fl
      · exact f.yields_inf hrs fl
  · obtain ⟨hsa, hsb⟩ := not_or.1 hsp
    rw [if_neg hsp]
    by_cases hza : f.expOf a = 0 ∧ f.mantOf a = 0
    · rw [if_pos hza, f.mul_zero_spec _ hsa hsb (Or.inl hza), ← hneg]
      exact f.yields_zero hrs fl
    rw [if_neg hza]
    obtain ⟨e1, m1, hl1, hu1, hn1, hd1⟩ := f.decode_normalized hsa hza
    rw [hn1]
    dsimp only
    by_cases hzb : f.expOf b = 0 ∧ f.mantOf b = 0
    · rw [if_pos hzb, f.mul_zero_spec _ hsa hsb (Or.inr hzb), ← hneg]
      exact f.yields_zero hrs fl
    rw [if_neg hzb]
    obtain ⟨e2, m2, hl2, hu2, hn2, hd2⟩ := f.decode_normalized hsb hzb
    rw [hn2]
    dsimp only
    have hspec : f.format.mul (roundingOf rm) (f.decode a) (f.decode b) = f.format.round (roundingOf rm)
        (decide (f.signOf a ^^^ f.signOf b ≠ 0)) (m1 * 2 ^ (e1 - f.bias - f.mantSize) * (m2 * 2 ^ (e2 - f.bias - f.mantSize))) := by
      have hna := f.not_nan_of_finite hsa; have hnb := f.not_nan_of_finite hsb
      have hab := abs_mul (f.decode a).toRat (f.decode b).toRat
      unfold Format.mul
      rw [isNan_decode, isNan_decode, hna, hnb, f.isInf_of_not_nan hna, f.isInf_of_not_nan hnb, isZero_decode, isZero_decode,
        f.neg_decode hna, f.neg_decode hnb, ← hneg]
      dsimp only
      rw [if_neg (by simp), if_neg (by simp [hsa, hsb]), if_neg (by simp [hza, hzb]), hab, hd1, hd2,
        Datum.abs_toRat_num _ (by positivity), Datum.abs_toRat_num _ (by positivity)]
    have hM1 : 2 ^ (f.mantSize + 1) = 2 * 2 ^ f.mantSize := pow_succ' ..
    have hF := f.fSize_eq; have hR := f.rndSize_ge
    have hA : f.shl m1 f.rndSize = m1 * 2 ^ f.rndSize := f.shl_eq (by
      calc m1 * 2 ^ f.rndSize < 2 ^ (f.mantSize + 1) * 2 ^ f.rndSize := Nat.mul_lt_mul_of_pos_right hu1 (Nat.two_pow_pos _)
        _ = 2 ^ (f.mantSize + 1 + f.rndSize) := (pow_add ..).symm
        _ ≤ _ := Nat.pow_le_pow_right (by norm_num) (by omega))
    have hB : f.shl m2 (f.rndSize + 1) = m2 * 2 ^ (f.rndSize + 1) := f.shl_eq (by
      calc m2 * 2 ^ (f.rndSize + 1) < 2 ^ (f.mantSize + 1) * 2 ^ (f.rndSize + 1) := Nat.mul_lt_mul_of_pos_right hu2 (Nat.two_pow_pos _)
        _ = 2 ^ (f.mantSize + 1 + (f.rndSize + 1)) := (pow_add ..).symm
        _ ≤ _ := Nat.pow_le_pow_right (by norm_num) (by omega))
    have hlow : 2 ^ (f.fSize - 3) * 2 ^ f.fSize ≤ m1 * 2 ^ f.rndSize * (m2 * 2 ^ (f.rndSize + 1)) := by
      calc 2 ^ (f.fSize - 3) * 2 ^ f.fSize = 2 ^ f.mantSize * 2 ^ f.rndSize * (2 ^ f.mantSize * 2 ^ (f.rndSize + 1)) := by
            simp only [← pow_add]; congr 1; omega
        _ ≤ _ := Nat.mul_le_mul (Nat.mul_le_mul_right _ hl1) (Nat.mul_le_mul_right _ hl2)
    have hhigh : m1 * 2 ^ f.rndSize * (m2 * 2 ^ (f.rndSize + 1)) < 2 ^ (f.fSize - 1) * 2 ^ f.fSize := by
      calc m1 * 2 ^ f.rndSize * (m2 * 2 ^ (f.rndSize + 1))
          < 2 ^ (f.mantSize + 1) * 2 ^ f.rndSize * (2 ^ (f.mantSize + 1) * 2 ^ (f.rndSize + 1)) :=
            Nat.mul_lt_mul_of_lt_of_lt (Nat.mul_lt_mul_of_pos_right hu1 (Nat.two_pow_pos _))
              (Nat.mul_lt_mul_of_pos_right hu2 (Nat.two_pow_pos _))
        _ = _ := by simp only [← pow_add]; congr 1; omega
    rw [hA, hB, f.mulU_jam (lt_trans hhigh (by
      rw [two_mul, pow_add]
      exact Nat.mul_lt_mul_of_pos_right (Nat.pow_lt_pow_right (by norm_num) (by omega)) (Nat.two_pow_pos _)))]
    rw [hspec, ← f.mul_magnitude]
    set P := m1 * 2 ^ f.rndSize * (m2 * 2 ^ (f.rndSize + 1)) with hP
    have hst := sticky_shiftJam P f.fSize
    have hj1 : 2 ^ (f.fSize - 3) ≤ shiftJam P f.fSize := by
      rw [hst.even_le_iff (by rw [show f.fSize - 3 = f.fSize - 4 + 1 by omega, pow_succ]; omega), le_div_iff₀ (by positivity)]
      exact_mod_cast hlow
    have hj2 : shiftJam P f.fSize < 2 ^ (f.fSize - 1) := by
      rw [hst.lt_even_iff (by rw [show f.fSize - 1 = f.fSize - 2 + 1 by omega, pow_succ]; omega), div_lt_iff₀ (by positivity)]
      exact_mod_cast hhigh
    refine f.normalize_yields hrs hrm ?_ hj2 ?_ _ fl
    · have := Nat.two_pow_pos (f.fSize - 3); omega
    · exact Or.inr ⟨0, f.fSize - 3, hst.at 0, hj1, by omega⟩

/-! ## Division -/

theorem div_nan_spec {a b : ℕ} (m : Rounding) (h : f.isNan a = true ∨ f.isNan b = true) :
    f.format.div m (f.decode a) (f.decode b) = propagate (decide (f.isSignan a = true ∨ f.isSignan b = true)) := by
  unfold Format.div
  rw [isNan_decode, isNan_decode, isSignaling_decode, isSignaling_decode, if_pos (by simpa using h)]
  simp

theorem div_not_nan_spec {a b : ℕ} (m : Rounding) (ha : f.isNan a = false) (hb : f.isNan b = false) :
    f.format.div m (f.decode a) (f.decode b) =
      let neg := decide (f.signOf a ≠ 0) != decide (f.signOf b ≠ 0)
      if f.expOf a = f.expMask then
        if f.expOf b = f.expMask then invalid else (.inf neg, {})
      else if f.expOf b = f.expMask then (.num neg 0, {})
      else if f.expOf b = 0 ∧ f.mantOf b = 0 then
        if f.expOf a = 0 ∧ f.mantOf a = 0 then invalid else (.inf neg, { dz := true })
      else if f.expOf a = 0 ∧ f.mantOf a = 0 then (.num neg 0, {})
      else f.format.round m neg |(f.decode a).toRat / (f.decode b).toRat| := by
  unfold Format.div
  rw [isNan_decode, isNan_decode, ha, hb, f.isInf_of_not_nan ha, f.isInf_of_not_nan hb, isZero_decode, isZero_decode,
    f.neg_decode ha, f.neg_decode hb]
  simp only [Bool.or_self, Bool.false_eq_true, if_false, decide_eq_true_eq]

theorem divremU_jam {m b : ℕ} (hb : 0 < b) (h : m * 2 ^ f.fSize / b < 2 ^ f.fSize) (hbF : b ≤ 2 ^ f.fSize) :
    (if (f.divremU m 0 b).2 ≠ 0 then (f.divremU m 0 b).1 ||| 1 else (f.divremU m 0 b).1) =
      m * 2 ^ f.fSize / b ||| (if m * 2 ^ f.fSize % b = 0 then 0 else 1) := by
  have hr : m * 2 ^ f.fSize % b < 2 ^ f.fSize := lt_of_lt_of_le (Nat.mod_lt _ hb) hbF
  have hd : f.divremU m 0 b = (m * 2 ^ f.fSize / b, m * 2 ^ f.fSize % b) := by
    unfold divremU
    simp only [Nat.or_zero, Nat.shiftLeft_eq, Nat.mod_eq_of_lt h, Nat.mod_eq_of_lt hr]
  rw [hd]
  by_cases h0 : m * 2 ^ f.fSize % b = 0
  · rw [if_neg (not_not.2 h0), if_pos h0, Nat.or_zero]
  · rw [if_pos h0, if_neg h0]

theorem div_magnitude (e1 e2 : ℤ) (m1 : ℕ) {m2 : ℕ} (h2 : 0 < m2) :
    f.magnitude (e1 - e2 + 2 ^ (f.expSize - 1) - 1) ((m1 * 2 ^ f.fSize : ℕ) / (m2 * 2 ^ 2 : ℕ)) =
      m1 * 2 ^ (e1 - f.bias - f.mantSize) / (m2 * 2 ^ (e2 - f.bias - f.mantSize)) := by
  have hb : (2 : ℤ) ^ (f.expSize - 1) = f.bias + 1 := by unfold bias; ring
  have hF := f.fSize_eq
  have hm2 : (0 : ℚ) < m2 := by exact_mod_cast h2
  unfold magnitude
  rw [hb]
  push_cast
  have key : (2 : ℚ) ^ f.fSize * 2 ^ (e1 - e2 + (f.bias + 1) - 1 - f.bias - f.mantSize - f.rndSize) *
      2 ^ (e2 - f.bias - f.mantSize) = 2 ^ (e1 - f.bias - f.mantSize) * 2 ^ 2 := by
    rw [← zpow_natCast, ← zpow_natCast (2 : ℚ) 2, ← zpow_add₀ (by norm_num), ← zpow_add₀ (by norm_num),
      ← zpow_add₀ (by norm_num)]
    congr 1; push_cast; omega
  rw [div_mul_eq_mul_div, div_eq_div_iff (by positivity) (by positivity)]
  linear_combination (m1 * m2 : ℚ) * key

/-- **Division is correctly rounded**, with exact flags. -/
theorem div_yields {a b rm : ℕ} (ha : a < 2 ^ f.fSize) (hb : b < 2 ^ f.fSize) (hrm : rm ≤ 4) (fl : FFlags) :
    f.Yields (f.div a b rm fl) fl (f.format.div (roundingOf rm) (f.decode a) (f.decode b)) := by
  obtain ⟨hrs, hneg⟩ := sign_xor (f.signOf_le ha) (f.signOf_le hb)
  by_cases hn : f.isNan a = true ∨ f.isNan b = true
  · -- a NaN operand
    have hnan : f.div a b rm fl = (f.qnan, invalidOpIf (f.isSignan a ∨ f.isSignan b) fl) := by
      have ha' := f.isNan_iff a; have hb' := f.isNan_iff b
      unfold div
      dsimp only
      by_cases hsa : f.expOf a = f.expMask
      · rw [if_pos hsa, if_pos (by tauto)]
      · rw [if_neg hsa, if_pos (by tauto), if_pos (by tauto)]
    rw [hnan, f.div_nan_spec _ hn]
    exact f.yields_nan fl _
  obtain ⟨hna, hnb⟩ := not_or.1 hn
  rw [Bool.not_eq_true] at hna hnb
  have hma : f.expOf a = f.expMask → f.mantOf a = 0 := by
    intro h; by_contra h0; exact hn (Or.inl ((f.isNan_iff a).2 ⟨h, h0⟩))
  have hmb : f.expOf b = f.expMask → f.mantOf b = 0 := by
    intro h; by_contra h0; exact hn (Or.inr ((f.isNan_iff b).2 ⟨h, h0⟩))
  rw [f.div_not_nan_spec _ hna hnb]
  unfold div
  dsimp only
  rw [← hneg, hnb]
  by_cases hsa : f.expOf a = f.expMask
  · rw [if_pos hsa, if_pos hsa, if_neg (by simp [hma hsa])]
    split_ifs
    · exact f.yields_invalid fl
    · exact f.yields_inf hrs fl
  rw [if_neg hsa, if_neg hsa]
  by_cases hsb : f.expOf b = f.expMask
  · rw [if_pos hsb, if_pos hsb, if_neg (not_not.2 (hmb hsb))]
    exact f.yields_zero hrs fl
  rw [if_neg hsb, if_neg hsb]
  by_cases hzb : f.expOf b = 0 ∧ f.mantOf b = 0
  · rw [if_pos hzb, if_pos hzb]
    split_ifs
    · exact f.yields_invalid fl
    · refine ⟨f.pack_lt hrs le_rfl, f.decode_pack_inf hrs, by simp [Datum.isNan], by simp [flagBits]⟩
  rw [if_neg hzb, if_neg hzb]
  obtain ⟨e2, m2, hl2, hu2, hn2, hd2⟩ := f.decode_normalized hsb hzb
  rw [hn2]
  dsimp only
  by_cases hza : f.expOf a = 0 ∧ f.mantOf a = 0
  · rw [if_pos hza, if_pos hza]
    exact f.yields_zero hrs fl
  rw [if_neg hza, if_neg hza]
  obtain ⟨e1, m1, hl1, hu1, hn1, hd1⟩ := f.decode_normalized hsa hza
  have hM := Nat.two_pow_pos f.mantSize
  have hM1 : 2 ^ (f.mantSize + 1) = 2 * 2 ^ f.mantSize := pow_succ' ..
  have hF := f.fSize_eq; have hR := f.rndSize_ge
  have hB : f.shl m2 2 = m2 * 2 ^ 2 := f.shl_eq (by
    calc m2 * 2 ^ 2 < 2 ^ (f.mantSize + 1) * 2 ^ 2 := Nat.mul_lt_mul_of_pos_right hu2 (by norm_num)
      _ = 2 ^ (f.mantSize + 1 + 2) := (pow_add ..).symm
      _ ≤ _ := Nat.pow_le_pow_right (by norm_num) (by omega))
  have hm2 : (0 : ℚ) < (m2 * 2 ^ 2 : ℕ) := by exact_mod_cast (by omega : 0 < m2 * 2 ^ 2)
  have hst := sticky_div (m1 * 2 ^ f.fSize) (by omega : 0 < m2 * 2 ^ 2)
  have hlow : (2 ^ (f.fSize - 3) : ℕ) ≤ ((m1 * 2 ^ f.fSize : ℕ) : ℚ) / (m2 * 2 ^ 2 : ℕ) := by
    have h3 : 2 ^ f.fSize = 8 * 2 ^ (f.fSize - 3) := by
      rw [show (8 : ℕ) = 2 ^ 3 by norm_num, ← pow_add]; congr 1; omega
    have h := Nat.mul_le_mul_left (2 ^ (f.fSize - 3)) (by omega : m2 * 2 ^ 2 ≤ 8 * m1)
    rw [le_div_iff₀ hm2]
    exact_mod_cast (by rw [h3]; linarith : 2 ^ (f.fSize - 3) * (m2 * 2 ^ 2) ≤ m1 * 2 ^ f.fSize)
  have hhigh : ((m1 * 2 ^ f.fSize : ℕ) : ℚ) / (m2 * 2 ^ 2 : ℕ) < (2 ^ (f.fSize - 1) : ℕ) := by
    have h1 : 2 ^ f.fSize = 2 * 2 ^ (f.fSize - 1) := by rw [← pow_succ']; congr 1; omega
    have h := Nat.mul_lt_mul_of_pos_left (by omega : 2 * m1 < m2 * 2 ^ 2) (Nat.two_pow_pos (f.fSize - 1))
    rw [div_lt_iff₀ hm2]
    exact_mod_cast (by rw [h1]; linarith : m1 * 2 ^ f.fSize < 2 ^ (f.fSize - 1) * (m2 * 2 ^ 2))
  have hj1 := (hst.even_le_iff (by rw [show f.fSize - 3 = f.fSize - 4 + 1 by omega, pow_succ]; omega)).2 hlow
  have hj2 := (hst.lt_even_iff (by rw [show f.fSize - 1 = f.fSize - 2 + 1 by omega, pow_succ]; omega)).2 hhigh
  have hspec : |(f.decode a).toRat / (f.decode b).toRat| =
      m1 * 2 ^ (e1 - f.bias - f.mantSize) / (m2 * 2 ^ (e2 - f.bias - f.mantSize)) := by
    rw [abs_div, hd1, hd2, Datum.abs_toRat_num _ (by positivity), Datum.abs_toRat_num _ (by positivity)]
  rw [hn1]
  dsimp only
  have hquot : m1 * 2 ^ f.fSize / (m2 * 2 ^ 2) < 2 ^ f.fSize :=
    lt_of_le_of_lt Nat.left_le_or (lt_trans hj2 (Nat.pow_lt_pow_right (by norm_num) (by omega)))
  have hdivisor : m2 * 2 ^ 2 ≤ 2 ^ f.fSize := by
    calc m2 * 2 ^ 2 ≤ 2 ^ (f.mantSize + 1) * 2 ^ 2 := Nat.mul_le_mul_right _ hu2.le
      _ = 2 ^ (f.mantSize + 1 + 2) := (pow_add ..).symm
      _ ≤ _ := Nat.pow_le_pow_right (by norm_num) (by omega)
  rw [hB, f.divremU_jam (by omega) hquot hdivisor, hspec, ← f.div_magnitude e1 e2 m1 (by omega)]
  refine f.normalize_yields hrs hrm ?_ hj2 ?_ _ fl
  · have := Nat.two_pow_pos (f.fSize - 3); omega
  · exact Or.inr ⟨0, f.fSize - 3, hst.at 0, hj1, by omega⟩

end Lish.SoftFp.Sf
