import Lish.Ieee.Border
import Lish.Core.SoftFpOperand
/-!
# SoftFpUnique — one encoding a number

The magnitude of a finite encoding counted in least quanta is increasing in its exponent and mantissa fields, so that a
number has one encoding; a magnitude is normal exactly when the exponent field is not zero.
-/
namespace Lish.SoftFp.Sf

open Lish.Ieee

variable (f : Sf)

/-- The magnitude of a finite encoding in least quanta. -/
def scaled (a : ℕ) : ℕ :=
  if f.expOf a = 0 then f.mantOf a else (2 ^ f.mantSize + f.mantOf a) * 2 ^ (f.expOf a - 1)

theorem quantum_emin : f.format.quantum f.format.emin = 2 ^ (1 - f.bias - f.mantSize) := f.format_quantum _

theorem decode_scaled {a : ℕ} (h : f.expOf a ≠ f.expMask) :
    f.decode a = .num (decide (f.signOf a ≠ 0)) (f.scaled a * f.format.quantum f.format.emin) := by
  rw [quantum_emin]
  unfold decode scaled
  by_cases h0 : f.expOf a = 0
  · simp only [h0, if_true, f.expMask_pos.ne, if_false]
  · simp only [h, h0, if_false]
    rw [show (f.expOf a : ℤ) - f.bias - f.mantSize = ((f.expOf a - 1 : ℕ) : ℤ) + (1 - f.bias - f.mantSize) by omega,
      zpow_add₀ (by norm_num), zpow_natCast]
    push_cast
    congr 1; ring

theorem scaled_lt {a e : ℕ} (h : f.expOf a ≤ e) (he : 1 ≤ e) : f.scaled a < 2 ^ f.mantSize * 2 ^ e := by
  have hm := f.mantOf_lt a
  have hM := Nat.two_pow_pos f.mantSize
  unfold scaled
  by_cases h0 : f.expOf a = 0
  · rw [if_pos h0]
    exact lt_of_lt_of_le hm (Nat.le_mul_of_pos_right _ (Nat.two_pow_pos e))
  · rw [if_neg h0]
    have hp : 2 ^ (f.expOf a - 1) ≤ 2 ^ (e - 1) := Nat.pow_le_pow_right (by norm_num) (by omega)
    have he' : 2 ^ e = 2 * 2 ^ (e - 1) := by rw [← pow_succ']; congr 1; omega
    calc (2 ^ f.mantSize + f.mantOf a) * 2 ^ (f.expOf a - 1)
        ≤ (2 ^ f.mantSize + f.mantOf a) * 2 ^ (e - 1) := Nat.mul_le_mul_left _ hp
      _ < (2 * 2 ^ f.mantSize) * 2 ^ (e - 1) := Nat.mul_lt_mul_of_pos_right (by omega) (Nat.two_pow_pos _)
      _ = 2 ^ f.mantSize * 2 ^ e := by rw [he']; ring

theorem le_scaled {a : ℕ} (h : f.expOf a ≠ 0) : 2 ^ f.mantSize * 2 ^ (f.expOf a - 1) ≤ f.scaled a := by
  unfold scaled
  rw [if_neg h]
  exact Nat.mul_le_mul_right _ (by omega)

/-- A larger exponent means a larger magnitude. -/
theorem scaled_lt_of_exp_lt {a b : ℕ} (h : f.expOf a < f.expOf b) : f.scaled a < f.scaled b := by
  refine lt_of_lt_of_le ?_ (f.le_scaled (by omega))
  by_cases h0 : f.expOf a = 0
  · have hs : f.scaled a = f.mantOf a := by unfold scaled; rw [if_pos h0]
    rw [hs]
    exact lt_of_lt_of_le (f.mantOf_lt a) (Nat.le_mul_of_pos_right _ (Nat.two_pow_pos _))
  · exact f.scaled_lt (by omega) (by omega)

theorem scaled_inj {a b : ℕ} (h : f.scaled a = f.scaled b) : f.expOf a = f.expOf b ∧ f.mantOf a = f.mantOf b := by
  have he : f.expOf a = f.expOf b := by
    rcases Nat.lt_trichotomy (f.expOf a) (f.expOf b) with hlt | heq | hlt
    · exact absurd h (f.scaled_lt_of_exp_lt hlt).ne
    · exact heq
    · exact absurd h (f.scaled_lt_of_exp_lt hlt).ne'
  refine ⟨he, ?_⟩
  unfold scaled at h
  rw [he] at h
  split_ifs at h with h0
  · exact h
  · have := Nat.eq_of_mul_eq_mul_right (Nat.two_pow_pos _) h
    omega

/-- Two encodings of one number are equal. -/
theorem decode_inj {a b : ℕ} (ha : a < 2 ^ f.fSize) (hb : b < 2 ^ f.fSize) (hfa : f.expOf a ≠ f.expMask)
    (h : f.decode a = f.decode b) : a = b := by
  have hq := f.format.quantum_pos f.format.emin
  have hfb : f.expOf b ≠ f.expMask := by
    intro hb'
    rw [f.decode_scaled hfa, f.decode_special hb'] at h
    split_ifs at h
  rw [f.decode_scaled hfa, f.decode_scaled hfb, Datum.num.injEq, decide_eq_decide] at h
  obtain ⟨hs, hm⟩ := h
  have hsc : f.scaled a = f.scaled b := by
    have := mul_right_cancel₀ hq.ne' hm
    exact_mod_cast this
  obtain ⟨he, hmant⟩ := f.scaled_inj hsc
  have hsa := f.signOf_le ha
  have hsb := f.signOf_le hb
  have hsign : f.signOf a = f.signOf b := by omega
  rw [f.fields_eq a, f.fields_eq b, hsign, he, hmant]

/-- From the least normal number on, the exponent field is not zero. -/
theorem normal_of_le {a : ℕ} {q : ℚ} {s : Bool} (h : f.decode a = .num s q) (hq : (2 : ℚ) ^ f.format.emin ≤ q) :
    1 ≤ f.expOf a ∧ f.expOf a ≤ f.expMask - 1 := by
  have hfa : f.expOf a ≠ f.expMask := by
    intro ha
    rw [f.decode_special ha] at h
    split_ifs at h
  have hlt := f.expOf_lt a
  have hmask : f.expMask = 2 ^ f.expSize - 1 := rfl
  refine ⟨?_, by omega⟩
  by_contra h0
  have hz : f.expOf a = 0 := by omega
  rw [f.decode_scaled hfa, Datum.num.injEq] at h
  have hpos := f.format.quantum_pos f.format.emin
  have hsc : f.scaled a < 2 ^ f.mantSize := by unfold scaled; rw [if_pos hz]; exact f.mantOf_lt a
  have hp : f.format.prec = f.mantSize + 1 := rfl
  rw [f.format.two_zpow_eq (by omega), hp, Nat.add_sub_cancel, ← h.2] at hq
  have := le_of_mul_le_mul_right hq hpos
  have h2 : 2 ^ f.mantSize ≤ f.scaled a := by exact_mod_cast this
  omega

theorem le_of_normal {a : ℕ} {q : ℚ} {s : Bool} (h : f.decode a = .num s q) (h1 : 1 ≤ f.expOf a) :
    (2 : ℚ) ^ f.format.emin ≤ q := by
  have hfa : f.expOf a ≠ f.expMask := by
    intro ha
    rw [f.decode_special ha] at h
    split_ifs at h
  have hpos := f.format.quantum_pos f.format.emin
  have hp : f.format.prec = f.mantSize + 1 := rfl
  rw [f.decode_scaled hfa, Datum.num.injEq] at h
  rw [f.format.two_zpow_eq (by omega), hp, Nat.add_sub_cancel, ← h.2]
  have hle : 2 ^ f.mantSize ≤ f.scaled a :=
    (Nat.le_mul_of_pos_right _ (Nat.two_pow_pos _)).trans (f.le_scaled (by omega))
  exact mul_le_mul_of_nonneg_right (by exact_mod_cast hle) hpos.le

theorem shl_one_eq_zero {a : ℕ} (ha : a < 2 ^ f.fSize) : f.shl a 1 = 0 ↔ f.expOf a = 0 ∧ f.mantOf a = 0 := by
  have hF : 2 ^ f.fSize = 2 * 2 ^ (f.fSize - 1) := by
    rw [← pow_succ']; congr 1; have := f.layout; omega
  have hs := f.signOf_le ha
  have hlow := f.assembled_low_lt (f.expOf_lt a) (f.mantOf_lt a)
  have hM := Nat.two_pow_pos f.mantSize
  have heq : f.shl a 1 = 2 * (f.expOf a * 2 ^ f.mantSize + f.mantOf a) := by
    have ha' := f.fields_eq a
    unfold shl
    rw [Nat.shiftLeft_eq, hF]
    interval_cases hsv : f.signOf a
    · rw [Nat.mod_eq_of_lt] <;> omega
    · rw [show a * 2 ^ 1 = 2 * (f.expOf a * 2 ^ f.mantSize + f.mantOf a) + 2 * 2 ^ (f.fSize - 1) by omega,
        Nat.add_mod_right, Nat.mod_eq_of_lt (by omega)]
  rw [heq]
  constructor
  · intro h
    have h2 : f.expOf a * 2 ^ f.mantSize = 0 := by omega
    rcases Nat.mul_eq_zero.1 h2 with h3 | h3 <;> omega
  · rintro ⟨h1, h2⟩
    rw [h1, h2, Nat.zero_mul]

end Lish.SoftFp.Sf
