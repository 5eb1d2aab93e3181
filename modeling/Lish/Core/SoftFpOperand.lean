import Lish.Core.SoftFpRound
/-!
# SoftFpOperand — what the arithmetic reads from an encoding

The classes of an encoding (NaN, signaling NaN, infinity, zero, finite) as the code tests them, and the mantissa and
exponent it unpacks from a finite one.
-/
namespace Lish.SoftFp.Sf

open Lish.Ieee

variable (f : Sf)

/-! ## Classes -/

theorem isNan_iff (a : ℕ) : f.isNan a = true ↔ f.expOf a = f.expMask ∧ f.mantOf a ≠ 0 := by
  unfold isNan; rw [decide_eq_true_iff]

theorem two_pow_mantSize : 2 ^ f.mantSize = 2 * 2 ^ (f.mantSize - 1) := by
  rw [← pow_succ']; congr 1; have := f.mant_ge; omega

theorem expMask_pos : 0 < f.expMask := by have := f.rndPow_ge; rw [expMask_eq]; omega

/-- The signaling test reads the exponent and the quiet bit as one field. -/
theorem isSignan_iff (a : ℕ) :
    f.isSignan a = true ↔ f.expOf a = f.expMask ∧ f.mantOf a ≠ 0 ∧ f.mantOf a < f.qnanMask := by
  have hM := f.two_pow_mantSize
  have hE := Nat.two_pow_pos f.expSize
  have hH := Nat.two_pow_pos (f.mantSize - 1)
  unfold isSignan
  rw [decide_eq_true_iff, Nat.and_two_pow_sub_one_eq_mod, Nat.shiftRight_eq_div_pow, expOf_eq, mantOf_eq]
  have hdiv : a / 2 ^ f.mantSize = a / 2 ^ (f.mantSize - 1) / 2 := by
    rw [hM, Nat.mul_comm, Nat.div_div_eq_div_mul]
  have hmod : a % 2 ^ f.mantSize = a % 2 ^ (f.mantSize - 1) + 2 ^ (f.mantSize - 1) * (a / 2 ^ (f.mantSize - 1) % 2) := by
    conv_lhs => rw [hM, Nat.mul_comm]
    exact Nat.mod_mul
  have hl := Nat.mod_lt a hH
  have hpow : 2 ^ (f.expSize + 1) = 2 * 2 ^ f.expSize := pow_succ' ..
  rw [hdiv, hmod, hpow]
  unfold expMask qnanMask
  generalize a / 2 ^ (f.mantSize - 1) = q at *
  have hq : q % (2 * 2 ^ f.expSize) = q % 2 + 2 * (q / 2 % 2 ^ f.expSize) := Nat.mod_mul
  have hql := Nat.mod_lt (q / 2) hE
  rw [hq]
  rcases Nat.mod_two_eq_zero_or_one q with h | h <;> rw [h]
  · constructor
    · rintro ⟨h1, h2⟩; exact ⟨by omega, h2, by omega⟩
    · rintro ⟨h1, h2, -⟩; exact ⟨by omega, h2⟩
  · constructor
    · rintro ⟨h1, h2⟩; omega
    · rintro ⟨h1, h2, h3⟩; omega

theorem decode_special {a : ℕ} (h : f.expOf a = f.expMask) :
    f.decode a = if f.mantOf a = 0 then .inf (decide (f.signOf a ≠ 0)) else .nan (decide (f.mantOf a < f.qnanMask)) := by
  unfold decode; simp only [h, if_true]

theorem isNan_decode (a : ℕ) : (f.decode a).isNan = f.isNan a := by
  rw [Bool.eq_iff_iff, isNan_iff]
  by_cases h : f.expOf a = f.expMask
  · rw [decode_special f h]
    by_cases h0 : f.mantOf a = 0 <;> simp [h0, h, Datum.isNan]
  · unfold decode
    simp only [h, if_false, false_and, iff_false]
    split_ifs <;> simp [Datum.isNan]

theorem isSignaling_decode (a : ℕ) : (f.decode a).isSignaling = f.isSignan a := by
  rw [Bool.eq_iff_iff, isSignan_iff]
  by_cases h : f.expOf a = f.expMask
  · rw [decode_special f h]
    by_cases h0 : f.mantOf a = 0 <;> simp [h0, h, Datum.isSignaling]
  · unfold decode
    simp only [h, if_false, false_and, iff_false]
    split_ifs <;> simp [Datum.isSignaling]

theorem isInf_decode (a : ℕ) : (f.decode a).isInf = decide (f.expOf a = f.expMask ∧ f.mantOf a = 0) := by
  by_cases h : f.expOf a = f.expMask
  · rw [decode_special f h]
    by_cases h0 : f.mantOf a = 0 <;> simp [h0, h, Datum.isInf]
  · unfold decode
    simp only [h, if_false, false_and]
    split_ifs <;> simp [Datum.isInf]

theorem isZero_decode (a : ℕ) : (f.decode a).isZero = decide (f.expOf a = 0 ∧ f.mantOf a = 0) := by
  have hm := f.expMask_pos
  by_cases h : f.expOf a = f.expMask
  · rw [decode_special f h]
    by_cases h0 : f.mantOf a = 0 <;> simp [h0, h, Datum.isZero, hm.ne']
  · unfold decode
    simp only [h, if_false]
    by_cases h0 : f.expOf a = 0
    · have h2 : (2 : ℚ) ^ (1 - f.bias - f.mantSize) ≠ 0 := by positivity
      simp [h0, Datum.isZero, h2]
    · have h2 : (2 : ℚ) ^ (f.expOf a - f.bias - f.mantSize) ≠ 0 := by positivity
      have h3 : (2 : ℚ) ^ f.mantSize + f.mantOf a ≠ 0 := by positivity
      simp [h0, Datum.isZero, h2, h3]

theorem neg_decode {a : ℕ} (h : f.isNan a = false) : (f.decode a).neg = decide (f.signOf a ≠ 0) := by
  have hn : ¬ (f.expOf a = f.expMask ∧ f.mantOf a ≠ 0) := by rw [← isNan_iff, h]; simp
  unfold decode
  by_cases h1 : f.expOf a = f.expMask
  · have h0 : f.mantOf a = 0 := by by_contra h0; exact hn ⟨h1, h0⟩
    simp [h1, h0, Datum.neg]
  · simp only [h1, if_false]
    split_ifs <;> simp [Datum.neg]

/-! ## Finite operands -/

theorem or_leading {m e : ℕ} (hm : m < 2 ^ e) : m ||| 2 ^ e = 2 ^ e + m := by
  have := Nat.two_pow_add_eq_or_of_lt hm 1
  rw [Nat.mul_one] at this
  rw [Nat.or_comm, ← this]

/-- The exponent and mantissa of a finite encoding, subnormals at exponent 1. -/
theorem decode_finite {a : ℕ} (h : f.expOf a ≠ f.expMask) :
    ∃ e m : ℕ, 1 ≤ e ∧ m < 2 ^ (f.mantSize + 1) ∧ (1 < e → 2 ^ f.mantSize ≤ m) ∧
      (if f.expOf a = 0 then (1, f.mantOf a) else (f.expOf a, f.mantOf a ||| 2 ^ f.mantSize)) = (e, m) ∧
      f.decode a = .num (decide (f.signOf a ≠ 0)) (m * 2 ^ ((e : ℤ) - f.bias - f.mantSize)) := by
  have hM1 : 2 ^ (f.mantSize + 1) = 2 * 2 ^ f.mantSize := pow_succ' ..
  have hm := f.mantOf_lt a
  by_cases h0 : f.expOf a = 0
  · refine ⟨1, f.mantOf a, le_rfl, by omega, fun h => absurd h (lt_irrefl _), by rw [if_pos h0], ?_⟩
    unfold decode
    simp [h0, f.expMask_pos.ne]
  · refine ⟨f.expOf a, 2 ^ f.mantSize + f.mantOf a, by omega, by omega, fun _ => by omega, ?_, ?_⟩
    · rw [if_neg h0, or_leading hm]
    · unfold decode
      simp only [h, h0, if_false]

theorem normalizeSubnormal_spec {m : ℕ} (hm : m < 2 ^ f.mantSize) (h0 : m ≠ 0) :
    ∃ (e : ℤ) (p : ℕ), f.normalizeSubnormal m = (e, p) ∧ 2 ^ f.mantSize ≤ p ∧ p < 2 ^ (f.mantSize + 1) ∧
      (p : ℚ) * 2 ^ (e - f.bias - f.mantSize) = m * 2 ^ (1 - f.bias - f.mantSize) ∧ e ≤ 0 := by
  have hF := f.fSize_eq
  have hmF : m < 2 ^ (f.mantSize + 1) := lt_trans hm (Nat.pow_lt_pow_right (by norm_num) (by omega))
  obtain ⟨hl, hu, hpos, hle⟩ := leading_bit h0 hmF
  have hle' : m.size ≤ f.mantSize := Nat.size_le.2 hm
  set d := f.mantSize + 1 - m.size with hd
  have hshift : (f.mantSize : ℤ) - (f.fSize - 1 - f.leadingZeros m) = d := by unfold leadingZeros; omega
  have hlt : m * 2 ^ d < 2 ^ f.fSize := lt_trans hu (Nat.pow_lt_pow_right (by norm_num) (by omega))
  refine ⟨1 - d, m * 2 ^ d, ?_, by simpa using hl, hu, ?_, by omega⟩
  · unfold normalizeSubnormal
    simp only [hshift, Int.toNat_natCast, f.shl_eq hlt]
  · push_cast
    rw [mul_assoc, two_zpow_split]
    congr 2; ring

/-- The exponent and normalized mantissa of a finite nonzero encoding. -/
theorem decode_normalized {a : ℕ} (h : f.expOf a ≠ f.expMask) (h0 : ¬ (f.expOf a = 0 ∧ f.mantOf a = 0)) :
    ∃ (e : ℤ) (m : ℕ), 2 ^ f.mantSize ≤ m ∧ m < 2 ^ (f.mantSize + 1) ∧
      ((if f.expOf a = 0 then f.normalizeSubnormal (f.mantOf a)
        else ((f.expOf a : ℤ), f.mantOf a ||| 2 ^ f.mantSize)) : ℤ × ℕ) = (e, m) ∧
      f.decode a = .num (decide (f.signOf a ≠ 0)) (m * 2 ^ (e - f.bias - f.mantSize)) := by
  have hM1 : 2 ^ (f.mantSize + 1) = 2 * 2 ^ f.mantSize := pow_succ' ..
  have hm := f.mantOf_lt a
  by_cases hz : f.expOf a = 0
  · have hm0 : f.mantOf a ≠ 0 := fun h => h0 ⟨hz, h⟩
    obtain ⟨e, p, hn, hp1, hp2, hv, -⟩ := f.normalizeSubnormal_spec hm hm0
    refine ⟨e, p, hp1, hp2, by rw [if_pos hz, hn], ?_⟩
    rw [hv]
    unfold decode
    simp [hz, f.expMask_pos.ne]
  · refine ⟨f.expOf a, 2 ^ f.mantSize + f.mantOf a, by omega, by omega, ?_, ?_⟩
    · rw [if_neg hz, or_leading hm]
    · unfold decode
      simp only [h, hz, if_false]

/-! ## Special results -/

theorem qnan_eq : f.qnan = 0 * 2 ^ (f.fSize - 1) + f.expMask * 2 ^ f.mantSize + 2 ^ (f.mantSize - 1) := by
  have hlt : 2 ^ (f.mantSize - 1) < 2 ^ f.mantSize := by
    have := Nat.two_pow_pos (f.mantSize - 1); have := f.two_pow_mantSize; omega
  unfold qnan
  rw [Nat.shiftLeft_eq, Nat.mul_comm, ← Nat.two_pow_add_eq_or_of_lt hlt]
  ring

theorem qnan_lt : f.qnan < 2 ^ f.fSize := by
  have hE := Nat.two_pow_pos f.expSize
  rw [qnan_eq]
  refine f.assembled_lt (by omega) (by unfold expMask; omega) ?_
  have := Nat.two_pow_pos (f.mantSize - 1); have := f.two_pow_mantSize; omega

theorem decode_qnan : f.decode f.qnan = .nan false := by
  have hE := Nat.two_pow_pos f.expSize
  have hM := f.two_pow_mantSize
  have hH := Nat.two_pow_pos (f.mantSize - 1)
  have he : f.expMask < 2 ^ f.expSize := by unfold expMask; omega
  have h1 : f.expOf f.qnan = f.expMask := by rw [qnan_eq]; exact f.expOf_assembled he (by omega)
  have h2 : f.mantOf f.qnan = 2 ^ (f.mantSize - 1) := by rw [qnan_eq]; exact f.mantOf_assembled (by omega)
  rw [decode_special f h1, h2, if_neg hH.ne']
  simp [qnanMask]

theorem yields_nan (fl : FFlags) (c : Bool) : f.Yields (f.qnan, invalidOpIf c fl) fl (propagate c) := by
  refine ⟨f.qnan_lt, f.decode_qnan, fun _ => rfl, ?_⟩
  cases c <;> simp [invalidOpIf, propagate, flagBits]

theorem yields_invalid (fl : FFlags) : f.Yields (f.qnan, fl ||| FFLAG_INVALID_OP) fl invalid :=
  f.yields_nan fl true

theorem yields_inf {s : ℕ} (hs : s ≤ 1) (fl : FFlags) :
    f.Yields (f.pack s f.expMask 0, fl) fl (.inf (decide (s ≠ 0)), {}) :=
  ⟨f.pack_lt hs le_rfl, f.decode_pack_inf hs, by simp [Datum.isNan], by simp [flagBits]⟩

theorem yields_zero {s : ℕ} (hs : s ≤ 1) (fl : FFlags) :
    f.Yields (f.pack s 0 0, fl) fl (.num (decide (s ≠ 0)) 0, {}) := by
  refine ⟨f.pack_lt hs (Nat.zero_le _), ?_, by simp [Datum.isNan], by simp [flagBits]⟩
  rw [f.decode_pack_subnormal hs (Nat.zero_le _)]
  simp

theorem yields_self {a : ℕ} (ha : a < 2 ^ f.fSize) (hn : f.isNan a = false) (fl : FFlags) :
    f.Yields (a, fl) fl (f.decode a, {}) :=
  ⟨ha, rfl, by simp [isNan_decode, hn], by simp [flagBits]⟩

/-- The sign of a product or quotient. -/
theorem sign_xor {s t : ℕ} (hs : s ≤ 1) (ht : t ≤ 1) :
    s ^^^ t ≤ 1 ∧ decide (s ^^^ t ≠ 0) = (decide (s ≠ 0) != decide (t ≠ 0)) := by
  interval_cases s <;> interval_cases t <;> decide

end Lish.SoftFp.Sf
