import Lish.Core.SoftFpFmaSum
/-!
# SoftFpFma — the fused multiply-add is correctly rounded, but for one invalid flag

Infinity times zero with a quiet NaN addend must raise the invalid exception; `fma` looks only for signaling operands
there.  Everywhere else the result and the flags are those of the exact `a * b + c` rounded once.
-/
namespace Lish.SoftFp.Sf

open Lish.Ieee

variable (f : Sf)

/-! ## Special operands -/

/-- Infinity times zero, in either order: the product that is invalid whatever the addend. -/
def infTimesZero (a b : ℕ) : Bool :=
  ((f.decode a).isInf && (f.decode b).isZero) || ((f.decode a).isZero && (f.decode b).isInf)

theorem infTimesZero_not_nan {a b : ℕ} (h : f.infTimesZero a b = true) : f.isNan a = false ∧ f.isNan b = false := by
  have key {x : ℕ} (hx : (f.decode x).isInf = true ∨ (f.decode x).isZero = true) : f.isNan x = false := by
    rw [← isNan_decode]
    cases hd : f.decode x with
    | nan s => rw [hd] at hx; simp [Datum.isInf, Datum.isZero] at hx
    | _ => rfl
  simp only [infTimesZero, Bool.or_eq_true, Bool.and_eq_true] at h
  rcases h with ⟨h1, h2⟩ | ⟨h1, h2⟩
  · exact ⟨key (Or.inl h1), key (Or.inr h2)⟩
  · exact ⟨key (Or.inr h1), key (Or.inl h2)⟩

theorem fma_nan_spec {a b c : ℕ} (m : Rounding) (h : f.isNan a = true ∨ f.isNan b = true ∨ f.isNan c = true) :
    f.format.fma m (f.decode a) (f.decode b) (f.decode c) =
      propagate (decide (f.isSignan a = true ∨ f.isSignan b = true ∨ f.isSignan c = true) || f.infTimesZero a b) := by
  unfold Format.fma infTimesZero
  dsimp only
  rw [isNan_decode, isNan_decode, isNan_decode, isSignaling_decode, isSignaling_decode, isSignaling_decode,
    if_pos (by simpa [or_assoc] using h)]
  simp [Bool.or_assoc]

theorem fma_nan {a b c rm : ℕ} {fl : FFlags} (h : f.isNan a = true ∨ f.isNan b = true ∨ f.isNan c = true) :
    f.fma a b c rm fl =
      (f.qnan, invalidOpIf (decide (f.isSignan a = true ∨ f.isSignan b = true ∨ f.isSignan c = true)) fl) := by
  have ha := f.isNan_iff a; have hb := f.isNan_iff b; have hc := f.isNan_iff c
  unfold fma
  dsimp only
  rw [if_pos (by tauto), if_pos h]

theorem fma_special_spec {a b c : ℕ} (m : Rounding) (ha : f.isNan a = false) (hb : f.isNan b = false) (hc : f.isNan c = false)
    (h : f.expOf a = f.expMask ∨ f.expOf b = f.expMask ∨ f.expOf c = f.expMask) :
    f.format.fma m (f.decode a) (f.decode b) (f.decode c) =
      let neg := decide (f.signOf a ≠ 0) != decide (f.signOf b ≠ 0)
      if (f.expOf a = f.expMask ∧ (f.expOf b = 0 ∧ f.mantOf b = 0)) ∨ (f.expOf b = f.expMask ∧ (f.expOf a = 0 ∧ f.mantOf a = 0))
          ∨ ((f.expOf a = f.expMask ∨ f.expOf b = f.expMask) ∧ (f.expOf c = f.expMask ∧ neg ≠ decide (f.signOf c ≠ 0))) then
        invalid
      else if f.expOf c = f.expMask then (.inf (decide (f.signOf c ≠ 0)), {})
      else (.inf neg, {}) := by
  have hp := f.expMask_pos
  have hdc (hx : f.expOf c = f.expMask) : f.decode c = .inf (decide (f.signOf c ≠ 0)) := by
    have : f.mantOf c = 0 := by
      by_contra h0; exact absurd ((f.isNan_iff c).2 ⟨hx, h0⟩) (by rw [hc]; simp)
    rw [f.decode_special hx, if_pos this]
  unfold Format.fma
  dsimp only
  rw [isNan_decode, isNan_decode, isNan_decode, ha, hb, hc, f.isInf_of_not_nan ha, f.isInf_of_not_nan hb,
    f.isInf_of_not_nan hc, isZero_decode, isZero_decode, f.neg_decode ha, f.neg_decode hb, f.neg_decode hc]
  simp only [Bool.or_self, Bool.false_eq_true, if_false, Bool.or_eq_true, Bool.and_eq_true, decide_eq_true_eq]
  generalize (decide (f.signOf a ≠ 0) != decide (f.signOf b ≠ 0)) = neg
  generalize hcs : decide (f.signOf c ≠ 0) = cneg at *
  by_cases hx : f.expOf c = f.expMask
  · rw [hdc hx]
    by_cases hab : f.expOf a = f.expMask ∨ f.expOf b = f.expMask
    · cases neg <;> cases cneg <;> simp [hx, hab] <;> split_ifs <;> first | rfl | omega
    · obtain ⟨h1, h2⟩ := not_or.1 hab
      simp [hx, h1, h2]
  · have hab : f.expOf a = f.expMask ∨ f.expOf b = f.expMask := by tauto
    simp only [hx, hab, false_and, and_false, or_false, if_false, if_true]
    split_ifs <;> first | rfl | omega

/-- A finite nonzero encoding is its own rounding. -/
theorem round_decode {c : ℕ} (h : f.expOf c ≠ f.expMask) (m : Rounding) (neg : Bool) :
    f.format.round m neg |(f.decode c).toRat| = (.num neg |(f.decode c).toRat|, {}) := by
  obtain ⟨e, n, he1, hn, hen, hu, hd⟩ := f.decode_finite h
  have hb := f.bias_ge
  have hmask : e ≤ f.expMask - 1 := by
    have hE := f.expOf_lt c
    have h16 := f.rndPow_ge; have h2 := f.two_pow_expSize
    unfold expMask at h ⊢
    simp only [Prod.ext_iff] at hu
    split_ifs at hu <;> omega
  have hx0 : (0 : ℚ) ≤ n * 2 ^ ((e : ℤ) - f.bias - f.mantSize) := by positivity
  rw [hd, Datum.abs_toRat_num _ hx0]
  have hM1 : (2 : ℚ) ^ (f.mantSize + 1) * 2 ^ ((e : ℤ) - f.bias - f.mantSize) = 2 ^ ((e : ℤ) - f.bias + 1) := by
    rw [two_zpow_split]; congr 1; push_cast; ring
  refine f.format.round_exact m neg (f.format.roundMag_exact m neg (n := n) ?_) ?_
  · rw [format_quantum, format_emin]
    rcases Nat.eq_zero_or_pos n with rfl | hnpos
    · simp
    congr 2
    have hupper : (n : ℚ) * 2 ^ ((e : ℤ) - f.bias - f.mantSize) < 2 ^ ((e : ℤ) - f.bias + 1) := by
      rw [← hM1]
      exact mul_lt_mul_of_pos_right (by exact_mod_cast hn) (by positivity)
    have hpos : (0 : ℚ) < n * 2 ^ ((e : ℤ) - f.bias - f.mantSize) := by
      have : (0 : ℚ) < n := by exact_mod_cast hnpos
      positivity
    have hlog : Int.log 2 ((n : ℚ) * 2 ^ ((e : ℤ) - f.bias - f.mantSize)) < (e : ℤ) - f.bias + 1 :=
      (Int.lt_zpow_iff_log_lt (by norm_num) hpos).1 (by exact_mod_cast hupper)
    rcases he1.eq_or_lt with rfl | h1
    · rw [max_eq_right (by push_cast at hlog ⊢; omega)]; push_cast; ring
    · have hlower : (2 : ℚ) ^ ((e : ℤ) - f.bias) ≤ n * 2 ^ ((e : ℤ) - f.bias - f.mantSize) := by
        have hM : (2 : ℚ) ^ f.mantSize * 2 ^ ((e : ℤ) - f.bias - f.mantSize) = 2 ^ ((e : ℤ) - f.bias) := by
          rw [two_zpow_split]; congr 1; ring
        rw [← hM]
        exact mul_le_mul_of_nonneg_right (by exact_mod_cast hen h1) (by positivity)
      rw [log_two_eq hlower hupper, max_eq_left (by omega)]
  · rw [maxFinite_eq]
    have h1 : (n : ℚ) ≤ (2 ^ (f.mantSize + 1) - 1 : ℕ) := by exact_mod_cast (by omega : n ≤ 2 ^ (f.mantSize + 1) - 1)
    have h2 : (2 : ℚ) ^ ((e : ℤ) - f.bias - f.mantSize) ≤ 2 ^ (f.bias - f.mantSize) := by
      have := f.expMask_cast; have := f.expMask_pos
      exact zpow_le_zpow_right₀ (by norm_num) (by omega)
    exact mul_le_mul h1 h2 (by positivity) (by positivity)

/-! ## The product -/

theorem wide_double {hi lo : ℕ} (hlo : lo < 2 ^ f.fSize) (hhi : hi < 2 ^ (f.fSize - 1)) :
    f.shl lo 1 < 2 ^ f.fSize ∧
      f.wide (f.shl hi 1 ||| lo >>> (f.fSize - 1)) (f.shl lo 1) = 2 * f.wide hi lo := by
  have hF := f.fSize_eq
  have hpow : 2 ^ f.fSize = 2 * 2 ^ (f.fSize - 1) := by rw [← pow_succ']; congr 1; omega
  have hq : lo / 2 ^ (f.fSize - 1) < 2 := by rw [Nat.div_lt_iff_lt_mul (Nat.two_pow_pos _), ← hpow]; exact hlo
  have hsh : f.shl hi 1 = 2 ^ 1 * hi := by
    rw [f.shl_eq (by omega), Nat.mul_comm]
  refine ⟨Nat.mod_lt _ (Nat.two_pow_pos _), ?_⟩
  rw [hsh, Nat.shiftRight_eq_div_pow, ← Nat.two_pow_add_eq_or_of_lt (by omega : lo / 2 ^ (f.fSize - 1) < 2 ^ 1)]
  unfold wide shl
  rw [Nat.shiftLeft_eq, hpow, Nat.mul_comm lo, pow_one, Nat.mul_mod_mul_left]
  have hdm := Nat.div_add_mod lo (2 ^ (f.fSize - 1))
  calc (2 * hi + lo / 2 ^ (f.fSize - 1)) * (2 * 2 ^ (f.fSize - 1)) + 2 * (lo % 2 ^ (f.fSize - 1))
      = 2 * (hi * (2 * 2 ^ (f.fSize - 1))) +
          2 * (2 ^ (f.fSize - 1) * (lo / 2 ^ (f.fSize - 1)) + lo % 2 ^ (f.fSize - 1)) := by ring
    _ = _ := by rw [hdm]; ring

theorem mulU_wide {a b : ℕ} (h : a * b < 2 ^ (2 * f.fSize)) :
    (f.mulU a b).2 < 2 ^ f.fSize ∧ f.wide (f.mulU a b).1 (f.mulU a b).2 = a * b := by
  have hq : a * b / 2 ^ f.fSize < 2 ^ f.fSize := by
    rw [Nat.div_lt_iff_lt_mul (Nat.two_pow_pos _), ← pow_add, ← two_mul]; exact h
  unfold mulU wide
  dsimp only
  rw [Nat.shiftRight_eq_div_pow, Nat.mod_eq_of_lt hq, Nat.mul_comm (a * b / 2 ^ f.fSize)]
  exact ⟨Nat.mod_lt _ (Nat.two_pow_pos _), Nat.div_add_mod _ _⟩

/-- The product of two normalized mantissas as `fma` sets it up. -/
def productWide (rExp : ℤ) (m1 m2 : ℕ) : ℤ × ℕ × ℕ :=
  let (r1, r0) := f.mulU (f.shl m1 f.rndSize) (f.shl m2 f.rndSize)
  if r1 < 2 ^ (f.fSize - 3) then (rExp - 1, f.shl r1 1 ||| r0 >>> (f.fSize - 1), f.shl r0 1)
  else (rExp, r1, r0)

theorem productWide_spec {m1 m2 : ℕ} (hl1 : 2 ^ f.mantSize ≤ m1) (hu1 : m1 < 2 ^ (f.mantSize + 1))
    (hl2 : 2 ^ f.mantSize ≤ m2) (hu2 : m2 < 2 ^ (f.mantSize + 1)) (e1 e2 : ℤ) :
    let p := f.productWide (e1 + e2 - 2 ^ (f.expSize - 1) + 3) m1 m2
    f.IsWide p.2.1 p.2.2 ∧ f.magnitude p.1 (f.wide p.2.1 p.2.2 / 2 ^ f.fSize) =
      m1 * 2 ^ (e1 - f.bias - f.mantSize) * (m2 * 2 ^ (e2 - f.bias - f.mantSize)) := by
  have hF := f.fSize_eq; have hR := f.rndSize_ge
  have hshl {m : ℕ} (hu : m < 2 ^ (f.mantSize + 1)) : f.shl m f.rndSize = m * 2 ^ f.rndSize := f.shl_eq (by
    calc m * 2 ^ f.rndSize < 2 ^ (f.mantSize + 1) * 2 ^ f.rndSize := Nat.mul_lt_mul_of_pos_right hu (Nat.two_pow_pos _)
      _ = 2 ^ (f.mantSize + 1 + f.rndSize) := (pow_add ..).symm
      _ ≤ _ := Nat.pow_le_pow_right (by norm_num) (by omega))
  set P := m1 * 2 ^ f.rndSize * (m2 * 2 ^ f.rndSize) with hP
  have hlow : 2 ^ (2 * f.fSize - 4) ≤ P := by
    calc 2 ^ (2 * f.fSize - 4) = 2 ^ f.mantSize * 2 ^ f.rndSize * (2 ^ f.mantSize * 2 ^ f.rndSize) := by
          simp only [← pow_add]; congr 1; omega
      _ ≤ _ := Nat.mul_le_mul (Nat.mul_le_mul_right _ hl1) (Nat.mul_le_mul_right _ hl2)
  have hhigh : P < 2 ^ (2 * f.fSize - 2) := by
    calc P < 2 ^ (f.mantSize + 1) * 2 ^ f.rndSize * (2 ^ (f.mantSize + 1) * 2 ^ f.rndSize) :=
          Nat.mul_lt_mul_of_lt_of_lt (Nat.mul_lt_mul_of_pos_right hu1 (Nat.two_pow_pos _))
            (Nat.mul_lt_mul_of_pos_right hu2 (Nat.two_pow_pos _))
      _ = _ := by simp only [← pow_add]; congr 1; omega
  have heven : P % 2 = 0 := by
    have hpow : 2 ^ f.rndSize = 2 * 2 ^ (f.rndSize - 1) := by rw [← pow_succ']; congr 1; omega
    have : P = 2 * (m1 * 2 ^ (f.rndSize - 1) * (m2 * 2 ^ f.rndSize)) := by rw [hP, hpow]; ring
    omega
  have hval : f.magnitude (e1 + e2 - 2 ^ (f.expSize - 1) + 3) (P / 2 ^ f.fSize) =
      m1 * 2 ^ (e1 - f.bias - f.mantSize) * (m2 * 2 ^ (e2 - f.bias - f.mantSize)) := by
    have h := f.mul_magnitude e1 e2 m1 m2
    have h2 := f.magnitude_scale (e1 + e2 - 2 ^ (f.expSize - 1) + 3) 1 (P / 2 ^ f.fSize)
    rw [← h, ← h2, hP]
    congr 1
    · push_cast; ring
    · push_cast; rw [pow_succ]; ring
  obtain ⟨hlo, hwide⟩ := f.mulU_wide (a := m1 * 2 ^ f.rndSize) (b := m2 * 2 ^ f.rndSize)
    (lt_trans hhigh (Nat.pow_lt_pow_right (by norm_num) (by omega)))
  unfold productWide
  rw [hshl hu1, hshl hu2]
  generalize f.mulU (m1 * 2 ^ f.rndSize) (m2 * 2 ^ f.rndSize) = r at *
  obtain ⟨r1, r0⟩ := r
  dsimp only at *
  rw [← hP] at hwide
  have h3 : 2 ^ (2 * f.fSize - 3) = 2 * 2 ^ (2 * f.fSize - 4) := by rw [← pow_succ']; congr 1; omega
  have h2 : 2 ^ (2 * f.fSize - 2) = 2 * 2 ^ (2 * f.fSize - 3) := f.wide_sub_one_bit
  have h33 : 2 ^ (2 * f.fSize - 3) = 2 ^ (f.fSize - 3) * 2 ^ f.fSize := by rw [← pow_add]; congr 1; omega
  split_ifs with hc <;> dsimp only
  · obtain ⟨hlo2, hw2⟩ := f.wide_double hlo (lt_trans hc (Nat.pow_lt_pow_right (by norm_num) (by omega)))
    have hlt : P < 2 ^ (2 * f.fSize - 3) := by
      have := Nat.mul_le_mul_right (2 ^ f.fSize) (Nat.succ_le_of_lt hc)
      rw [Nat.succ_mul] at this
      rw [← hwide, wide, h33]; omega
    refine ⟨⟨hlo2, by omega, by omega, by omega⟩, ?_⟩
    rw [hw2, hwide, ← hval]
    have h := f.magnitude_scale (e1 + e2 - 2 ^ (f.expSize - 1) + 3) 1 (P / 2 ^ f.fSize)
    rw [← h]
    congr 1
    push_cast; ring
  · have hge : 2 ^ (2 * f.fSize - 3) ≤ P := by
      have := Nat.mul_le_mul_right (2 ^ f.fSize) (not_lt.1 hc)
      rw [← hwide, wide, h33]; omega
    exact ⟨⟨hlo, by omega, by omega, by omega⟩, by rw [hwide]; exact hval⟩

theorem addendWide_spec {m : ℕ} (hl : 2 ^ f.mantSize ≤ m) (hu : m < 2 ^ (f.mantSize + 1)) (e : ℤ) :
    f.IsWide (f.shl m (f.rndSize - 1)) 0 ∧
      f.magnitude (e + 1) (f.wide (f.shl m (f.rndSize - 1)) 0 / 2 ^ f.fSize) = m * 2 ^ (e - f.bias - f.mantSize) := by
  have hF := f.fSize_eq; have hR := f.rndSize_ge
  have hu' : m * 2 ^ (f.rndSize - 1) < 2 ^ (f.fSize - 2) := by
    calc m * 2 ^ (f.rndSize - 1) < 2 ^ (f.mantSize + 1) * 2 ^ (f.rndSize - 1) := Nat.mul_lt_mul_of_pos_right hu (Nat.two_pow_pos _)
      _ = _ := by rw [← pow_add]; congr 1; omega
  have hl' : 2 ^ (f.fSize - 3) ≤ m * 2 ^ (f.rndSize - 1) := by
    calc 2 ^ (f.fSize - 3) = 2 ^ f.mantSize * 2 ^ (f.rndSize - 1) := by rw [← pow_add]; congr 1; omega
      _ ≤ _ := Nat.mul_le_mul_right _ hl
  have hsh : f.shl m (f.rndSize - 1) = m * 2 ^ (f.rndSize - 1) :=
    f.shl_eq (lt_trans hu' (Nat.pow_lt_pow_right (by norm_num) (by omega)))
  have hw : f.wide (m * 2 ^ (f.rndSize - 1)) 0 = m * 2 ^ (f.rndSize - 1) * 2 ^ f.fSize := by unfold wide; rw [Nat.add_zero]
  rw [hsh]
  refine ⟨⟨Nat.two_pow_pos _, ?_, ?_, ?_⟩, ?_⟩
  · rw [hw, show 2 * f.fSize - 3 = f.fSize - 3 + f.fSize by omega, pow_add]
    exact Nat.mul_le_mul_right _ hl'
  · rw [hw, show 2 * f.fSize - 2 = f.fSize - 2 + f.fSize by omega, pow_add]
    exact Nat.mul_lt_mul_of_pos_right hu' (Nat.two_pow_pos _)
  · rw [hw, show f.fSize = f.fSize - 1 + 1 by omega, pow_succ, ← Nat.mul_assoc, Nat.mul_mod_left]
  · rw [hw]
    push_cast
    rw [mul_div_assoc, div_self (by positivity), mul_one]
    unfold magnitude
    rw [mul_assoc, two_zpow_split]
    congr 2
    push_cast [Nat.cast_sub (by omega : 1 ≤ f.rndSize)]
    ring

/-! ## The operation -/

/-- The operands on which `fma` drops the invalid flag: infinity times zero plus a quiet NaN. -/
def dropsInvalid (a b c : ℕ) : Bool := f.infTimesZero a b && f.isNan c && !f.isSignan c

theorem fma_finite_spec {a b c : ℕ} (m : Rounding) (ha : f.expOf a ≠ f.expMask) (hb : f.expOf b ≠ f.expMask)
    (hc : f.expOf c ≠ f.expMask) :
    f.format.fma m (f.decode a) (f.decode b) (f.decode c) =
      f.format.roundSum m (decide (f.signOf a ≠ 0) != decide (f.signOf b ≠ 0)) (decide (f.signOf c ≠ 0))
        ((f.decode a).toRat * (f.decode b).toRat + (f.decode c).toRat) := by
  have hna := f.not_nan_of_finite ha; have hnb := f.not_nan_of_finite hb; have hnc := f.not_nan_of_finite hc
  unfold Format.fma
  dsimp only
  rw [isNan_decode, isNan_decode, isNan_decode, hna, hnb, hnc, f.isInf_of_not_nan hna, f.isInf_of_not_nan hnb,
    f.isInf_of_not_nan hnc, f.neg_decode hna, f.neg_decode hnb, f.neg_decode hnc]
  simp [ha, hb, hc]

/-- A zero product: the addend comes out unchanged, or a zero of the right sign. -/
theorem fma_zero_product {a b c rm : ℕ} (hc : c < 2 ^ f.fSize) (hrm : rm ≤ 4) (hsc : f.expOf c ≠ f.expMask) {rs : ℕ}
    (hrs : rs ≤ 1) (hz : (f.decode a).toRat * (f.decode b).toRat = 0) (fl : FFlags) :
    f.Yields (if f.expOf c = 0 ∧ f.mantOf c = 0 then
        (f.pack (if f.signOf c ≠ rs then (if rm = RM_RDN then 1 else 0) else rs) 0 0, fl) else (c, fl)) fl
      (f.format.roundSum (roundingOf rm) (decide (rs ≠ 0)) (decide (f.signOf c ≠ 0))
        ((f.decode a).toRat * (f.decode b).toRat + (f.decode c).toRat)) := by
  have hcs := f.signOf_le hc
  rw [hz, zero_add]
  have hzc := f.isZero_decode c
  obtain ⟨e, n, he1, hn, hen, hu, hd⟩ := f.decode_finite hsc
  by_cases h0 : f.expOf c = 0 ∧ f.mantOf c = 0
  · have hv : (f.decode c).toRat = 0 := by
      rw [decide_eq_true h0, hd] at hzc
      simp only [Datum.isZero, decide_eq_true_eq] at hzc
      rw [hd, hzc, Datum.toRat]; split_ifs <;> simp
    rw [if_pos h0, hv]
    refine f.yields_roundSum_zero (by split_ifs <;> omega) ?_ fl
    have hrdn := rdn_sign hrm
    by_cases hs : f.signOf c = rs
    · rw [if_neg (not_not.2 hs), hs, if_pos rfl]
    · have hne : decide (rs ≠ 0) ≠ decide (f.signOf c ≠ 0) := by
        rw [ne_eq, decide_eq_decide]; omega
      rw [if_pos hs, if_neg hne, hrdn]
  · have hv : (f.decode c).toRat ≠ 0 := by
      intro hv
      rw [decide_eq_false h0, hd] at hzc
      simp only [Datum.isZero, decide_eq_false_iff_not] at hzc
      rw [hd, Datum.toRat] at hv
      split_ifs at hv
      · exact hzc (neg_eq_zero.1 hv)
      · exact hzc hv
    have hx0 : (0 : ℚ) ≤ n * 2 ^ ((e : ℤ) - f.bias - f.mantSize) := by positivity
    have habs : |(f.decode c).toRat| = n * 2 ^ ((e : ℤ) - f.bias - f.mantSize) := by rw [hd, Datum.abs_toRat_num _ hx0]
    rw [if_neg h0]
    have hsig : (f.decode c).toRat = if decide (f.signOf c ≠ 0) then -|(f.decode c).toRat| else |(f.decode c).toRat| := by
      rw [habs, hd]; rfl
    refine f.yields_roundSum (abs_pos.2 hv) hsig ?_
    rw [f.round_decode hsc, habs, ← hd]
    exact f.yields_self hc (f.not_nan_of_finite hsc) fl

/-- **The fused multiply-add is correctly rounded**, with exact flags, but where it drops the invalid flag. -/
theorem fma_yields {a b c rm : ℕ} (ha : a < 2 ^ f.fSize) (hb : b < 2 ^ f.fSize) (hc : c < 2 ^ f.fSize) (hrm : rm ≤ 4)
    (hgood : f.dropsInvalid a b c = false) (fl : FFlags) :
    f.Yields (f.fma a b c rm fl) fl (f.format.fma (roundingOf rm) (f.decode a) (f.decode b) (f.decode c)) := by
  obtain ⟨hrs, hneg⟩ := sign_xor (f.signOf_le ha) (f.signOf_le hb)
  have hcs := f.signOf_le hc
  by_cases hn : f.isNan a = true ∨ f.isNan b = true ∨ f.isNan c = true
  · -- a NaN operand
    rw [f.fma_nan hn, f.fma_nan_spec _ hn]
    have hbad : (decide (f.isSignan a = true ∨ f.isSignan b = true ∨ f.isSignan c = true) || f.infTimesZero a b) =
        decide (f.isSignan a = true ∨ f.isSignan b = true ∨ f.isSignan c = true) := by
      by_cases hi : f.infTimesZero a b = true
      · obtain ⟨h1, h2⟩ := f.infTimesZero_not_nan hi
        have hnc : f.isNan c = true := by simpa [h1, h2] using hn
        have hsc : f.isSignan c = true := by simpa [dropsInvalid, hi, hnc] using hgood
        simp [hsc]
      · simp [hi]
    rw [hbad]
    exact f.yields_nan fl _
  obtain ⟨hna, hnb, hnc⟩ : f.isNan a = false ∧ f.isNan b = false ∧ f.isNan c = false := by
    simpa only [not_or, Bool.not_eq_true] using hn
  unfold fma
  dsimp only
  rw [hna, hnb, hnc]
  by_cases hsp : f.expOf a = f.expMask ∨ f.expOf b = f.expMask ∨ f.expOf c = f.expMask
  · -- an infinite operand
    rw [if_pos hsp, if_neg (by simp), f.fma_special_spec _ hna hnb hnc hsp]
    dsimp only
    rw [← hneg]
    have hsgn : decide (f.signOf a ^^^ f.signOf b ≠ 0) ≠ decide (f.signOf c ≠ 0) ↔ f.signOf a ^^^ f.signOf b ≠ f.signOf c := by
      rw [ne_eq, decide_eq_decide]; omega
    simp only [hsgn]
    split_ifs
    · exact f.yields_invalid fl
    · exact f.yields_inf hcs fl
    · exact f.yields_inf hrs fl
  obtain ⟨hsa, hsb, hsc⟩ : f.expOf a ≠ f.expMask ∧ f.expOf b ≠ f.expMask ∧ f.expOf c ≠ f.expMask := by
    simpa only [not_or] using hsp
  rw [if_neg hsp, f.fma_finite_spec _ hsa hsb hsc, ← hneg]
  by_cases hzp : (f.expOf a = 0 ∧ f.mantOf a = 0) ∨ (f.expOf b = 0 ∧ f.mantOf b = 0)
  · -- a zero product
    have hz : (f.decode a).toRat * (f.decode b).toRat = 0 := by
      have key {x : ℕ} (hx : f.expOf x = 0 ∧ f.mantOf x = 0) : (f.decode x).toRat = 0 := by
        unfold decode; simp [hx.1, hx.2, f.expMask_pos.ne, Datum.toRat]
      rcases hzp with h | h
      · rw [key h, zero_mul]
      · rw [key h, mul_zero]
    rw [if_pos hzp]
    exact f.fma_zero_product hc hrm hsc hrs hz fl
  obtain ⟨hza, hzb⟩ := not_or.1 hzp
  rw [if_neg hzp]
  obtain ⟨e1, m1, hl1, hu1, hn1, hd1⟩ := f.decode_normalized hsa hza
  obtain ⟨e2, m2, hl2, hu2, hn2, hd2⟩ := f.decode_normalized hsb hzb
  rw [hn1, hn2]
  dsimp only
  obtain ⟨hr, hvr⟩ := f.productWide_spec hl1 hu1 hl2 hu2 e1 e2
  have hp : (if (f.mulU (f.shl m1 f.rndSize) (f.shl m2 f.rndSize)).1 < 2 ^ (f.fSize - 3) then
      (e1 + e2 - 2 ^ (f.expSize - 1) + 3 - 1,
        f.shl (f.mulU (f.shl m1 f.rndSize) (f.shl m2 f.rndSize)).1 1 |||
          (f.mulU (f.shl m1 f.rndSize) (f.shl m2 f.rndSize)).2 >>> (f.fSize - 1),
        f.shl (f.mulU (f.shl m1 f.rndSize) (f.shl m2 f.rndSize)).2 1)
      else (e1 + e2 - 2 ^ (f.expSize - 1) + 3, (f.mulU (f.shl m1 f.rndSize) (f.shl m2 f.rndSize)).1,
        (f.mulU (f.shl m1 f.rndSize) (f.shl m2 f.rndSize)).2)) =
      f.productWide (e1 + e2 - 2 ^ (f.expSize - 1) + 3) m1 m2 := rfl
  rw [hp]
  generalize f.productWide (e1 + e2 - 2 ^ (f.expSize - 1) + 3) m1 m2 = p at *
  obtain ⟨rExp, r1, r0⟩ := p
  dsimp only at *
  set v1 : ℚ := m1 * 2 ^ (e1 - f.bias - f.mantSize) with hv1
  set v2 : ℚ := m2 * 2 ^ (e2 - f.bias - f.mantSize) with hv2
  have hprod : (f.decode a).toRat * (f.decode b).toRat =
      if decide (f.signOf a ^^^ f.signOf b ≠ 0) then -(v1 * v2) else v1 * v2 := by
    rw [hneg, hd1, hd2, Datum.toRat, Datum.toRat]
    cases decide (f.signOf a ≠ 0) <;> cases decide (f.signOf b ≠ 0) <;> simp
  have hF := f.fSize_eq; have hR := f.rndSize_ge
  by_cases hzc : f.expOf c = 0 ∧ f.mantOf c = 0
  · -- a zero addend
    have hvc : (f.decode c).toRat = 0 := by
      unfold decode; simp [hzc.1, hzc.2, f.expMask_pos.ne, Datum.toRat]
    have hst := sticky_shiftJam (f.wide r1 r0) f.fSize
    have hj : r1 ||| (if r0 ≠ 0 then 1 else 0) = shiftJam (f.wide r1 r0) f.fSize := by
      unfold shiftJam
      rw [f.wide_div hr.lo_lt, f.wide_mod hr.lo_lt, ite_not]
    have hge : 2 ^ (f.fSize - 3) ≤ shiftJam (f.wide r1 r0) f.fSize := by
      rw [hst.even_le_iff (by rw [show f.fSize - 3 = f.fSize - 4 + 1 by omega, pow_succ]; omega), le_div_iff₀ (by positivity)]
      have := hr.ge
      rw [show 2 * f.fSize - 3 = f.fSize - 3 + f.fSize by omega, pow_add] at this
      exact_mod_cast this
    have hlt : shiftJam (f.wide r1 r0) f.fSize < 2 ^ (f.fSize - 1) := by
      rw [hst.lt_even_iff (by rw [show f.fSize - 1 = f.fSize - 2 + 1 by omega, pow_succ]; omega), div_lt_iff₀ (by positivity)]
      have h1 := hr.lt
      have h2 : 2 ^ (2 * f.fSize - 2) ≤ 2 ^ (f.fSize - 1) * 2 ^ f.fSize := by
        rw [← pow_add]; exact Nat.pow_le_pow_right (by norm_num) (by omega)
      exact_mod_cast lt_of_lt_of_le h1 h2
    rw [if_pos hzc, hj, hvc, add_zero, hprod]
    have hpos : 0 < v1 * v2 := by
      have h1 : (0 : ℚ) < m1 := by exact_mod_cast lt_of_lt_of_le (Nat.two_pow_pos _) hl1
      have h2 : (0 : ℚ) < m2 := by exact_mod_cast lt_of_lt_of_le (Nat.two_pow_pos _) hl2
      rw [hv1, hv2]; positivity
    refine f.yields_roundSum hpos rfl ?_
    rw [← hvr]
    refine f.normalize_yields hrs hrm ?_ hlt (Or.inr ⟨0, f.fSize - 3, hst.at 0, hge, by omega⟩) _ fl
    have := Nat.two_pow_pos (f.fSize - 3); omega
  rw [if_neg hzc]
  obtain ⟨e3, m3, hl3, hu3, hn3, hd3⟩ := f.decode_normalized hsc hzc
  obtain ⟨hcw, hvc⟩ := f.addendWide_spec hl3 hu3 e3
  rw [hn3]
  dsimp only
  have hadd : (f.decode c).toRat = if decide (f.signOf c ≠ 0) then -(m3 * 2 ^ (e3 - f.bias - f.mantSize) : ℚ)
      else m3 * 2 ^ (e3 - f.bias - f.mantSize) := by rw [hd3]; rfl
  have hwc : f.wide (f.shl m3 (f.rndSize - 1)) 0 = f.shl m3 (f.rndSize - 1) * 2 ^ f.fSize := by
    unfold wide; rw [Nat.add_zero]
  generalize f.shl m3 (f.rndSize - 1) = c1 at *
  rw [hprod, hadd]
  by_cases hord : rExp > e3 + 1 ∨ (rExp = e3 + 1 ∧ r1 ≥ c1)
  · rw [if_pos hord]
    refine f.fmaSum_yields hrs hcs hrm hr hcw (fun h => absurd rfl h) (s := (rExp - (e3 + 1)).toNat) (by omega) ?_ fl
      hvr.symm hvc.symm
    intro h
    rw [hwc, wide]
    exact le_trans (Nat.mul_le_mul_right _ (by omega)) (Nat.le_add_right _ _)
  · rw [if_neg hord, roundSum_comm, add_comm (ite _ _ _) (ite _ _ _)]
    refine f.fmaSum_yields hcs hrs hrm hcw hr (fun _ => rfl) (s := (e3 + 1 - rExp).toNat) (by omega) ?_ fl
      hvc.symm hvr.symm
    intro h
    have hlt : r1 < c1 := by omega
    have := Nat.mul_le_mul_right (2 ^ f.fSize) (Nat.succ_le_of_lt hlt)
    have hlo := hr.lo_lt
    rw [Nat.succ_mul] at this
    rw [hwc, wide]
    omega

/-- Where it drops the flag, no accrued flags make up for it but the invalid flag itself. -/
theorem fma_drops {a b c : ℕ} (h : f.dropsInvalid a b c = true) (rm : ℕ) :
    ¬ f.Yields (f.fma a b c rm 0) 0 (f.format.fma (roundingOf rm) (f.decode a) (f.decode b) (f.decode c)) := by
  simp only [dropsInvalid, Bool.and_eq_true, Bool.not_eq_true'] at h
  obtain ⟨⟨hi, hnc⟩, hsc⟩ := h
  obtain ⟨hna, hnb⟩ := f.infTimesZero_not_nan hi
  have hsig {x : ℕ} (hx : f.isNan x = false) : f.isSignan x = false := by
    rw [← Bool.not_eq_true, isSignan_iff]
    rintro ⟨h1, h2, -⟩
    rw [(f.isNan_iff x).2 ⟨h1, h2⟩] at hx
    exact absurd hx (by decide)
  rw [f.fma_nan (Or.inr (Or.inr hnc)), f.fma_nan_spec _ (Or.inr (Or.inr hnc)), hi, hsc, hsig hna, hsig hnb]
  rintro ⟨-, -, -, h⟩
  exact absurd h (by dsimp only; decide)

end Lish.SoftFp.Sf
