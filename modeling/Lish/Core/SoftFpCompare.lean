import Lish.Ieee.Convert
import Lish.Core.SoftFpUnique
import Lish.Core.SoftFpMul
/-!
# SoftFpCompare — comparisons, minimum and maximum

Encodings of one sign are ordered as their magnitudes are, so the comparisons of encodings are those of the numbers.
-/
namespace Lish.SoftFp

open Lish.Ieee

namespace Sf

variable (f : Sf) {a b : ℕ}

/-- A computed truth value is the specified one and accrues exactly the specified exceptions. -/
def Decides (r : Bool × FFlags) (fl : FFlags) (d : Bool × Flags) : Prop := r.1 = d.1 ∧ r.2 = fl ||| flagBits d.2

/-! ## The order of the encodings -/

theorem scaled_lt_iff : f.scaled a < f.scaled b ↔
    f.expOf a * 2 ^ f.mantSize + f.mantOf a < f.expOf b * 2 ^ f.mantSize + f.mantOf b := by
  have hlow : ∀ x y, f.expOf x < f.expOf y → f.expOf x * 2 ^ f.mantSize + f.mantOf x < f.expOf y * 2 ^ f.mantSize + f.mantOf y := by
    intro x y h
    have hx := f.mantOf_lt x
    have hle := Nat.mul_le_mul_right (2 ^ f.mantSize) (Nat.succ_le_of_lt h)
    rw [Nat.succ_mul] at hle
    omega
  rcases Nat.lt_trichotomy (f.expOf a) (f.expOf b) with h | h | h
  · exact iff_of_true (f.scaled_lt_of_exp_lt h) (hlow a b h)
  · unfold scaled
    rw [h]
    split_ifs
    · omega
    · rw [Nat.mul_lt_mul_right (Nat.two_pow_pos _)]
      omega
  · exact iff_of_false (f.scaled_lt_of_exp_lt h).not_gt (hlow b a h).not_gt

theorem lt_iff_low (hs : f.signOf a = f.signOf b) : a < b ↔
    f.expOf a * 2 ^ f.mantSize + f.mantOf a < f.expOf b * 2 ^ f.mantSize + f.mantOf b := by
  have ha := f.fields_eq a
  have hb := f.fields_eq b
  rw [hs] at ha
  omega

theorem decode_inf (ha : f.isNan a = false) (h : f.expOf a = f.expMask) :
    f.decode a = .inf (decide (f.signOf a ≠ 0)) ∧ f.mantOf a = 0 := by
  have hm : f.mantOf a = 0 := by
    by_contra h0
    rw [(f.isNan_iff a).2 ⟨h, h0⟩] at ha
    cases ha
  rw [decode_special f h, if_pos hm]
  exact ⟨rfl, hm⟩

theorem low_finite_lt (h : f.expOf a ≠ f.expMask) : f.expOf a * 2 ^ f.mantSize + f.mantOf a < f.expMask * 2 ^ f.mantSize := by
  have hm := f.mantOf_lt a
  have he : f.expOf a < f.expMask := by
    have hlt := f.expOf_lt a
    have hmask : f.expMask = 2 ^ f.expSize - 1 := rfl
    omega
  have hle := Nat.mul_le_mul_right (2 ^ f.mantSize) (Nat.succ_le_of_lt he)
  rw [Nat.succ_mul] at hle
  omega

/-- The condition under which one encoding of a number comes before another. -/
def Before (a b : ℕ) : Prop :=
  (f.signOf a = f.signOf b ∧ f.signOf a = 0 ∧ a < b) ∨ (f.signOf a = f.signOf b ∧ f.signOf a ≠ 0 ∧ b < a) ∨
    (f.signOf a ≠ f.signOf b ∧ f.signOf a ≠ 0 ∧ ¬ ((f.decode a).isZero = true ∧ (f.decode b).isZero = true))

theorem before_finite (hsa : f.signOf a ≤ 1) (hsb : f.signOf b ≤ 1) (ha : f.expOf a ≠ f.expMask) (hb : f.expOf b ≠ f.expMask) :
    (f.decode a).lt (f.decode b) = true ↔ f.Before a b := by
  have hQ := f.format.quantum_pos f.format.emin
  set Q := f.format.quantum f.format.emin with hQdef
  have hda := f.decode_scaled ha
  have hdb := f.decode_scaled hb
  rw [← hQdef] at hda hdb
  have hlt : ∀ x y : ℕ, (x : ℚ) * Q < y * Q ↔ x < y := fun x y => by rw [mul_lt_mul_iff_left₀ hQ, Nat.cast_lt]
  have hzero : ∀ x : ℕ, decide ((x : ℚ) * Q = 0) = true ↔ x = 0 := fun x => by
    rw [decide_eq_true_iff, mul_eq_zero, or_iff_left hQ.ne', Nat.cast_eq_zero]
  have hnn : ∀ x : ℕ, (0 : ℚ) ≤ x * Q := fun x => by positivity
  unfold Before
  rw [hda, hdb]
  unfold Datum.lt Datum.isZero Datum.toRat
  dsimp only
  rw [hzero, hzero, decide_eq_true_iff]
  have hab := f.scaled_lt_iff (a := a) (b := b)
  have hba := f.scaled_lt_iff (a := b) (b := a)
  obtain h1 | h1 : f.signOf a = 0 ∨ f.signOf a = 1 := by omega
  · obtain h2 | h2 : f.signOf b = 0 ∨ f.signOf b = 1 := by omega
    · have hiff := f.lt_iff_low (h1.trans h2.symm)
      simp only [h1, h2, ne_eq, not_true, decide_false, Bool.false_eq_true, if_false, hlt, false_and, and_false, or_false, true_and]
      rw [hab, hiff]
    · simp only [h1, h2]
      have hle : ¬ (f.scaled a : ℚ) * Q < -(f.scaled b * Q) := by linarith [hnn (f.scaled a), hnn (f.scaled b)]
      simpa using hle
  · obtain h2 | h2 : f.signOf b = 0 ∨ f.signOf b = 1 := by omega
    · have hpos : -(f.scaled a * Q) < f.scaled b * Q ↔ ¬ (f.scaled a = 0 ∧ f.scaled b = 0) := by
        constructor
        · rintro hlt ⟨ha0, hb0⟩
          rw [ha0, hb0] at hlt
          simp at hlt
        · intro hne
          have hsum : (0 : ℚ) < (f.scaled a + f.scaled b : ℕ) * Q := mul_pos (by exact_mod_cast (by omega)) hQ
          push_cast at hsum
          linarith
      simp only [h1, h2]
      simpa using hpos
    · have hiff := f.lt_iff_low (h2.trans h1.symm)
      have hneg : -((f.scaled a : ℚ) * Q) < -(f.scaled b * Q) ↔ b < a := by rw [neg_lt_neg_iff, hlt, hba, hiff]
      simp only [h1, h2]
      simpa using hneg

/-- **The order of two numbers**, read off their encodings. -/
theorem lt_decode (ha : a < 2 ^ f.fSize) (hb : b < 2 ^ f.fSize) (hna : f.isNan a = false) (hnb : f.isNan b = false) :
    (f.decode a).lt (f.decode b) = true ↔ f.Before a b := by
  have hsa := f.signOf_le ha
  have hsb := f.signOf_le hb
  by_cases hia : f.expOf a = f.expMask
  · obtain ⟨hda, hma⟩ := f.decode_inf hna hia
    by_cases hib : f.expOf b = f.expMask
    · obtain ⟨hdb, hmb⟩ := f.decode_inf hnb hib
      have hab : f.signOf a = f.signOf b → ¬ a < b ∧ ¬ b < a := fun hs => by
        rw [f.lt_iff_low hs, f.lt_iff_low hs.symm, hia, hib, hma, hmb]
        exact ⟨lt_irrefl _, lt_irrefl _⟩
      unfold Before
      rw [hda, hdb]
      obtain h1 | h1 : f.signOf a = 0 ∨ f.signOf a = 1 := by omega
      all_goals
        obtain h2 | h2 : f.signOf b = 0 ∨ f.signOf b = 1 := by omega
        all_goals
          rw [h1, h2] at hab
          simp only [h1, h2]
          simp [Datum.lt, Datum.isZero] at hab ⊢
          try omega
    · have hlow := f.low_finite_lt hib
      have hba : f.signOf a = f.signOf b → b < a ∧ ¬ a < b := fun hs => by
        rw [f.lt_iff_low hs, f.lt_iff_low hs.symm, hia, hma]
        exact ⟨by omega, by omega⟩
      unfold Before
      rw [hda, f.decode_scaled hib]
      obtain h1 | h1 : f.signOf a = 0 ∨ f.signOf a = 1 := by omega
      all_goals
        obtain h2 | h2 : f.signOf b = 0 ∨ f.signOf b = 1 := by omega
        all_goals
          rw [h1, h2] at hba
          simp only [h1, h2]
          simp [Datum.lt, Datum.isZero] at hba ⊢
          try omega
  · by_cases hib : f.expOf b = f.expMask
    · obtain ⟨hdb, hmb⟩ := f.decode_inf hnb hib
      have hlow := f.low_finite_lt hia
      have hab : f.signOf a = f.signOf b → a < b ∧ ¬ b < a := fun hs => by
        rw [f.lt_iff_low hs, f.lt_iff_low hs.symm, hib, hmb]
        exact ⟨by omega, by omega⟩
      unfold Before
      rw [hdb, f.decode_scaled hia]
      obtain h1 | h1 : f.signOf a = 0 ∨ f.signOf a = 1 := by omega
      all_goals
        obtain h2 | h2 : f.signOf b = 0 ∨ f.signOf b = 1 := by omega
        all_goals
          rw [h1, h2] at hab
          simp only [h1, h2]
          simp [Datum.lt, Datum.isZero] at hab ⊢
          try omega
    · exact f.before_finite hsa hsb hia hib

/-- The test of the encodings for two zeros. -/
theorem shl_or_eq_zero (ha : a < 2 ^ f.fSize) (hb : b < 2 ^ f.fSize) :
    f.shl (a ||| b) 1 = 0 ↔ (f.decode a).isZero = true ∧ (f.decode b).isZero = true := by
  have hor : f.shl (a ||| b) 1 = f.shl a 1 ||| f.shl b 1 := by
    unfold shl
    rw [Nat.shiftLeft_or_distrib, Nat.or_mod_two_pow]
  rw [hor, Nat.or_eq_zero_iff, f.shl_one_eq_zero ha, f.shl_one_eq_zero hb, isZero_decode, isZero_decode, decide_eq_true_iff,
    decide_eq_true_iff]

section Order

variable (ha : a < 2 ^ f.fSize) (hb : b < 2 ^ f.fSize) (hna : f.isNan a = false) (hnb : f.isNan b = false)

include ha hb hna hnb

/-- Of two numbers of different signs the negative one comes first, but for two zeros. -/
theorem lt_apart (hs : f.signOf a ≠ f.signOf b) :
    (f.decode a).lt (f.decode b) = decide (f.signOf a ≠ 0 ∧ f.shl (a ||| b) 1 ≠ 0) := by
  rw [Bool.eq_iff_iff, f.lt_decode ha hb hna hnb, Before, decide_eq_true_iff, ne_eq (f.shl _ _), f.shl_or_eq_zero ha hb]
  simp only [hs, false_and, false_or, ne_eq, not_false_eq_true, true_and]

theorem lt_positive (hs : f.signOf a = f.signOf b) (h0 : f.signOf a = 0) : (f.decode a).lt (f.decode b) = decide (a < b) := by
  rw [Bool.eq_iff_iff, f.lt_decode ha hb hna hnb, Before, decide_eq_true_iff, ← hs, h0]
  simp

theorem lt_negative (hs : f.signOf a = f.signOf b) (h0 : f.signOf a ≠ 0) : (f.decode a).lt (f.decode b) = decide (b < a) := by
  rw [Bool.eq_iff_iff, f.lt_decode ha hb hna hnb, Before, decide_eq_true_iff, ← hs]
  simp [h0]

end Order

/-! ## The comparisons -/

theorem decides_nan {fl : FFlags} {c : Bool} : Decides (false, invalidOpIf c fl) fl (false, { nv := c }) := by
  refine ⟨rfl, ?_⟩
  cases c <;> simp [invalidOpIf, flagBits]

theorem decides_number {fl : FFlags} {c d : Bool} (h : d = c) : Decides (c, fl) fl (d, {}) := ⟨h.symm, by simp [flagBits]⟩

theorem invalid_either (x y : Bool) : decide (x = true ∨ y = true) = (x || y) := by cases x <;> cases y <;> rfl

section Compare

variable (ha : a < 2 ^ f.fSize) (hb : b < 2 ^ f.fSize) (fl : FFlags)

include ha hb

/-- **Less than.** -/
theorem lt_decides : Decides (f.lt a b fl) fl ((f.decode a).ltSignaling (f.decode b)) := by
  unfold lt Datum.ltSignaling
  rw [isNan_decode, isNan_decode]
  by_cases hn : f.isNan a = true ∨ f.isNan b = true
  · rw [if_pos hn, if_pos (Bool.or_eq_true_iff.2 hn)]
    exact decides_nan (c := true)
  · rw [if_neg hn, if_neg fun h => hn (Bool.or_eq_true_iff.1 h)]
    obtain ⟨hna, hnb⟩ := not_or.1 hn
    rw [Bool.not_eq_true] at hna hnb
    split_ifs with hs h1
    · exact decides_number (f.lt_apart ha hb hna hnb hs)
    · exact decides_number (f.lt_negative ha hb hna hnb (not_not.1 hs) h1)
    · exact decides_number (f.lt_positive ha hb hna hnb (not_not.1 hs) (not_not.1 h1))

/-- **Less than or equal.** -/
theorem le_decides : Decides (f.le a b fl) fl ((f.decode a).leSignaling (f.decode b)) := by
  unfold le Datum.leSignaling
  rw [isNan_decode, isNan_decode]
  by_cases hn : f.isNan a = true ∨ f.isNan b = true
  · rw [if_pos hn, if_pos (Bool.or_eq_true_iff.2 hn)]
    exact decides_nan (c := true)
  · rw [if_neg hn, if_neg fun h => hn (Bool.or_eq_true_iff.1 h)]
    obtain ⟨hna, hnb⟩ := not_or.1 hn
    rw [Bool.not_eq_true] at hna hnb
    have hsa := f.signOf_le ha
    have hsb := f.signOf_le hb
    split_ifs with hs h1
    · refine decides_number ?_
      rw [f.lt_apart hb ha hnb hna (Ne.symm hs), Nat.or_comm, ← decide_not, decide_eq_decide]
      omega
    · refine decides_number ?_
      rw [f.lt_negative hb ha hnb hna (not_not.1 hs).symm (not_not.1 hs ▸ h1), ← decide_not, decide_eq_decide]
      omega
    · refine decides_number ?_
      rw [f.lt_positive hb ha hnb hna (not_not.1 hs).symm (not_not.1 hs ▸ not_not.1 h1), ← decide_not, decide_eq_decide]
      omega

/-- **Equality**, which is quiet. -/
theorem eqQuiet_decides : Decides (f.eqQuiet a b fl) fl ((f.decode a).eqQuiet (f.decode b)) := by
  unfold eqQuiet Datum.eqQuiet
  rw [isNan_decode, isNan_decode, isSignaling_decode, isSignaling_decode]
  by_cases hn : f.isNan a = true ∨ f.isNan b = true
  · rw [if_pos hn, if_pos (Bool.or_eq_true_iff.2 hn), invalid_either]
    exact decides_nan
  · rw [if_neg hn, if_neg fun h => hn (Bool.or_eq_true_iff.1 h)]
    obtain ⟨hna, hnb⟩ := not_or.1 hn
    rw [Bool.not_eq_true] at hna hnb
    by_cases hs : f.signOf a = f.signOf b
    · have hcmp : (!(f.decode a).lt (f.decode b) && !(f.decode b).lt (f.decode a)) = decide (a = b) := by
        by_cases h0 : f.signOf a = 0
        · rw [f.lt_positive ha hb hna hnb hs h0, f.lt_positive hb ha hnb hna hs.symm (hs ▸ h0), ← decide_not, ← decide_not,
            ← Bool.decide_and, decide_eq_decide]
          omega
        · rw [f.lt_negative ha hb hna hnb hs h0, f.lt_negative hb ha hnb hna hs.symm (hs ▸ h0), ← decide_not, ← decide_not,
            ← Bool.decide_and, decide_eq_decide]
          omega
      split_ifs with hz
      · refine decides_number (hcmp.trans (decide_eq_true ?_))
        obtain ⟨hza, hzb⟩ := (f.shl_or_eq_zero ha hb).1 hz
        rw [isZero_decode, decide_eq_true_iff] at hza hzb
        rw [f.fields_eq a, f.fields_eq b, hs, hza.1, hza.2, hzb.1, hzb.2]
      · exact decides_number hcmp
    · have hsa := f.signOf_le ha
      have hsb := f.signOf_le hb
      rw [f.lt_apart ha hb hna hnb hs, f.lt_apart hb ha hnb hna (Ne.symm hs), Nat.or_comm b a]
      split_ifs with hz
      · exact decides_number (by simp [hz])
      · refine decides_number ?_
        rw [← decide_not, ← decide_not, ← Bool.decide_and, decide_eq_decide]
        have hne : a ≠ b := fun h => hs (by rw [h])
        omega

/-! ## Minimum and maximum -/

/-- With a NaN the other operand is returned, and of two NaNs the canonical one. -/
theorem minMaxNan_yields : f.Yields (f.minMaxNan a b fl) fl ((f.decode a).otherNumber (f.decode b)) := by
  unfold minMaxNan Datum.otherNumber
  rw [isNan_decode, isNan_decode, isSignaling_decode, isSignaling_decode, ← invalid_either]
  have hflags : ∀ c : Bool, invalidOpIf c fl = fl ||| flagBits { nv := c } := fun c => by cases c <;> simp [invalidOpIf, flagBits]
  cases hna : f.isNan a
  · exact ⟨ha, rfl, fun h => absurd ((f.isNan_decode a).symm.trans h) (by simp [hna]), hflags _⟩
  · cases hnb : f.isNan b
    · exact ⟨hb, rfl, fun h => absurd ((f.isNan_decode b).symm.trans h) (by simp [hnb]), hflags _⟩
    · exact ⟨f.qnan_lt, f.decode_qnan, fun _ => rfl, hflags _⟩

omit ha hb in
/-- Of two encodings of one sign the test picks the lesser number. -/
theorem firstOfSign_eq (hs : f.signOf a ≤ 1) : f.firstOfSign a b = if f.signOf a = 0 then decide (a < b) else decide (b ≤ a) := by
  unfold firstOfSign
  obtain h | h : f.signOf a = 0 ∨ f.signOf a = 1 := by omega
  all_goals
    rw [h]
    by_cases hlt : a < b
    · simp [hlt, Nat.not_le.2 hlt]
    · simp [hlt, Nat.not_lt.1 hlt]

/-- **Minimum.** -/
theorem min_yields : f.Yields (f.min a b fl) fl ((f.decode a).minNumber (f.decode b)) := by
  unfold min Datum.minNumber
  rw [isNan_decode, isNan_decode]
  by_cases hn : f.isNan a = true ∨ f.isNan b = true
  · rw [if_pos hn, if_pos (Bool.or_eq_true_iff.2 hn)]
    exact f.minMaxNan_yields ha hb fl
  · rw [if_neg hn, if_neg fun h => hn (Bool.or_eq_true_iff.1 h)]
    obtain ⟨hna, hnb⟩ := not_or.1 hn
    rw [Bool.not_eq_true] at hna hnb
    have hya := f.yields_self ha hna fl
    have hyb := f.yields_self hb hnb fl
    have hsa := f.signOf_le ha
    have hsb := f.signOf_le hb
    rw [f.neg_decode hna]
    by_cases hs : f.signOf a = f.signOf b
    · rw [if_neg (not_not.2 hs), f.firstOfSign_eq hsa]
      by_cases h0 : f.signOf a = 0
      · rw [f.lt_positive ha hb hna hnb hs h0, f.lt_positive hb ha hnb hna hs.symm (hs ▸ h0), if_pos h0]
        rcases Nat.lt_trichotomy a b with h | rfl | h
        · simpa [h] using hya
        · simpa using hya
        · simpa [h, h.not_gt] using hyb
      · rw [f.lt_negative ha hb hna hnb hs h0, f.lt_negative hb ha hnb hna hs.symm (hs ▸ h0), if_neg h0]
        rcases Nat.lt_trichotomy a b with h | rfl | h
        · simpa [h, h.not_gt, h.not_ge] using hyb
        · simpa using hya
        · simpa [h, h.le] using hya
    · rw [if_pos hs, f.lt_apart ha hb hna hnb hs, f.lt_apart hb ha hnb hna (Ne.symm hs)]
      by_cases h0 : f.signOf a = 0
      · simpa [h0] using hyb
      · have hb0 : f.signOf b = 0 := by omega
        simpa [h0, hb0] using hya

/-- **Maximum.** -/
theorem max_yields : f.Yields (f.max a b fl) fl ((f.decode a).maxNumber (f.decode b)) := by
  unfold max Datum.maxNumber
  rw [isNan_decode, isNan_decode]
  by_cases hn : f.isNan a = true ∨ f.isNan b = true
  · rw [if_pos hn, if_pos (Bool.or_eq_true_iff.2 hn)]
    exact f.minMaxNan_yields ha hb fl
  · rw [if_neg hn, if_neg fun h => hn (Bool.or_eq_true_iff.1 h)]
    obtain ⟨hna, hnb⟩ := not_or.1 hn
    rw [Bool.not_eq_true] at hna hnb
    have hya := f.yields_self ha hna fl
    have hyb := f.yields_self hb hnb fl
    have hsa := f.signOf_le ha
    have hsb := f.signOf_le hb
    rw [f.neg_decode hna]
    by_cases hs : f.signOf a = f.signOf b
    · rw [if_neg (not_not.2 hs), f.firstOfSign_eq hsa]
      by_cases h0 : f.signOf a = 0
      · rw [f.lt_positive ha hb hna hnb hs h0, f.lt_positive hb ha hnb hna hs.symm (hs ▸ h0), if_pos h0]
        rcases Nat.lt_trichotomy a b with h | rfl | h
        · simpa [h, h.not_gt] using hyb
        · simpa using hya
        · simpa [h, h.not_gt] using hya
      · rw [f.lt_negative ha hb hna hnb hs h0, f.lt_negative hb ha hnb hna hs.symm (hs ▸ h0), if_neg h0]
        rcases Nat.lt_trichotomy a b with h | rfl | h
        · simpa [h, h.not_ge] using hya
        · simpa using hya
        · simpa [h, h.le, h.not_gt] using hyb
    · rw [if_pos hs, f.lt_apart ha hb hna hnb hs, f.lt_apart hb ha hnb hna (Ne.symm hs)]
      by_cases h0 : f.signOf a = 0
      · simpa [h0] using hya
      · have hb0 : f.signOf b = 0 := by omega
        simpa [h0, hb0] using hyb

end Compare

end Sf
end Lish.SoftFp
