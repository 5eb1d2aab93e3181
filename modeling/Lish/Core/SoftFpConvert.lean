import Lish.Ieee.Convert
import Lish.Core.SoftFpFma
import Lish.Core.SoftFpSqrt
/-!
# SoftFpConvert — conversions

To an integer the magnitude is rounded once and compared with the greatest of its sign; from an integer, and between the two formats, a
mantissa of at most `fSize - 1` bits with a sticky bit is normalized and rounded once.
-/
namespace Lish.SoftFp

open Lish.Ieee

namespace Sf

variable (f : Sf)

/-! ## To an integer -/

/-- The range of an integer type of `isz` bits. -/
def intLow (isz : ℕ) (unsigned : Bool) : ℤ := if unsigned then 0 else -2 ^ (isz - 1)

def intHigh (isz : ℕ) (unsigned : Bool) : ℤ := if unsigned then 2 ^ isz - 1 else 2 ^ (isz - 1) - 1

/-- A computed word is the specified integer and accrues exactly the specified exceptions. -/
def YieldsInt (isz : ℕ) (r : ℕ × FFlags) (fl : FFlags) (d : ℤ × Flags) : Prop :=
  (r.1 : ℤ) = d.1 % 2 ^ isz ∧ r.2 = fl ||| flagBits d.2

/-- `r_max`: the word of the end of the range on the side of a sign. -/
def intBound (isz s : ℕ) (unsigned : Bool) : ℕ := if unsigned then (s + (2 ^ isz - 1)) % 2 ^ isz else 2 ^ (isz - 1) - (s ^^^ 1)

/-- The word of a magnitude below the bound. -/
def withSign (isz s r : ℕ) : ℕ := if s ≠ 0 then (2 ^ isz - r) % 2 ^ isz else r

section Range

variable {isz s : ℕ} (hw : 1 ≤ isz) (hs : s ≤ 1) (u : Bool)

include hw

theorem two_pow_width : 2 ^ isz = 2 * 2 ^ (isz - 1) := by rw [← pow_succ']; congr 1; omega

theorem intBound_zero : (intBound isz 0 u : ℤ) = intHigh isz u := by
  have hW := two_pow_width hw
  have hpos := Nat.two_pow_pos (isz - 1)
  unfold intBound intHigh
  cases u
  · simp only [Bool.false_eq_true, if_false]
    rw [Nat.zero_xor, Nat.cast_sub (by omega)]
    push_cast
    rfl
  · simp only [if_true]
    rw [Nat.zero_add, Nat.mod_eq_of_lt (by omega), Nat.cast_sub (by omega)]
    push_cast
    rfl

theorem intBound_one : (intBound isz 1 u : ℤ) = -intLow isz u := by
  have hW := two_pow_width hw
  have hpos := Nat.two_pow_pos (isz - 1)
  unfold intBound intLow
  cases u
  · simp
  · simp only [if_true]
    rw [show 1 + (2 ^ isz - 1) = 2 ^ isz by omega, Nat.mod_self]
    simp

theorem intBound_lt : intBound isz s u < 2 ^ isz := by
  have hW := two_pow_width hw
  have hpos := Nat.two_pow_pos (isz - 1)
  unfold intBound
  cases u
  · simp only [Bool.false_eq_true, if_false]
    omega
  · simp only [if_true]
    exact Nat.mod_lt _ (by omega)

include hs

/-- What is out of range saturates and is invalid. -/
theorem bound_yields (fl : FFlags) : YieldsInt isz (intBound isz s u, fl ||| FFLAG_INVALID_OP) fl
    (if decide (s ≠ 0) then intLow isz u else intHigh isz u, { nv := true }) := by
  have hlt := intBound_lt (s := s) hw u
  have hmod : (intBound isz s u : ℤ) % 2 ^ isz = intBound isz s u :=
    Int.emod_eq_of_lt (Int.natCast_nonneg _) (by exact_mod_cast hlt)
  refine ⟨?_, by simp [flagBits]⟩
  obtain rfl | rfl : s = 0 ∨ s = 1 := by omega
  · rw [← hmod, intBound_zero hw]
    simp
  · have h1 := intBound_one hw u
    have hsum : intLow isz u % 2 ^ isz = intBound isz 1 u % 2 ^ isz := by
      cases u
      · have hW : (2 : ℤ) ^ isz = 2 * 2 ^ (isz - 1) := by exact_mod_cast two_pow_width hw
        rw [h1]
        unfold intLow
        simp only [Bool.false_eq_true, if_false, neg_neg]
        rw [hW, ← Int.add_mul_emod_self_left (-2 ^ (isz - 1)) _ 1]
        congr 1
        ring
      · rw [h1]
        simp [intLow]
    rw [← hmod]
    simpa using hsum.symm

/-- **Saturation.**  The rounded magnitude `n` of `q` is compared with the bound of its sign. -/
theorem saturated {m : Rounding} {q : ℚ} {n : ℕ} (hn : roundNat m (decide (s ≠ 0)) q = n) {p : Prop} [Decidable p]
    (hp : p ↔ (n : ℚ) ≠ q) (fl : FFlags) :
    YieldsInt isz (if n > intBound isz s u then (intBound isz s u, fl ||| FFLAG_INVALID_OP)
        else (withSign isz s (n % 2 ^ isz), if p then fl ||| FFLAG_INEXACT else fl)) fl
      (Datum.toInteger m (intLow isz u) (intHigh isz u) (.num (decide (s ≠ 0)) q)) := by
  have hlt := intBound_lt (s := s) hw u
  have hbound := bound_yields hw hs u fl
  have hpos := Nat.two_pow_pos isz
  unfold Datum.toInteger
  dsimp only
  rw [hn]
  have hflags : (if p then fl ||| FFLAG_INEXACT else fl) = fl ||| flagBits { nx := decide ((n : ℚ) ≠ q) } := by
    by_cases h : p
    · simp [h, hp.1 h, flagBits]
    · simp [h, not_not.1 fun h' => h (hp.2 h'), flagBits]
  obtain rfl | rfl : s = 0 ∨ s = 1 := by omega
  · have h0 := intBound_zero hw u
    have hlow : intLow isz u ≤ 0 := by unfold intLow; split_ifs <;> simp
    have hsign : ¬ decide ((0 : ℕ) ≠ 0) = true := by decide
    have hlow' : ¬ (n : ℤ) < intLow isz u := by omega
    rw [if_neg hsign] at hbound
    rw [if_neg hsign, if_neg hlow']
    by_cases hgt : n > intBound isz 0 u
    · have hhigh : intHigh isz u < n := by omega
      rw [if_pos hgt, if_pos hhigh]
      exact hbound
    · have hhigh : ¬ intHigh isz u < n := by omega
      rw [if_neg hgt, if_neg hhigh]
      refine ⟨?_, hflags⟩
      unfold withSign
      rw [if_neg (not_not.2 rfl), Int.natCast_mod]
      push_cast
      rfl
  · have h1 := intBound_one hw u
    have hhigh : 0 ≤ intHigh isz u := by
      have h0 := intBound_zero hw u
      omega
    have hsign : decide ((1 : ℕ) ≠ 0) = true := by decide
    rw [if_pos hsign] at hbound
    rw [if_pos hsign]
    by_cases hgt : n > intBound isz 1 u
    · have hlow : -(n : ℤ) < intLow isz u := by omega
      rw [if_pos hgt, if_pos hlow]
      exact hbound
    · have hlow : ¬ -(n : ℤ) < intLow isz u := by omega
      have hhigh' : ¬ intHigh isz u < -(n : ℤ) := by omega
      rw [if_neg hgt, if_neg hlow, if_neg hhigh']
      refine ⟨?_, hflags⟩
      unfold withSign
      rw [if_pos one_ne_zero, Nat.mod_eq_of_lt (by omega : n < 2 ^ isz), Int.natCast_mod, Nat.cast_sub (by omega)]
      push_cast
      rw [sub_eq_add_neg, add_comm, Int.add_emod_right]

end Range

/-- A mantissa of `mantSize + 1` bits shifted below the unit, as the conversion and `roundPack` do. -/
theorem shifted_rounds {s rm m d : ℕ} (hs : s ≤ 1) (hrm : rm ≤ 4) (hm : m < 2 ^ (f.mantSize + 1)) :
    f.roundMant s (shiftJam (m * 2 ^ f.rndSize) d) rm = roundNat (roundingOf rm) (decide (s ≠ 0)) ((m : ℚ) / 2 ^ d) ∧
      (shiftJam (m * 2 ^ f.rndSize) d &&& (2 ^ f.rndSize - 1) ≠ 0 ↔
        ((roundNat (roundingOf rm) (decide (s ≠ 0)) ((m : ℚ) / 2 ^ d) : ℕ) : ℚ) ≠ m / 2 ^ d) := by
  have hF := f.fSize_eq
  have hlt : m * 2 ^ f.rndSize < 2 ^ (f.fSize - 1) := by
    calc m * 2 ^ f.rndSize < 2 ^ (f.mantSize + 1) * 2 ^ f.rndSize := Nat.mul_lt_mul_of_pos_right hm (Nat.two_pow_pos _)
      _ = 2 ^ (f.fSize - 1) := by rw [← pow_add]; congr 1; omega
  have hjam : shiftJam (m * 2 ^ f.rndSize) d < 2 ^ (f.fSize - 1) := by
    have h := sticky_shiftJam (m * 2 ^ f.rndSize) d
    rw [h.lt_even_iff (by rw [show f.fSize - 1 = f.fSize - 2 + 1 by omega, pow_succ]; omega), div_lt_iff₀ (by positivity)]
    calc ((m * 2 ^ f.rndSize : ℕ) : ℚ) < (2 ^ (f.fSize - 1) : ℕ) := by exact_mod_cast hlt
      _ ≤ _ := le_mul_of_one_le_right (by positivity) (one_le_pow₀ (by norm_num))
  have hsticky : StickyAt (f.rndSize - 2) (shiftJam (m * 2 ^ f.rndSize) d) ((m * 2 ^ f.rndSize : ℕ) / 2 ^ d) :=
    stickyAt_shiftAny ((Sticky.self _).at _) d
  have hval : ((m * 2 ^ f.rndSize : ℕ) : ℚ) / 2 ^ d / 2 ^ f.rndSize = m / 2 ^ d := by
    push_cast
    rw [div_div, mul_comm ((2 : ℚ) ^ d), mul_comm (m : ℚ), mul_div_mul_left _ _ (by positivity)]
  have hbits := f.rndBits_sticky hsticky (roundingOf rm) (decide (s ≠ 0))
  rw [hval] at hbits
  refine ⟨?_, not_congr hbits⟩
  rw [f.roundMant_sticky hsticky hs hrm hjam, hval]

/-- **Float to integer.**  The operand is rounded once; out of range, or for a NaN, the result saturates and only NV is raised. -/
theorem cvtToI_yields {isz a rm : ℕ} (hw : 1 ≤ isz) (hwb : (isz : ℤ) ≤ f.bias + 1) (hmb : (f.mantSize : ℤ) ≤ f.bias + 1)
    (ha : a < 2 ^ f.fSize) (hrm : rm ≤ 4) (fl : FFlags) (u : Bool) :
    YieldsInt isz (f.cvtToI isz a rm fl u) fl ((f.decode a).toInteger (roundingOf rm) (intLow isz u) (intHigh isz u)) := by
  have hs := f.signOf_le ha
  have hb := f.bias_ge
  have hmask := f.expMask_cast
  unfold cvtToI
  dsimp only
  rw [f.halfMask]
  by_cases hsp : f.expOf a = f.expMask
  · -- an infinity or a NaN: beyond every range
    have he0 : ¬ f.expOf a = 0 := fun h => f.expMask_pos.ne' (hsp.symm.trans h)
    have hpos : (f.expOf a : ℤ) - f.bias - f.mantSize ≥ 0 := by omega
    have hbig : ¬ (f.expOf a : ℤ) - f.bias - f.mantSize ≤ (isz : ℤ) - 1 - f.mantSize := by omega
    rw [if_neg he0]
    dsimp only
    rw [if_pos hpos, if_neg hbig, f.decode_special hsp]
    by_cases hm : f.mantOf a = 0
    · have hsign : (if f.expOf a = f.expMask ∧ f.mantOf a ≠ 0 then 0 else f.signOf a) = f.signOf a := if_neg fun h => h.2 hm
      rw [if_pos hm, hsign]
      exact bound_yields hw hs u fl
    · have hsign : (if f.expOf a = f.expMask ∧ f.mantOf a ≠ 0 then 0 else f.signOf a) = 0 := if_pos ⟨hsp, hm⟩
      rw [if_neg hm, hsign]
      exact bound_yields hw (by norm_num) u fl
  · obtain ⟨e, m, he, hm, hlead, heq, hdec⟩ := f.decode_finite hsp
    have hsign : (if f.expOf a = f.expMask ∧ f.mantOf a ≠ 0 then 0 else f.signOf a) = f.signOf a := if_neg fun h => hsp h.1
    have hshl : f.shl m f.rndSize = m * 2 ^ f.rndSize := by
      refine f.shl_eq ?_
      calc m * 2 ^ f.rndSize < 2 ^ (f.mantSize + 1) * 2 ^ f.rndSize := Nat.mul_lt_mul_of_pos_right hm (Nat.two_pow_pos _)
        _ = 2 ^ (f.mantSize + 1 + f.rndSize) := (pow_add ..).symm
        _ ≤ _ := Nat.pow_le_pow_right (by norm_num) (by have := f.fSize_eq; omega)
    rw [hsign, heq, hdec]
    dsimp only
    rw [hshl]
    generalize f.signOf a = s at hs
    by_cases hexp : (e : ℤ) - f.bias - f.mantSize ≥ 0
    · -- an integer, shifted up
      obtain ⟨k, hk⟩ : ∃ k : ℕ, (e : ℤ) - f.bias - f.mantSize = k := ⟨_, (Int.toNat_of_nonneg hexp).symm⟩
      have hl := hlead (by omega)
      have hval : (m : ℚ) * 2 ^ (k : ℤ) = (m * 2 ^ k : ℕ) := by push_cast; rfl
      have hn : ∀ neg, roundNat (roundingOf rm) neg ((m : ℚ) * 2 ^ (k : ℤ)) = m * 2 ^ k := fun neg => by
        have h : (roundNat (roundingOf rm) neg ((m * 2 ^ k : ℕ) : ℚ) : ℚ) = (m * 2 ^ k : ℕ) := by
          rw [roundNat_exact_iff _ _ (Nat.cast_nonneg _), Nat.floor_natCast, sub_self]
        rw [hval]
        exact_mod_cast h
      have hsat := saturated hw hs u (hn (decide (s ≠ 0))) (p := False) (by simp) fl
      rw [if_pos hexp, hk]
      by_cases hfit : (k : ℤ) ≤ (isz : ℤ) - 1 - f.mantSize
      · have hlt : m * 2 ^ k < 2 ^ isz := by
          calc m * 2 ^ k < 2 ^ (f.mantSize + 1) * 2 ^ k := Nat.mul_lt_mul_of_pos_right hm (Nat.two_pow_pos _)
            _ = 2 ^ (f.mantSize + 1 + k) := (pow_add ..).symm
            _ ≤ _ := Nat.pow_le_pow_right (by norm_num) (by omega)
        have hm' : m < 2 ^ isz := lt_of_le_of_lt (Nat.le_mul_of_pos_right _ (Nat.two_pow_pos _)) hlt
        have hword : ((m * 2 ^ f.rndSize) >>> f.rndSize % 2 ^ isz) <<< (k : ℤ).toNat % 2 ^ isz = m * 2 ^ k := by
          rw [Nat.shiftRight_eq_div_pow, Nat.mul_div_cancel _ (Nat.two_pow_pos _), Nat.mod_eq_of_lt hm', Nat.shiftLeft_eq,
            Int.toNat_natCast, Nat.mod_eq_of_lt hlt]
        rw [if_pos hfit, hword]
        rw [if_neg not_false, Nat.mod_eq_of_lt hlt] at hsat
        exact hsat
      · have hgt : m * 2 ^ k > intBound isz s u := by
          refine lt_of_lt_of_le (intBound_lt hw u) ?_
          calc 2 ^ isz ≤ 2 ^ (f.mantSize + k) := Nat.pow_le_pow_right (by norm_num) (by omega)
            _ = 2 ^ f.mantSize * 2 ^ k := pow_add ..
            _ ≤ m * 2 ^ k := Nat.mul_le_mul_right _ hl
        rw [if_neg hfit]
        rw [if_pos hgt] at hsat
        exact hsat
    · -- a shift below the unit, then one rounding
      obtain ⟨d, hd⟩ : ∃ d : ℕ, (e : ℤ) - f.bias - f.mantSize = -d := ⟨(-((e : ℤ) - f.bias - f.mantSize)).toNat, by omega⟩
      have hF : m * 2 ^ f.rndSize < 2 ^ f.fSize := by rw [← hshl]; exact Nat.mod_lt _ (Nat.two_pow_pos _)
      have hjam : f.rshiftRnd (m * 2 ^ f.rndSize) (-(-d : ℤ)) = shiftJam (m * 2 ^ f.rndSize) d := by
        rw [f.rshiftRnd_eq hF (by omega), neg_neg, Int.toNat_natCast]
      have hval : (m : ℚ) * 2 ^ (-d : ℤ) = m / 2 ^ d := by rw [zpow_neg, zpow_natCast, div_eq_mul_inv]
      obtain ⟨hround, hexact⟩ := f.shifted_rounds (s := s) (d := d) hs hrm hm
      have hsat := saturated hw hs u hround.symm (hexact.trans (by rw [hround])) fl
      rw [if_neg hexp, hd, hjam, hval]
      exact hsat

/-! ## From an integer -/

/-- The integer a word of `isz` bits stands for. -/
def intOf (isz a : ℕ) (unsigned : Bool) : ℤ := if !unsigned && decide (2 ^ (isz - 1) ≤ a) then (a : ℤ) - 2 ^ isz else a

theorem jam_eq (r d : ℕ) : r >>> d ||| (if r &&& (2 ^ d - 1) ≠ 0 then 1 else 0) = shiftJam r d := by
  unfold shiftJam
  rw [Nat.and_two_pow_sub_one_eq_mod, Nat.shiftRight_eq_div_pow]
  split_ifs <;> first | rfl | contradiction

/-- A nonzero magnitude too long for the mantissa is shifted down with a sticky bit, and rounded once. -/
theorem magnitude_yields {s r rm isz : ℕ} (hs : s ≤ 1) (hrm : rm ≤ 4) (hr : r < 2 ^ isz) (h0 : r ≠ 0) (fl : FFlags)
    {l : ℤ} (hl : l = (isz : ℤ) - (isz - r.size : ℕ) - ((f.fSize : ℤ) - 1)) {p : ℤ × ℕ}
    (hp : p = if l > 0 then ((f.expMask / 2 : ℕ) + f.fSize - 2 + l,
        r >>> l.toNat ||| (if r &&& (2 ^ l.toNat - 1) ≠ 0 then 1 else 0)) else ((f.expMask / 2 : ℕ) + f.fSize - 2, r)) :
    f.Yields (f.normalize s p.1 (p.2 % 2 ^ f.fSize) rm fl) fl (f.format.round (roundingOf rm) (decide (s ≠ 0)) r) := by
  have hF := f.fSize_eq
  have hR := f.rndSize_ge
  have hsize : r.size ≤ isz := Nat.size_le.2 hr
  have hlow : 2 ^ (r.size - 1) ≤ r := Nat.lt_size.1 (by have := Nat.size_pos.2 (Nat.pos_of_ne_zero h0); omega)
  have hhigh : r < 2 ^ r.size := Nat.lt_size_self r
  have hmag : ∀ y, f.magnitude (f.bias + f.fSize - 2) y = y := fun y => by
    unfold magnitude
    rw [show f.bias + f.fSize - 2 - f.bias - f.mantSize - f.rndSize = 0 by omega, zpow_zero, mul_one]
  have hword : ∀ {n : ℕ}, n < 2 ^ (f.fSize - 1) → n % 2 ^ f.fSize = n := fun h =>
    Nat.mod_eq_of_lt (lt_trans h (Nat.pow_lt_pow_right (by norm_num) (by omega)))
  rw [f.halfMask] at hp
  by_cases hpos : l > 0
  · obtain ⟨k, rfl⟩ : ∃ k : ℕ, l = k := ⟨l.toNat, by omega⟩
    rw [if_pos hpos, Int.toNat_natCast, jam_eq] at hp
    rw [hp]
    dsimp only
    have hsz : r.size = k + (f.fSize - 1) := by omega
    have hsticky := sticky_shiftJam r k
    have h1 : 2 ^ (f.fSize - 2) ≤ shiftJam r k := by
      rw [hsticky.even_le_iff (by rw [show f.fSize - 2 = f.fSize - 3 + 1 by omega, pow_succ]; omega), le_div_iff₀ (by positivity)]
      have h : 2 ^ (f.fSize - 2) * 2 ^ k ≤ r := by
        rw [← pow_add]
        exact le_trans (Nat.pow_le_pow_right (by norm_num) (by omega)) hlow
      exact_mod_cast h
    have h2 : shiftJam r k < 2 ^ (f.fSize - 1) := by
      rw [hsticky.lt_even_iff (by rw [show f.fSize - 1 = f.fSize - 2 + 1 by omega, pow_succ]; omega), div_lt_iff₀ (by positivity)]
      have h : r < 2 ^ (f.fSize - 1) * 2 ^ k := by
        rw [← pow_add, show f.fSize - 1 + k = r.size by omega]
        exact hhigh
      exact_mod_cast h
    have hne : shiftJam r k ≠ 0 := by
      have := Nat.two_pow_pos (f.fSize - 2)
      omega
    have h := f.normalize_yields hs hrm hne h2 (Or.inr ⟨0, f.fSize - 2, hsticky.at 0, h1, by omega⟩) (f.bias + f.fSize - 2 + k) fl
    rw [f.magnitude_succ, hmag] at h
    rw [hword h2]
    exact h
  · rw [if_neg hpos] at hp
    rw [hp]
    dsimp only
    have h2 : r < 2 ^ (f.fSize - 1) := lt_of_lt_of_le hhigh (Nat.pow_le_pow_right (by norm_num) (by omega))
    have h := f.normalize_yields hs hrm h0 h2 (Or.inl rfl) (f.bias + f.fSize - 2) fl
    rw [hmag] at h
    rw [hword h2]
    exact h

/-- **Integer to float**, rounded once. -/
theorem cvtFromI_yields {isz a rm : ℕ} (ha : a < 2 ^ isz) (hrm : rm ≤ 4) (fl : FFlags) (u : Bool) :
    f.Yields (f.cvtFromI isz a rm fl u) fl (f.format.ofInteger (roundingOf rm) (intOf isz a u)) := by
  unfold cvtFromI intOf Format.ofInteger
  by_cases hneg : (!u && decide (2 ^ (isz - 1) ≤ a)) = true
  · rw [if_pos hneg, if_pos hneg]
    have htop : 2 ^ (isz - 1) ≤ a := by
      rw [Bool.and_eq_true, decide_eq_true_iff] at hneg
      exact hneg.2
    have hpos := Nat.two_pow_pos (isz - 1)
    have hr : 2 ^ isz - a < 2 ^ isz := by omega
    have hv : (a : ℤ) - 2 ^ isz = -((2 ^ isz - a : ℕ) : ℤ) := by
      rw [Nat.cast_sub ha.le]
      push_cast
      ring
    rw [Nat.mod_eq_of_lt hr, hv]
    have hne : -((2 ^ isz - a : ℕ) : ℤ) ≠ 0 := by omega
    have hlt : -((2 ^ isz - a : ℕ) : ℤ) < 0 := by omega
    have habs : |((-((2 ^ isz - a : ℕ) : ℤ) : ℤ) : ℚ)| = (2 ^ isz - a : ℕ) := by
      rw [Int.cast_neg, abs_neg, Int.cast_natCast, Nat.abs_cast]
    rw [if_neg hne, decide_eq_true hlt, habs]
    exact f.magnitude_yields (by norm_num) hrm hr (by omega) fl rfl rfl
  · rw [if_neg hneg, if_neg hneg]
    by_cases h0 : a = 0
    · subst h0
      have hl : ¬ (isz : ℤ) - (isz - Nat.size 0 : ℕ) - ((f.fSize : ℤ) - 1) > 0 := by
        have hF := f.fSize_eq
        rw [Nat.size_zero]
        omega
      dsimp only
      rw [if_neg hl]
      dsimp only
      rw [Nat.zero_mod, f.normalize_zero]
      exact f.yields_zero (by norm_num) fl
    · have hne : (a : ℤ) ≠ 0 := by omega
      have hlt : ¬ (a : ℤ) < 0 := by omega
      have habs : |((a : ℤ) : ℚ)| = (a : ℕ) := by rw [Int.cast_natCast, Nat.abs_cast]
      rw [if_neg hne, decide_eq_false hlt, habs]
      exact f.magnitude_yields (by norm_num) hrm ha h0 fl rfl rfl

end Sf

/-! ## Between the two formats -/

section Formats

variable {a : ℕ}

theorem convert_nan (F : Format) (m : Rounding) {x : Datum} (h : x.isNan = true) : F.convert m x = propagate x.isSignaling := by
  unfold Format.convert
  rw [if_pos h]

theorem convert_self (F : Format) (m : Rounding) {x : Datum} (h : x.isNan = false) (hx : (x.isInf || x.isZero) = true) :
    F.convert m x = (x, {}) := by
  unfold Format.convert
  rw [h, if_neg Bool.false_ne_true, if_pos hx]

theorem convert_num (F : Format) (m : Rounding) {s : Bool} {q : ℚ} (hq : 0 < q) : F.convert m (.num s q) = F.round m s q := by
  unfold Format.convert
  rw [Datum.abs_toRat_num s hq.le]
  simp [Datum.isNan, Datum.isInf, Datum.isZero, Datum.neg, hq.ne']

/-- The special operands of a conversion: NaN, infinity and zero. -/
theorem convert_special (f g : Sf) (m : Rounding) (ha : a < 2 ^ f.fSize) (fl : FFlags) :
    (f.expOf a = f.expMask → f.mantOf a ≠ 0 →
      g.Yields (g.qnan, Sf.invalidOpIf (f.isSignan a) fl) fl (g.format.convert m (f.decode a))) ∧
    (f.expOf a = f.expMask → f.mantOf a = 0 →
      g.Yields (g.pack (f.signOf a) g.expMask 0, fl) fl (g.format.convert m (f.decode a))) ∧
    (f.expOf a = 0 → f.mantOf a = 0 → g.Yields (g.pack (f.signOf a) 0 0, fl) fl (g.format.convert m (f.decode a))) := by
  have hs := f.signOf_le ha
  refine ⟨fun he hm => ?_, fun he hm => ?_, fun he hm => ?_⟩
  · rw [convert_nan _ _ ((f.isNan_decode a).trans ((f.isNan_iff a).2 ⟨he, hm⟩)), f.isSignaling_decode]
    exact g.yields_nan fl _
  · have hd : f.decode a = .inf (decide (f.signOf a ≠ 0)) := by rw [f.decode_special he, if_pos hm]
    rw [hd, convert_self _ _ rfl rfl]
    exact g.yields_inf hs fl
  · have hd : f.decode a = .num (decide (f.signOf a ≠ 0)) 0 := by
      unfold Sf.decode
      simp [he, hm, f.expMask_pos.ne]
    rw [hd, convert_self _ _ rfl (by simp [Datum.isInf, Datum.isZero])]
    exact g.yields_zero hs fl

/-- A finite encoding of the operand itself is its conversion. -/
theorem convert_exact (g : Sf) (m : Rounding) {s : ℕ} {q : ℚ} (hq : 0 < q) {r : ℕ} (hr : r < 2 ^ g.fSize)
    (hd : g.decode r = .num (decide (s ≠ 0)) q) (fl : FFlags) :
    g.Yields (r, fl) fl (g.format.convert m (.num (decide (s ≠ 0)) q)) := by
  have hfin : g.expOf r ≠ g.expMask := fun h => by
    rw [g.decode_special h] at hd
    split_ifs at hd
  have hround := g.round_decode hfin m (decide (s ≠ 0))
  rw [hd, Datum.abs_toRat_num _ hq.le] at hround
  rw [convert_num _ _ hq, hround, ← hd]
  exact g.yields_self hr (g.not_nan_of_finite hfin) fl

/-! ### Single to double -/

theorem bias32 : sf32.bias = 127 := rfl

theorem bias64 : sf64.bias = 1023 := rfl

/-- The fields the conversion assembles. -/
theorem widen_pack (s : ℕ) {e m : ℕ} (he : e ≤ 2047) (hm : m < 2 ^ 23) :
    shl64 s 63 ||| e <<< 52 ||| m <<< (52 - 23) = sf64.pack s e (m * 2 ^ 29) := by
  have h1 : sf64.shl e sf64.mantSize = e <<< 52 := by
    rw [sf64.shl_eq, Nat.shiftLeft_eq]
    · rfl
    · calc e * 2 ^ sf64.mantSize ≤ 2047 * 2 ^ 52 := Nat.mul_le_mul_right _ he
        _ < 2 ^ sf64.fSize := by decide
  have h2 : (m * 2 ^ 29) &&& sf64.mantMask = m <<< (52 - 23) := by
    have hlt : m * 2 ^ 29 < 2 ^ sf64.mantSize := by
      calc m * 2 ^ 29 < 2 ^ 23 * 2 ^ 29 := Nat.mul_lt_mul_of_pos_right hm (by norm_num)
        _ = 2 ^ sf64.mantSize := by decide
    unfold Sf.mantMask
    rw [Nat.and_two_pow_sub_one_eq_mod, Nat.mod_eq_of_lt hlt, Nat.shiftLeft_eq]
  unfold Sf.pack
  rw [h1, h2]
  rfl

theorem widen_pack_zero (s : ℕ) {e : ℕ} (he : e ≤ 2047) : shl64 s 63 ||| e <<< 52 = sf64.pack s e 0 := by
  have h := widen_pack s (m := 0) he (by norm_num)
  rwa [Nat.zero_shiftLeft, Nat.or_zero, Nat.zero_mul] at h

/-- A normalized single-precision mantissa, widened. -/
theorem widen_yields {s m : ℕ} {e : ℤ} (hs : s ≤ 1) (he : -22 ≤ e) (he' : e ≤ 254) (hl : 2 ^ 23 ≤ m) (hu : m < 2 ^ 24) (rm : Rounding)
    (fl : FFlags) : sf64.Yields (shl64 s 63 ||| (e - 0x7f + 0x3ff).toNat <<< 52 ||| (m - 2 ^ 23) <<< (52 - 23), fl) fl
      (sf64.format.convert rm (.num (decide (s ≠ 0)) (m * 2 ^ (e - sf32.bias - sf32.mantSize)))) := by
  obtain ⟨k, hk⟩ : ∃ k : ℕ, e - 0x7f + 0x3ff = k := ⟨(e - 0x7f + 0x3ff).toNat, by omega⟩
  have hm0 : 0 < m := lt_of_lt_of_le (by norm_num) hl
  have hmask : sf64.expMask = 2047 := rfl
  rw [hk, Int.toNat_natCast, widen_pack s (by omega) (by omega)]
  refine convert_exact sf64 rm (by positivity) (sf64.pack_lt hs (by omega)) ?_ fl
  rw [sf64.decode_pack_normal hs (by omega) (by omega)]
  have hlt : (m - 2 ^ 23) * 2 ^ 29 < 2 ^ sf64.mantSize := by
    calc (m - 2 ^ 23) * 2 ^ 29 < 2 ^ 23 * 2 ^ 29 := Nat.mul_lt_mul_of_pos_right (by omega) (by norm_num)
      _ = 2 ^ sf64.mantSize := by decide
  have hsum : 2 ^ sf64.mantSize + (m - 2 ^ 23) * 2 ^ 29 = m * 2 ^ 29 := by
    have hM : 2 ^ sf64.mantSize = 2 ^ 23 * 2 ^ 29 := by decide
    rw [hM, ← Nat.add_mul, Nat.add_sub_cancel' hl]
  have hexp : (29 : ℕ) + ((k : ℤ) - sf64.bias - sf64.mantSize) = e - sf32.bias - sf32.mantSize := by
    rw [bias64, bias32, show ((sf64.mantSize : ℕ) : ℤ) = 52 from rfl, show ((sf32.mantSize : ℕ) : ℤ) = 23 from rfl]
    omega
  have hcast : ((m * 2 ^ 29 : ℕ) : ℚ) = m * 2 ^ (29 : ℕ) := by push_cast; rfl
  rw [Nat.mod_eq_of_lt hlt, hsum, ← hexp, ← Sf.two_zpow_split, hcast, mul_assoc]

/-- A subnormal mantissa shifted up to its hidden bit. -/
theorem normalize_subnormal32 {m : ℕ} (h0 : m ≠ 0) (hm : m < 2 ^ 23) :
    sf32.normalizeSubnormal m = (1 - ((23 - (31 - (32 - m.size)) : ℕ) : ℤ), shl32 m (23 - (31 - (32 - m.size)))) := by
  have h1 : 0 < m.size := Nat.size_pos.2 (Nat.pos_of_ne_zero h0)
  have h2 : m.size ≤ 23 := Nat.size_le.2 hm
  have hshift : (sf32.mantSize : ℤ) - (sf32.fSize - 1 - sf32.leadingZeros m) = ((23 - (31 - (32 - m.size)) : ℕ) : ℤ) := by
    have hlz : sf32.leadingZeros m = 32 - m.size := rfl
    rw [hlz, show ((sf32.mantSize : ℕ) : ℤ) = 23 from rfl, show ((sf32.fSize : ℕ) : ℤ) = 32 from rfl]
    omega
  unfold Sf.normalizeSubnormal
  rw [hshift]
  rfl

/-- **Single to double is exact.** -/
theorem cvtSf32Sf64_yields {a : ℕ} (ha : a < 2 ^ sf32.fSize) (rm : Rounding) (fl : FFlags) :
    sf64.Yields (cvtSf32Sf64 a fl) fl (sf64.format.convert rm (sf32.decode a)) := by
  obtain ⟨hnan, hinf, hzero⟩ := convert_special sf32 sf64 rm ha fl
  have hs := sf32.signOf_le ha
  have he255 := sf32.expOf_lt a
  have hE : 2 ^ sf32.expSize = 256 := rfl
  have hmant := sf32.mantOf_lt a
  have hM : 2 ^ sf32.mantSize = 2 ^ 23 := rfl
  rw [hE] at he255
  rw [hM] at hmant
  unfold cvtSf32Sf64
  change sf64.Yields (if sf32.expOf a = sf32.expMask then
      if sf32.mantOf a ≠ 0 then (sf64.qnan, Sf.invalidOpIf (sf32.isSignan a) fl) else (shl64 (sf32.signOf a) 63 ||| 0x7ff <<< 52, fl)
    else if sf32.expOf a = 0 then
      if sf32.mantOf a = 0 then (shl64 (sf32.signOf a) 63, fl)
      else (shl64 (sf32.signOf a) 63 |||
          ((1 : ℤ) - ((23 - (31 - (32 - (sf32.mantOf a).size)) : ℕ) : ℤ) - 0x7f + 0x3ff).toNat <<< 52 |||
        (shl32 (sf32.mantOf a) (23 - (31 - (32 - (sf32.mantOf a).size))) &&& 0x7fffff) <<< (52 - 23), fl)
    else (shl64 (sf32.signOf a) 63 ||| (sf32.expOf a + 0x3ff - 0x7f) <<< 52 ||| sf32.mantOf a <<< (52 - 23), fl)) fl _
  have hmask : sf32.expMask = 255 := rfl
  by_cases hsp : sf32.expOf a = sf32.expMask
  · rw [if_pos hsp]
    by_cases hm : sf32.mantOf a = 0
    · have h := hinf hsp hm
      rw [show sf64.expMask = 2047 from rfl, ← widen_pack_zero _ le_rfl] at h
      rw [if_neg (not_not.2 hm)]
      exact h
    · rw [if_pos hm]
      exact hnan hsp hm
  · rw [if_neg hsp]
    by_cases hz : sf32.expOf a = 0 ∧ sf32.mantOf a = 0
    · have h := hzero hz.1 hz.2
      rw [← widen_pack_zero _ (Nat.zero_le _), Nat.zero_shiftLeft, Nat.or_zero] at h
      rw [if_pos hz.1, if_pos hz.2]
      exact h
    · obtain ⟨e, m, hl, hu, hn, hd⟩ := sf32.decode_normalized hsp hz
      rw [hd]
      by_cases h0 : sf32.expOf a = 0
      · have hm0 : sf32.mantOf a ≠ 0 := fun h => hz ⟨h0, h⟩
        rw [if_pos h0, normalize_subnormal32 hm0 hmant, Prod.mk.injEq] at hn
        have hlow : shl32 (sf32.mantOf a) (23 - (31 - (32 - (sf32.mantOf a).size))) &&& 0x7fffff = m - 2 ^ 23 := by
          rw [hn.2, show (0x7fffff : ℕ) = 2 ^ 23 - 1 by norm_num, Nat.and_two_pow_sub_one_eq_mod]
          have hu' : m < 2 ^ 24 := hu
          have hl' : 2 ^ 23 ≤ m := hl
          omega
        rw [if_pos h0, if_neg hm0, hlow, hn.1]
        exact widen_yields hs (by omega) (by omega) hl hu rm fl
      · rw [if_neg h0, Sf.or_leading (sf32.mantOf_lt a), Prod.mk.injEq] at hn
        have hexp : sf32.expOf a + 0x3ff - 0x7f = (e - 0x7f + 0x3ff).toNat := by omega
        have hlow : sf32.mantOf a = m - 2 ^ 23 := by
          rw [← hn.2, hM, Nat.add_sub_cancel_left]
        rw [if_neg h0, hexp, hlow]
        exact widen_yields hs (by omega) (by omega) hl hu rm fl

/-! ### Double to single -/

theorem rshiftRndU64_eq (a : ℕ) (d : ℤ) : rshiftRndU64 a d = sf64.rshiftRnd a d := rfl

/-- The local copy of `roundPack` computes what the single-precision one does. -/
theorem roundPackSf32_eq (sign : ℕ) (exp : ℤ) {mant : ℕ} (hm : mant < 2 ^ 32) (rm : ℕ) (fl : FFlags) :
    roundPackSf32 sign exp mant rm fl = sf32.roundPack sign exp mant rm fl := by
  by_cases he : exp ≤ 0
  · have h64 : mant < 2 ^ sf64.fSize := lt_trans hm (by decide)
    have hjam : shiftJam mant (1 - exp).toNat < 2 ^ 32 := by
      have h := sticky_shiftJam mant (1 - exp).toNat
      rw [h.lt_even_iff (by norm_num), div_lt_iff₀ (by positivity)]
      calc (mant : ℚ) < (2 ^ 32 : ℕ) := by exact_mod_cast hm
        _ ≤ _ := le_mul_of_one_le_right (by positivity) (one_le_pow₀ (by norm_num))
    have hshift : rshiftRndU64 mant (1 - exp) % 2 ^ 32 = sf32.rshiftRnd mant (1 - exp) := by
      rw [rshiftRndU64_eq, sf64.rshiftRnd_eq h64 (by omega), sf32.rshiftRnd_eq hm (by omega), Nat.mod_eq_of_lt hjam]
    rw [sf32.roundPack_of_nonpos _ _ _ _ he, ← hshift]
    unfold roundPackSf32
    simp only [if_pos he]
    rfl
  · rw [sf32.roundPack_of_pos _ _ _ _ (not_le.1 he)]
    unfold roundPackSf32
    simp only [if_neg he]
    rfl

/-- A subnormal mantissa shifted up to its hidden bit. -/
theorem normalize_subnormal64 {m : ℕ} (h0 : m ≠ 0) (hm : m < 2 ^ 52) :
    sf64.normalizeSubnormal m = (1 - ((52 - (63 - (64 - m.size)) : ℕ) : ℤ), shl64 m (52 - (63 - (64 - m.size)))) := by
  have h1 : 0 < m.size := Nat.size_pos.2 (Nat.pos_of_ne_zero h0)
  have h2 : m.size ≤ 52 := Nat.size_le.2 hm
  have hshift : (sf64.mantSize : ℤ) - (sf64.fSize - 1 - sf64.leadingZeros m) = ((52 - (63 - (64 - m.size)) : ℕ) : ℤ) := by
    have hlz : sf64.leadingZeros m = 64 - m.size := rfl
    rw [hlz, show ((sf64.mantSize : ℕ) : ℤ) = 52 from rfl, show ((sf64.fSize : ℕ) : ℤ) = 64 from rfl]
    omega
  unfold Sf.normalizeSubnormal
  rw [hshift]
  rfl

/-- A normalized double-precision mantissa, cut to 31 bits with a sticky bit, is rounded once. -/
theorem narrow_yields {s m rm : ℕ} {e : ℤ} (hs : s ≤ 1) (hrm : rm ≤ 4) (hl : 2 ^ 52 ≤ m) (hu : m < 2 ^ 53) (fl : FFlags) :
    sf32.Yields (normalizeSf32From s (e - 0x3ff + 0x7f) (rshiftRndU64 m (52 - 30) % 2 ^ 32) rm fl) fl
      (sf32.format.convert (roundingOf rm) (.num (decide (s ≠ 0)) (m * 2 ^ (e - sf64.bias - sf64.mantSize)))) := by
  have hm0 : 0 < m := lt_of_lt_of_le (by norm_num) hl
  have hjam : rshiftRndU64 m (52 - 30) = shiftJam m 22 := by
    rw [rshiftRndU64_eq, sf64.rshiftRnd_eq (lt_trans hu (by decide)) (by norm_num)]
    rfl
  have hsticky := sticky_shiftJam m 22
  have h1 : 2 ^ 30 ≤ shiftJam m 22 := by
    rw [hsticky.even_le_iff (by norm_num), le_div_iff₀ (by positivity)]
    exact_mod_cast (by omega : 2 ^ 30 * 2 ^ 22 ≤ m)
  have h2 : shiftJam m 22 < 2 ^ 31 := by
    rw [hsticky.lt_even_iff (by norm_num), div_lt_iff₀ (by positivity)]
    exact_mod_cast (by omega : m < 2 ^ 31 * 2 ^ 22)
  have h32 : shiftJam m 22 < 2 ^ 32 := lt_trans h2 (by norm_num)
  have hsize : (shiftJam m 22).size = 31 := le_antisymm (Nat.size_le.2 h2) (Nat.lt_size.2 h1)
  have hmag : sf32.magnitude (e - 0x3ff + 0x7f) ((m : ℚ) / 2 ^ 22) = m * 2 ^ (e - sf64.bias - sf64.mantSize) := by
    unfold Sf.magnitude
    rw [div_mul_eq_mul_div, mul_div_assoc, ← zpow_natCast, ← zpow_sub₀ (by norm_num)]
    congr 2
    rw [bias32, bias64, show ((sf32.mantSize : ℕ) : ℤ) = 23 from rfl, show ((sf32.rndSize : ℕ) : ℤ) = 7 from rfl,
      show ((sf64.mantSize : ℕ) : ℤ) = 52 from rfl]
    omega
  have hround := @Sf.roundPack_yields sf32 s _ rm (e - 0x3ff + 0x7f) _ hs hrm h1 h2 (hsticky.at 5) fl
  rw [hmag] at hround
  unfold normalizeSf32From
  rw [hjam, Nat.mod_eq_of_lt h32, hsize, convert_num _ _ (by positivity)]
  have hshl : shl32 (shiftJam m 22) (((32 - 31 : ℕ) : ℤ) - 1).toNat = shiftJam m 22 := by
    unfold shl32
    rw [show (((32 - 31 : ℕ) : ℤ) - 1).toNat = 0 from rfl, Nat.shiftLeft_zero, Nat.mod_eq_of_lt h32]
  dsimp only
  rw [hshl, show e - 0x3ff + 0x7f - (((32 - 31 : ℕ) : ℤ) - 1) = e - 0x3ff + 0x7f by omega, roundPackSf32_eq s _ h32]
  exact hround

/-- **Double to single**, rounded once. -/
theorem cvtSf64Sf32_yields {a rm : ℕ} (ha : a < 2 ^ sf64.fSize) (hrm : rm ≤ 4) (fl : FFlags) :
    sf32.Yields (cvtSf64Sf32 a rm fl) fl (sf32.format.convert (roundingOf rm) (sf64.decode a)) := by
  obtain ⟨hnan, hinf, hzero⟩ := convert_special sf64 sf32 (roundingOf rm) ha fl
  have hs := sf64.signOf_le ha
  have hmant : sf64.mantOf a < 2 ^ 52 := sf64.mantOf_lt a
  unfold cvtSf64Sf32
  change sf32.Yields (if sf64.expOf a = sf64.expMask then
      if sf64.mantOf a ≠ 0 then (sf32.qnan, Sf.invalidOpIf (sf64.isSignan a) fl) else (sf32.pack (sf64.signOf a) sf32.expMask 0, fl)
    else if sf64.expOf a = 0 ∧ sf64.mantOf a = 0 then (sf32.pack (sf64.signOf a) 0 0, fl)
    else
      normalizeSf32From (sf64.signOf a) ((if sf64.expOf a = 0 then
          ((1 : ℤ) - ((52 - (63 - (64 - (sf64.mantOf a).size)) : ℕ) : ℤ), shl64 (sf64.mantOf a) (52 - (63 - (64 - (sf64.mantOf a).size))))
        else ((sf64.expOf a : ℤ), sf64.mantOf a ||| 2 ^ 52)).1 - 0x3ff + 0x7f)
        (rshiftRndU64 (if sf64.expOf a = 0 then
          ((1 : ℤ) - ((52 - (63 - (64 - (sf64.mantOf a).size)) : ℕ) : ℤ), shl64 (sf64.mantOf a) (52 - (63 - (64 - (sf64.mantOf a).size))))
        else ((sf64.expOf a : ℤ), sf64.mantOf a ||| 2 ^ 52)).2 (52 - 30) % 2 ^ 32) rm fl) fl _
  by_cases hsp : sf64.expOf a = sf64.expMask
  · rw [if_pos hsp]
    by_cases hm : sf64.mantOf a = 0
    · rw [if_neg (not_not.2 hm)]
      exact hinf hsp hm
    · rw [if_pos hm]
      exact hnan hsp hm
  · rw [if_neg hsp]
    by_cases hz : sf64.expOf a = 0 ∧ sf64.mantOf a = 0
    · rw [if_pos hz]
      exact hzero hz.1 hz.2
    · obtain ⟨e, m, hl, hu, hn, hd⟩ := sf64.decode_normalized hsp hz
      have hpair : (if sf64.expOf a = 0 then
          ((1 : ℤ) - ((52 - (63 - (64 - (sf64.mantOf a).size)) : ℕ) : ℤ), shl64 (sf64.mantOf a) (52 - (63 - (64 - (sf64.mantOf a).size))))
        else ((sf64.expOf a : ℤ), sf64.mantOf a ||| 2 ^ 52)) = (e, m) := by
        by_cases h0 : sf64.expOf a = 0
        · rw [if_pos h0, normalize_subnormal64 (fun h => hz ⟨h0, h⟩) hmant] at hn
          rw [if_pos h0, hn]
        · rw [if_neg h0] at hn
          rw [if_neg h0]
          exact hn
      rw [if_neg hz, hpair, hd]
      exact narrow_yields hs hrm hl hu fl

end Formats

end Lish.SoftFp
