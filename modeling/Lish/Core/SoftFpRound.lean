import Mathlib.Algebra.Order.Floor.Semifield
import Mathlib.Tactic.IntervalCases
import Mathlib.Tactic.Positivity
import Lish.Ieee.Round
import Lish.Core.SoftFp
/-!
# SoftFpRound — `roundPack` rounds once

An encoding decodes to a datum of the format.  `roundPack` applied to a mantissa that stands for a magnitude, two bits
below the unit and up to a sticky bit, yields the encoding and the flags of that magnitude rounded (`roundPack_yields`);
so do `normalize` and `normalize2`.
-/
namespace Lish.SoftFp

open Lish.Ieee

/-- The rounding mode of an `frm` value (`0..4`). -/
def roundingOf (rm : ℕ) : Rounding :=
  if rm = RM_RNE then .rne else if rm = RM_RTZ then .rtz else if rm = RM_RDN then .rdn
  else if rm = RM_RUP then .rup else .rmm

/-- The fflags bits of a set of exceptions. -/
def flagBits (e : Flags) : FFlags :=
  (if e.nv then FFLAG_INVALID_OP else 0) ||| (if e.dz then FFLAG_DIVIDE_ZERO else 0) |||
  (if e.of then FFLAG_OVERFLOW else 0) ||| (if e.uf then FFLAG_UNDERFLOW else 0) |||
  (if e.nx then FFLAG_INEXACT else 0)

namespace Sf

variable (f : Sf)

def bias : ℤ := 2 ^ (f.expSize - 1) - 1

def format : Format := ⟨f.mantSize + 1, f.bias⟩

/-- The datum an encoding stands for. -/
def decode (a : ℕ) : Datum :=
  let neg := decide (f.signOf a ≠ 0)
  if f.expOf a = f.expMask then
    if f.mantOf a = 0 then .inf neg else .nan (decide (f.mantOf a < f.qnanMask))
  else if f.expOf a = 0 then .num neg (f.mantOf a * 2 ^ (1 - f.bias - f.mantSize))
  else .num neg ((2 ^ f.mantSize + f.mantOf a : ℕ) * 2 ^ (f.expOf a - f.bias - f.mantSize))

/-- A computed result is the encoding of the specified datum (a NaN result is the canonical one) and accrues exactly
the specified exceptions. -/
def Yields (r : ℕ × FFlags) (fl : FFlags) (d : Datum × Flags) : Prop :=
  r.1 < 2 ^ f.fSize ∧ f.decode r.1 = d.1 ∧ (d.1.isNan = true → r.1 = f.qnan) ∧ r.2 = fl ||| flagBits d.2

/-! ## Sizes -/

theorem rndSize_eq : f.rndSize = f.expSize - 1 := by
  have := f.layout; have := f.exp_ge; unfold rndSize imantSize; omega

theorem fSize_eq : f.fSize = f.mantSize + f.rndSize + 2 := by
  have := f.layout; have := f.exp_ge; rw [rndSize_eq]; omega

theorem rndSize_ge : 4 ≤ f.rndSize := by have := f.exp_ge; rw [rndSize_eq]; omega

theorem two_pow_fSize : 2 ^ f.fSize = 4 * 2 ^ f.mantSize * 2 ^ f.rndSize := by
  rw [fSize_eq, pow_add, pow_add]; ring

theorem two_pow_fSize_sub_one : 2 ^ (f.fSize - 1) = 2 * 2 ^ f.mantSize * 2 ^ f.rndSize := by
  rw [fSize_eq, show f.mantSize + f.rndSize + 2 - 1 = f.mantSize + f.rndSize + 1 by omega, pow_add, pow_add]; ring

theorem two_pow_fSize_sub_two : 2 ^ (f.fSize - 2) = 2 ^ f.mantSize * 2 ^ f.rndSize := by
  rw [fSize_eq, show f.mantSize + f.rndSize + 2 - 2 = f.mantSize + f.rndSize by omega, pow_add]

theorem two_pow_expSize : 2 ^ f.expSize = 2 * 2 ^ f.rndSize := by
  rw [rndSize_eq, ← pow_succ', Nat.sub_add_cancel (by have := f.exp_ge; omega)]

theorem rndPow_ge : 16 ≤ 2 ^ f.rndSize :=
  le_trans (by norm_num) (Nat.pow_le_pow_right (by norm_num : 0 < 2) f.rndSize_ge)

theorem expMask_eq : f.expMask = 2 * 2 ^ f.rndSize - 1 := by unfold expMask; rw [two_pow_expSize]

theorem bias_eq : f.bias = 2 ^ f.rndSize - 1 := by unfold bias; rw [rndSize_eq]

theorem expMask_cast : (f.expMask : ℤ) = 2 * f.bias + 1 := by
  have := f.rndPow_ge
  rw [expMask_eq, bias_eq, Nat.cast_sub (by omega)]; push_cast; ring

theorem bias_ge : 15 ≤ f.bias := by
  have h : (16 : ℤ) ≤ 2 ^ f.rndSize := by exact_mod_cast f.rndPow_ge
  rw [bias_eq]; omega

@[simp] theorem format_emin : f.format.emin = 1 - f.bias := rfl

theorem format_quantum (e : ℤ) : f.format.quantum e = 2 ^ (e - f.mantSize) := by
  unfold Format.quantum format; push_cast; congr 1; ring

theorem maxFinite_eq : f.format.maxFinite = (2 ^ (f.mantSize + 1) - 1 : ℕ) * 2 ^ (f.bias - f.mantSize) := by
  unfold Format.maxFinite
  rw [format_quantum]
  change (2 : ℚ) ^ (f.bias + 1) - 2 ^ (f.bias - f.mantSize) = _
  rw [Nat.cast_sub Nat.one_le_two_pow, show f.bias + 1 = ((f.mantSize + 1 : ℕ) : ℤ) + (f.bias - f.mantSize) by push_cast; ring,
    zpow_add₀ (by norm_num), zpow_natCast]
  push_cast; ring

/-! ## Fields of a packed encoding -/

theorem mantOf_eq (a : ℕ) : f.mantOf a = a % 2 ^ f.mantSize := Nat.and_two_pow_sub_one_eq_mod a f.mantSize

theorem expOf_eq (a : ℕ) : f.expOf a = a / 2 ^ f.mantSize % 2 ^ f.expSize := by
  unfold expOf expMask; rw [Nat.and_two_pow_sub_one_eq_mod, Nat.shiftRight_eq_div_pow]

theorem signOf_eq (a : ℕ) : f.signOf a = a / 2 ^ (f.fSize - 1) := Nat.shiftRight_eq_div_pow _ _

theorem mantOf_lt (a : ℕ) : f.mantOf a < 2 ^ f.mantSize := by rw [mantOf_eq]; exact Nat.mod_lt _ (Nat.two_pow_pos _)

theorem expOf_lt (a : ℕ) : f.expOf a < 2 ^ f.expSize := by rw [expOf_eq]; exact Nat.mod_lt _ (Nat.two_pow_pos _)

theorem two_pow_sign : 2 ^ (f.fSize - 1) = 2 ^ f.expSize * 2 ^ f.mantSize := by
  rw [← pow_add]; congr 1; have := f.layout; omega

theorem signOf_le {a : ℕ} (ha : a < 2 ^ f.fSize) : f.signOf a ≤ 1 := by
  rw [signOf_eq]
  have h : 2 ^ f.fSize = 2 * 2 ^ (f.fSize - 1) := by
    rw [← pow_succ']; congr 1; have := f.layout; omega
  rw [← Nat.lt_succ_iff, Nat.div_lt_iff_lt_mul (Nat.two_pow_pos _)]; omega

/-- An encoding is its three fields. -/
theorem fields_eq (a : ℕ) :
    a = f.signOf a * 2 ^ (f.fSize - 1) + f.expOf a * 2 ^ f.mantSize + f.mantOf a := by
  rw [signOf_eq, expOf_eq, mantOf_eq, two_pow_sign, Nat.mul_comm (2 ^ f.expSize), ← Nat.div_div_eq_div_mul]
  have h1 := Nat.div_add_mod a (2 ^ f.mantSize)
  have h2 := Nat.div_add_mod (a / 2 ^ f.mantSize) (2 ^ f.expSize)
  calc a = 2 ^ f.mantSize * (a / 2 ^ f.mantSize) + a % 2 ^ f.mantSize := h1.symm
    _ = _ := by conv_lhs => rw [← h2]
                ring

section assembled

variable {s e m : ℕ}

theorem pack_eq (hs : s ≤ 1) (he : e ≤ f.expMask) :
    f.pack s e m = s * 2 ^ (f.fSize - 1) + e * 2 ^ f.mantSize + m % 2 ^ f.mantSize := by
  have hE : e < 2 ^ f.expSize := by
    have := Nat.two_pow_pos f.expSize; unfold expMask at he; omega
  have hF : 2 ^ f.fSize = 2 * 2 ^ (f.fSize - 1) := by
    rw [← pow_succ']; congr 1; have := f.layout; omega
  have hem : e * 2 ^ f.mantSize < 2 ^ (f.fSize - 1) := by
    rw [two_pow_sign]; exact Nat.mul_lt_mul_of_pos_right hE (Nat.two_pow_pos _)
  have hm := Nat.mod_lt m (Nat.two_pow_pos f.mantSize)
  unfold pack shl mantMask
  rw [Nat.and_two_pow_sub_one_eq_mod, Nat.shiftLeft_eq, Nat.shiftLeft_eq,
    Nat.mod_eq_of_lt (a := s * 2 ^ (f.fSize - 1)) (by interval_cases s <;> omega),
    Nat.mod_eq_of_lt (a := e * 2 ^ f.mantSize) (by omega),
    Nat.or_assoc, Nat.mul_comm e, ← Nat.two_pow_add_eq_or_of_lt hm, Nat.mul_comm s,
    ← Nat.two_pow_add_eq_or_of_lt, Nat.add_assoc]
  rw [two_pow_sign]
  calc 2 ^ f.mantSize * e + m % 2 ^ f.mantSize < 2 ^ f.mantSize * e + 2 ^ f.mantSize := by omega
    _ = (e + 1) * 2 ^ f.mantSize := by ring
    _ ≤ 2 ^ f.expSize * 2 ^ f.mantSize := Nat.mul_le_mul_right _ hE

variable (hs : s ≤ 1) (he : e < 2 ^ f.expSize) (hm : m < 2 ^ f.mantSize)
include he hm

theorem assembled_low_lt : e * 2 ^ f.mantSize + m < 2 ^ (f.fSize - 1) := by
  rw [two_pow_sign]
  calc e * 2 ^ f.mantSize + m < e * 2 ^ f.mantSize + 2 ^ f.mantSize := by omega
    _ = (e + 1) * 2 ^ f.mantSize := by ring
    _ ≤ 2 ^ f.expSize * 2 ^ f.mantSize := Nat.mul_le_mul_right _ he

include hs in
theorem assembled_lt : s * 2 ^ (f.fSize - 1) + e * 2 ^ f.mantSize + m < 2 ^ f.fSize := by
  have h := f.assembled_low_lt he hm
  have hF : 2 ^ f.fSize = 2 * 2 ^ (f.fSize - 1) := by
    rw [← pow_succ']; congr 1; have := f.layout; omega
  interval_cases s <;> omega

theorem signOf_assembled : f.signOf (s * 2 ^ (f.fSize - 1) + e * 2 ^ f.mantSize + m) = s := by
  rw [signOf_eq, Nat.add_assoc, Nat.add_comm, Nat.add_mul_div_right _ _ (Nat.two_pow_pos _),
    Nat.div_eq_of_lt (f.assembled_low_lt he hm), Nat.zero_add]

theorem expOf_assembled : f.expOf (s * 2 ^ (f.fSize - 1) + e * 2 ^ f.mantSize + m) = e := by
  rw [expOf_eq, two_pow_sign, ← Nat.mul_assoc, ← Nat.add_mul, Nat.add_comm,
    Nat.add_mul_div_right _ _ (Nat.two_pow_pos _), Nat.div_eq_of_lt hm, Nat.zero_add, Nat.mul_add_mod_self_right,
    Nat.mod_eq_of_lt he]

omit he in
theorem mantOf_assembled : f.mantOf (s * 2 ^ (f.fSize - 1) + e * 2 ^ f.mantSize + m) = m := by
  rw [mantOf_eq, two_pow_sign, ← Nat.mul_assoc, ← Nat.add_mul, Nat.mul_add_mod_self_right, Nat.mod_eq_of_lt hm]

end assembled

section packed

variable {s e m : ℕ} (hs : s ≤ 1)
include hs

theorem pack_lt (he : e ≤ f.expMask) : f.pack s e m < 2 ^ f.fSize := by
  have hE : e < 2 ^ f.expSize := by have := Nat.two_pow_pos f.expSize; unfold expMask at he; omega
  rw [f.pack_eq hs he]
  exact f.assembled_lt hs hE (Nat.mod_lt _ (Nat.two_pow_pos _))

theorem fields_pack (he : e ≤ f.expMask) :
    f.signOf (f.pack s e m) = s ∧ f.expOf (f.pack s e m) = e ∧ f.mantOf (f.pack s e m) = m % 2 ^ f.mantSize := by
  have hE : e < 2 ^ f.expSize := by have := Nat.two_pow_pos f.expSize; unfold expMask at he; omega
  have hm := Nat.mod_lt m (Nat.two_pow_pos f.mantSize)
  rw [f.pack_eq hs he]
  exact ⟨f.signOf_assembled hE hm, f.expOf_assembled hE hm, f.mantOf_assembled hm⟩

theorem decode_pack_inf : f.decode (f.pack s f.expMask 0) = .inf (decide (s ≠ 0)) := by
  obtain ⟨h1, h2, h3⟩ := f.fields_pack hs (m := 0) le_rfl
  unfold decode
  simp only [h1, h2, h3, Nat.zero_mod, if_true]

theorem decode_pack_subnormal (hm : m ≤ f.mantMask) :
    f.decode (f.pack s 0 m) = .num (decide (s ≠ 0)) (m * 2 ^ (1 - f.bias - f.mantSize)) := by
  obtain ⟨h1, h2, h3⟩ := f.fields_pack hs (m := m) (Nat.zero_le f.expMask)
  have hm' : m < 2 ^ f.mantSize := by have := Nat.two_pow_pos f.mantSize; unfold mantMask at hm; omega
  have h0 : (0 : ℕ) ≠ f.expMask := by have := f.rndPow_ge; rw [expMask_eq]; omega
  unfold decode
  simp only [h1, h2, h3, Nat.mod_eq_of_lt hm', h0, if_false, if_true]

theorem decode_pack_normal (he : 0 < e) (he' : e < f.expMask) :
    f.decode (f.pack s e m) =
      .num (decide (s ≠ 0)) ((2 ^ f.mantSize + m % 2 ^ f.mantSize : ℕ) * 2 ^ (e - f.bias - f.mantSize)) := by
  obtain ⟨h1, h2, h3⟩ := f.fields_pack hs (m := m) he'.le
  unfold decode
  simp only [h1, h2, h3, he'.ne, he.ne', if_false]

end packed

/-! ## One rounding -/

theorem rshiftRnd_eq {a : ℕ} (ha : a < 2 ^ f.fSize) {d : ℤ} (hd : 0 ≤ d) : f.rshiftRnd a d = shiftJam a d.toNat := by
  unfold rshiftRnd shiftJam
  by_cases h0 : d = 0
  · subst h0; simp [Nat.mod_one]
  · rw [if_neg h0]
    by_cases hF : d ≥ f.fSize
    · have hlt : a < 2 ^ d.toNat :=
        lt_of_lt_of_le ha (Nat.pow_le_pow_right (by norm_num) (by omega))
      rw [if_pos hF, Nat.div_eq_of_lt hlt, Nat.mod_eq_of_lt hlt, Nat.zero_or]
      by_cases ha0 : a = 0 <;> simp [ha0]
    · rw [if_neg hF]
      simp only [Nat.and_two_pow_sub_one_eq_mod, Nat.shiftRight_eq_div_pow, ne_eq, ite_not]

theorem clearLow_eq {v : ℕ} (hv : v < 2 ^ f.fSize) : v &&& (2 ^ f.fSize - 2) = v - v % 2 := by
  obtain ⟨n, hn⟩ : ∃ n, f.fSize = n + 1 := ⟨f.fSize - 1, by have := f.layout; omega⟩
  rw [hn] at hv ⊢
  have h1 : 2 ^ (n + 1) - 2 = 2 * (2 ^ n - 1) := by rw [pow_succ]; omega
  have hv2 : v / 2 < 2 ^ n := by rw [pow_succ] at hv; omega
  have h2 : v &&& 2 * (2 ^ n - 1) = 2 * (v / 2 &&& (2 ^ n - 1)) := by
    apply Nat.eq_of_testBit_eq
    intro i
    cases i with
    | zero => simp [Nat.testBit_zero, Nat.mul_mod_right]
    | succ i =>
      rw [Nat.testBit_and, Nat.testBit_add_one, Nat.testBit_add_one, Nat.testBit_add_one,
        Nat.mul_div_cancel_left _ (by norm_num), Nat.mul_div_cancel_left _ (by norm_num), Nat.testBit_and]
  rw [h1, h2, Nat.and_two_pow_sub_one_eq_mod, Nat.mod_eq_of_lt hv2]
  omega

/-- The rounding step of `roundPack` on a mantissa: add, shift, clear the low bit of a tie. -/
def roundMant (sign mant rm : ℕ) : ℕ :=
  let v := f.wadd mant (f.addend sign rm) >>> f.rndSize
  if rm = RM_RNE ∧ mant &&& (2 ^ f.rndSize - 1) = 2 ^ (f.rndSize - 1) then v &&& (2 ^ f.fSize - 2) else v

theorem addend_lt (sign rm : ℕ) : f.addend sign rm < 2 ^ f.rndSize := by
  have := Nat.two_pow_pos f.rndSize
  have h2 : 2 ^ (f.rndSize - 1) < 2 ^ f.rndSize :=
    Nat.pow_lt_pow_right (by norm_num) (by have := f.rndSize_ge; omega)
  unfold addend; split_ifs <;> omega

theorem two_pow_rndSize : 2 ^ f.rndSize = 2 * 2 ^ (f.rndSize - 1) := by
  rw [← pow_succ']; congr 1; have := f.rndSize_ge; omega

theorem wadd_addend {mant : ℕ} (hm : mant < 2 ^ (f.fSize - 1)) (sign rm : ℕ) :
    f.wadd mant (f.addend sign rm) = mant + f.addend sign rm := by
  have h1 := f.addend_lt sign rm
  have h2 := f.two_pow_fSize; have h3 := f.two_pow_fSize_sub_one
  have h4 : 2 ^ f.rndSize ≤ 2 ^ f.mantSize * 2 ^ f.rndSize := Nat.le_mul_of_pos_left _ (Nat.two_pow_pos _)
  unfold wadd
  apply Nat.mod_eq_of_lt
  rw [h3, Nat.mul_assoc] at hm
  rw [h2, Nat.mul_assoc]
  omega

/-- The code's step is the rounding of `mant / 2 ^ rndSize` to an integer. -/
theorem roundMant_eq {sign mant rm : ℕ} (hs : sign ≤ 1) (hrm : rm ≤ 4) (hm : mant < 2 ^ (f.fSize - 1)) :
    f.roundMant sign mant rm = roundNat (roundingOf rm) (decide (sign ≠ 0)) ((mant : ℚ) / 2 ^ f.rndSize) := by
  set Q := 2 ^ f.rndSize with hQ
  set H := 2 ^ (f.rndSize - 1) with hH
  have hQH : Q = 2 * H := f.two_pow_rndSize
  have hHpos : 0 < H := Nat.two_pow_pos _
  have hda := Nat.div_add_mod mant Q
  have hml := Nat.mod_lt mant (hQ ▸ Nat.two_pow_pos _ : 0 < Q)
  have hcast : ((2 : ℚ) ^ f.rndSize) = (Q : ℕ) := by rw [hQ]; push_cast; rfl
  have hQ0 : (0 : ℚ) < (Q : ℕ) := by exact_mod_cast (hQ ▸ Nat.two_pow_pos _ : 0 < Q)
  have hfloor : ⌊(mant : ℚ) / 2 ^ f.rndSize⌋₊ = mant / Q := by rw [hcast, Nat.floor_div_eq_div]
  have hfrac : (mant : ℚ) / 2 ^ f.rndSize - (mant / Q : ℕ) = (mant % Q : ℕ) / (Q : ℕ) := by
    rw [hcast, eq_div_iff hQ0.ne', sub_mul, div_mul_cancel₀ _ hQ0.ne', sub_eq_iff_eq_add]
    exact_mod_cast (by rw [Nat.mul_comm]; omega : mant = mant % Q + mant / Q * Q)
  have hlt : ((mant % Q : ℕ) : ℚ) / (Q : ℕ) < 1 / 2 ↔ mant % Q < H := by
    rw [div_lt_div_iff₀ hQ0 (by norm_num)]
    constructor
    · intro h
      have : mant % Q * 2 < 1 * Q := by exact_mod_cast h
      omega
    · intro h
      exact_mod_cast (by omega : mant % Q * 2 < 1 * Q)
  have heq : ((mant % Q : ℕ) : ℚ) / (Q : ℕ) = 1 / 2 ↔ mant % Q = H := by
    rw [div_eq_div_iff hQ0.ne' (by norm_num)]
    constructor
    · intro h
      have : mant % Q * 2 = 1 * Q := by exact_mod_cast h
      omega
    · intro h
      exact_mod_cast (by omega : mant % Q * 2 = 1 * Q)
  have hz : ((mant % Q : ℕ) : ℚ) / (Q : ℕ) = 0 ↔ mant % Q = 0 := by
    rw [div_eq_zero_iff]; simp [hQ0.ne']
  have hadd (k : ℕ) (hk : k < Q) : (mant + k) / Q = mant / Q + if Q ≤ mant % Q + k then 1 else 0 := by
    have hd : mant + k = mant % Q + k + mant / Q * Q := by rw [Nat.mul_comm]; omega
    rw [hd, Nat.add_mul_div_right _ _ (by omega), Nat.add_comm]
    congr 1
    split_ifs with h
    · rw [Nat.div_eq_iff (by omega)]; omega
    · exact Nat.div_eq_of_lt (by omega)
  have hvlt : (mant + f.addend sign rm) / Q < 2 ^ f.fSize := by
    refine lt_of_le_of_lt (Nat.div_le_self _ _) ?_
    have := f.wadd_addend hm sign rm
    rw [← this]; exact Nat.mod_lt _ (Nat.two_pow_pos _)
  unfold roundMant
  rw [f.wadd_addend hm, Nat.shiftRight_eq_div_pow, Nat.and_two_pow_sub_one_eq_mod, ← hQ, ← hH]
  unfold roundNat
  simp only [hfloor, hfrac, hlt, heq, hz, ne_eq]
  rw [f.clearLow_eq hvlt]
  rw [hadd _ (f.addend_lt sign rm)]
  unfold addend roundingOf
  rw [← hQ, ← hH]
  interval_cases rm <;> interval_cases sign <;>
    simp [RM_RNE, RM_RTZ, RM_RDN, RM_RUP, RM_RMM] <;> (try split_ifs) <;> omega

theorem quarter (z : ℚ) : 4 * (z / 2 ^ f.rndSize) = z / 2 ^ (f.rndSize - 2) := by
  have h2 : (2 : ℚ) ^ f.rndSize = 4 * 2 ^ (f.rndSize - 2) := by
    rw [show (4 : ℚ) = 2 ^ 2 by norm_num, ← pow_add]; congr 1; have := f.rndSize_ge; omega
  rw [h2, ← mul_div_assoc, mul_div_mul_left _ _ (by norm_num)]

theorem rndBits_eq_zero_iff (mant : ℕ) (m : Rounding) (neg : Bool) :
    mant &&& (2 ^ f.rndSize - 1) = 0 ↔ (roundNat m neg ((mant : ℚ) / 2 ^ f.rndSize) : ℚ) = mant / 2 ^ f.rndSize := by
  have hQ : (2 : ℚ) ^ f.rndSize = ((2 ^ f.rndSize : ℕ) : ℚ) := by push_cast; rfl
  have hQ0 : (0 : ℚ) < ((2 ^ f.rndSize : ℕ) : ℚ) := by exact_mod_cast Nat.two_pow_pos _
  have hda := Nat.div_add_mod mant (2 ^ f.rndSize)
  rw [roundNat_exact_iff m neg (by positivity), hQ, Nat.floor_div_eq_div, Nat.and_two_pow_sub_one_eq_mod,
    sub_eq_zero, div_eq_iff hQ0.ne']
  rw [Nat.mul_comm] at hda
  constructor
  · intro h; exact_mod_cast (by omega : mant = mant / 2 ^ f.rndSize * 2 ^ f.rndSize)
  · intro h
    have : mant = mant / 2 ^ f.rndSize * 2 ^ f.rndSize := by exact_mod_cast h
    omega

section sticky

variable {sign mant rm : ℕ} {y : ℚ} (h : StickyAt (f.rndSize - 2) mant y)
include h

/-- The rounding step on a mantissa that stands for `y`. -/
theorem roundMant_sticky (hs : sign ≤ 1) (hrm : rm ≤ 4) (hm : mant < 2 ^ (f.fSize - 1)) :
    f.roundMant sign mant rm = roundNat (roundingOf rm) (decide (sign ≠ 0)) (y / 2 ^ f.rndSize) := by
  rw [f.roundMant_eq hs hrm hm]
  have h' := sticky_shiftJam mant (f.rndSize - 2)
  unfold StickyAt at h
  rw [← f.quarter] at h h'
  exact roundNat_congr _ _ h' h

theorem rndBits_sticky (m : Rounding) (neg : Bool) :
    mant &&& (2 ^ f.rndSize - 1) = 0 ↔ (roundNat m neg (y / 2 ^ f.rndSize) : ℚ) = y / 2 ^ f.rndSize := by
  rw [f.rndBits_eq_zero_iff mant m neg]
  have h' := sticky_shiftJam mant (f.rndSize - 2)
  unfold StickyAt at h
  rw [← f.quarter] at h h'
  exact exact_congr _ _ h' h

theorem sticky_lower {e : ℕ} (he : f.rndSize ≤ e) (hm : 2 ^ e ≤ mant) : (2 : ℚ) ^ e ≤ y := by
  obtain ⟨d, rfl⟩ : ∃ d, e = d + 1 + (f.rndSize - 2) := ⟨e - (f.rndSize - 2) - 1, by have := f.rndSize_ge; omega⟩
  have h1 : 2 ^ (d + 1) ≤ shiftJam mant (f.rndSize - 2) :=
    ((sticky_shiftJam mant _).even_le_iff (by rw [pow_succ]; omega)).2 (by
      rw [le_div_iff₀ (by positivity)]
      rw [pow_add] at hm
      exact_mod_cast hm)
  have h2 := (h.even_le_iff (by rw [pow_succ]; omega)).1 h1
  rw [le_div_iff₀ (by positivity)] at h2
  push_cast at h2
  rwa [← pow_add] at h2

theorem sticky_upper {e : ℕ} (he : f.rndSize ≤ e) (hm : mant < 2 ^ e) : y < (2 : ℚ) ^ e := by
  obtain ⟨d, rfl⟩ : ∃ d, e = d + 1 + (f.rndSize - 2) := ⟨e - (f.rndSize - 2) - 1, by have := f.rndSize_ge; omega⟩
  have h1 : shiftJam mant (f.rndSize - 2) < 2 ^ (d + 1) :=
    ((sticky_shiftJam mant _).lt_even_iff (by rw [pow_succ]; omega)).2 (by
      rw [div_lt_iff₀ (by positivity)]
      rw [pow_add] at hm
      exact_mod_cast hm)
  have h2 := (h.lt_even_iff (by rw [pow_succ]; omega)).1 h1
  rw [div_lt_iff₀ (by positivity)] at h2
  push_cast at h2
  rwa [← pow_add] at h2

end sticky

theorem stickyAt_shiftAny {k m : ℕ} {y : ℚ} (h : StickyAt k m y) (d : ℕ) : StickyAt k (shiftJam m d) (y / 2 ^ d) := by
  rcases Nat.le_total d k with hd | hd
  · exact (h.shiftJam hd).mono (Nat.sub_le _ _)
  · exact (h.shiftJam_ge hd).at k

/-! ## `roundPack` -/

/-- The magnitude a mantissa `y` stands for at exponent `exp`. -/
def magnitude (exp : ℤ) (y : ℚ) : ℚ := y * 2 ^ (exp - f.bias - f.mantSize - f.rndSize)

theorem magnitude_div_quantum (exp : ℤ) (y : ℚ) :
    f.magnitude exp y / 2 ^ (exp - f.bias - f.mantSize) = y / 2 ^ f.rndSize := by
  unfold magnitude
  rw [zpow_sub₀ (by norm_num) _ (f.rndSize : ℤ), zpow_natCast, mul_div_assoc', div_div, mul_comm y,
    mul_comm (2 ^ f.rndSize : ℚ), mul_div_mul_left _ _ (by positivity)]

theorem roundTo_magnitude (m : Rounding) (neg : Bool) (exp : ℤ) (y : ℚ) :
    roundTo m neg (2 ^ (exp - f.bias - f.mantSize)) (f.magnitude exp y) =
      roundNat m neg (y / 2 ^ f.rndSize) * 2 ^ (exp - f.bias - f.mantSize) := by
  unfold roundTo; rw [magnitude_div_quantum]

theorem roundTo_exact_iff (m : Rounding) (neg : Bool) {u x : ℚ} (hu : u ≠ 0) :
    roundTo m neg u x = x ↔ (roundNat m neg (x / u) : ℚ) = x / u := by
  unfold roundTo; rw [eq_div_iff hu]

theorem magnitude_succ (exp : ℤ) (d : ℕ) (y : ℚ) : f.magnitude (exp + d) (y / 2 ^ d) = f.magnitude exp y := by
  unfold magnitude
  rw [show exp + d - f.bias - f.mantSize - f.rndSize = (exp - f.bias - f.mantSize - f.rndSize) + (d : ℤ) by ring,
    zpow_add₀ (by norm_num), zpow_natCast, div_mul_eq_mul_div, mul_comm ((2 : ℚ) ^ _) (2 ^ d), ← mul_assoc,
    mul_right_comm, mul_div_assoc, div_self (by positivity), mul_one]

section roundPack

variable {sign mant rm : ℕ} {exp : ℤ} {y : ℚ} {fl : FFlags}
  (hs : sign ≤ 1) (hrm : rm ≤ 4) (hlo : 2 ^ (f.fSize - 2) ≤ mant) (hhi : mant < 2 ^ (f.fSize - 1))
  (hy : StickyAt (f.rndSize - 2) mant y)
include hlo hhi hy

theorem log_magnitude : Int.log 2 (f.magnitude exp y) = exp - f.bias := by
  have hF := f.fSize_eq
  have hl := f.sticky_lower hy (by omega) hlo
  have hu := f.sticky_upper hy (by omega) hhi
  unfold magnitude
  apply log_two_eq
  · calc (2 : ℚ) ^ (exp - f.bias)
        = 2 ^ (f.fSize - 2) * 2 ^ (exp - f.bias - f.mantSize - f.rndSize) := by
          rw [← zpow_natCast, ← zpow_add₀ (by norm_num)]; congr 1; omega
      _ ≤ _ := mul_le_mul_of_nonneg_right hl (by positivity)
  · calc _ < (2 : ℚ) ^ (f.fSize - 1) * 2 ^ (exp - f.bias - f.mantSize - f.rndSize) :=
          mul_lt_mul_of_pos_right hu (by positivity)
      _ = 2 ^ (exp - f.bias + 1) := by
          rw [← zpow_natCast, ← zpow_add₀ (by norm_num)]; congr 1; omega

/-- The rounded mantissa has its leading bit at `mantSize`, or has carried to the next power of two. -/
theorem roundNat_range (m : Rounding) (neg : Bool) :
    2 ^ f.mantSize ≤ roundNat m neg (y / 2 ^ f.rndSize) ∧ roundNat m neg (y / 2 ^ f.rndSize) ≤ 2 ^ (f.mantSize + 1) := by
  have hF := f.fSize_eq
  have hl := f.sticky_lower hy (by omega) hlo
  have hu := f.sticky_upper hy (by omega) hhi
  have hyp : 0 ≤ y / 2 ^ f.rndSize := div_nonneg (le_trans (by positivity) hl) (by positivity)
  have h1 : 2 ^ f.mantSize ≤ ⌊y / 2 ^ f.rndSize⌋₊ := by
    rw [Nat.le_floor_iff hyp, le_div_iff₀ (by positivity)]
    push_cast
    rw [← pow_add, show f.mantSize + f.rndSize = f.fSize - 2 by omega]
    exact hl
  have h2 : ⌊y / 2 ^ f.rndSize⌋₊ < 2 ^ (f.mantSize + 1) := by
    rw [Nat.floor_lt hyp, div_lt_iff₀ (by positivity)]
    push_cast
    rw [← pow_add, show f.mantSize + 1 + f.rndSize = f.fSize - 1 by omega]
    exact hu
  rcases roundNat_mem m neg (y / 2 ^ f.rndSize) with h | h <;> omega

end roundPack

/-- The end of `roundPack`: carry into the exponent, then subnormal, overflow or normal. -/
def packRounded (sign : ℕ) (exp : ℤ) (n addend : ℕ) (fl : FFlags) : ℕ × FFlags :=
  let exp := exp + (n >>> (f.mantSize + 1) : ℕ)
  if n ≤ f.mantMask then (f.pack sign 0 n, fl)
  else if exp ≥ f.expMask then
    if addend = 0 then
      (f.pack sign (f.expMask - 1) f.mantMask, fl ||| (FFLAG_OVERFLOW ||| FFLAG_INEXACT))
    else (f.pack sign f.expMask 0, fl ||| (FFLAG_OVERFLOW ||| FFLAG_INEXACT))
  else (f.pack sign exp.toNat n, fl)

theorem roundPack_of_pos (sign mant rm : ℕ) (fl : FFlags) {exp : ℤ} (h : 0 < exp) :
    f.roundPack sign exp mant rm fl =
      f.packRounded sign exp (f.roundMant sign mant rm) (f.addend sign rm)
        (if mant &&& (2 ^ f.rndSize - 1) ≠ 0 then fl ||| FFLAG_INEXACT else fl) := by
  simp only [roundPack, if_neg (not_le.2 h)]
  rfl

theorem roundPack_of_nonpos (sign mant rm : ℕ) (fl : FFlags) {exp : ℤ} (h : exp ≤ 0) :
    f.roundPack sign exp mant rm fl =
      let tiny := exp < 0 ∨ f.wadd mant (f.addend sign rm) < 2 ^ (f.fSize - 1)
      let mant := f.rshiftRnd mant (1 - exp)
      let fl := if tiny ∧ mant &&& (2 ^ f.rndSize - 1) ≠ 0 then fl ||| FFLAG_UNDERFLOW else fl
      f.packRounded sign 1 (f.roundMant sign mant rm) (f.addend sign rm)
        (if mant &&& (2 ^ f.rndSize - 1) ≠ 0 then fl ||| FFLAG_INEXACT else fl) := by
  simp only [roundPack, if_pos h]
  rfl

theorem addend_eq_zero_iff {sign rm : ℕ} (hs : sign ≤ 1) (hrm : rm ≤ 4) :
    f.addend sign rm = 0 ↔ (roundingOf rm).overflowsToInf (decide (sign ≠ 0)) = false := by
  have h2 : 2 ^ f.rndSize - 1 ≠ 0 := by have := f.rndPow_ge; omega
  unfold addend roundingOf Rounding.overflowsToInf
  interval_cases rm <;> interval_cases sign <;> simp [RM_RNE, RM_RTZ, RM_RDN, RM_RUP, RM_RMM, h2]

theorem two_zpow_split (a : ℕ) (b : ℤ) : (2 : ℚ) ^ a * 2 ^ b = 2 ^ (a + b) := by
  rw [zpow_add₀ (by norm_num), zpow_natCast]

/-- What the packed end is: the rounded magnitude `n * 2 ^ (exp - bias - mantSize)`, or its overflow. -/
theorem packRounded_spec {sign n rm : ℕ} {exp : ℤ} (hs : sign ≤ 1) (hrm : rm ≤ 4) (he : 1 ≤ exp)
    (hn : n ≤ 2 ^ (f.mantSize + 1)) (hsub : n < 2 ^ f.mantSize → exp = 1) (fl : FFlags) :
    let v : ℚ := n * 2 ^ (exp - f.bias - f.mantSize)
    let r := f.packRounded sign exp n (f.addend sign rm) fl
    r.1 < 2 ^ f.fSize ∧
    f.decode r.1 = (if f.format.maxFinite < v then
      (if (roundingOf rm).overflowsToInf (decide (sign ≠ 0)) then .inf (decide (sign ≠ 0))
        else .num (decide (sign ≠ 0)) f.format.maxFinite)
      else .num (decide (sign ≠ 0)) v) ∧
    r.2 = if f.format.maxFinite < v then fl ||| (FFLAG_OVERFLOW ||| FFLAG_INEXACT) else fl := by
  have hb := f.bias_ge
  have hmask := f.expMask_cast
  have hM := Nat.two_pow_pos f.mantSize
  have hM1 : 2 ^ (f.mantSize + 1) = 2 * 2 ^ f.mantSize := pow_succ' ..
  intro v r
  by_cases hsmall : n ≤ f.mantMask
  · -- subnormal or zero
    have hlt : n < 2 ^ f.mantSize := by unfold mantMask at hsmall; omega
    have he1 := hsub hlt
    have hr : r = (f.pack sign 0 n, fl) := by
      change f.packRounded sign exp n (f.addend sign rm) fl = _
      unfold packRounded; rw [if_pos hsmall]
    have hv : ¬ f.format.maxFinite < v := by
      rw [maxFinite_eq, not_lt]
      change (n : ℚ) * 2 ^ (exp - f.bias - f.mantSize) ≤ _
      gcongr <;> first | omega | norm_num
    rw [hr, if_neg hv, if_neg hv]
    refine ⟨f.pack_lt hs (Nat.zero_le _), ?_, rfl⟩
    rw [f.decode_pack_subnormal hs hsmall]
    change _ = Datum.num _ ((n : ℚ) * 2 ^ (exp - f.bias - f.mantSize))
    rw [he1]
  · have hge : 2 ^ f.mantSize ≤ n := by unfold mantMask at hsmall; omega
    -- the carried exponent and the mantissa below it
    obtain ⟨k, p, hp, hpm, hk, hvk⟩ : ∃ (k : ℤ) (p : ℕ), p < 2 ^ f.mantSize ∧ n % 2 ^ f.mantSize = p ∧
        exp + (n >>> (f.mantSize + 1) : ℕ) = k ∧ v = (2 ^ f.mantSize + p : ℕ) * 2 ^ (k - f.bias - f.mantSize) := by
      rcases hn.lt_or_eq with hlt | heq
      · refine ⟨exp, n - 2 ^ f.mantSize, by omega, ?_, ?_, ?_⟩
        · rw [Nat.mod_eq_sub_mod hge, Nat.mod_eq_of_lt (by omega)]
        · rw [Nat.shiftRight_eq_div_pow, Nat.div_eq_of_lt hlt]; simp
        · rw [Nat.add_sub_cancel' hge]
      · refine ⟨exp + 1, 0, hM, ?_, ?_, ?_⟩
        · rw [heq, hM1, Nat.mul_mod_left]
        · rw [Nat.shiftRight_eq_div_pow, heq, Nat.div_self (Nat.two_pow_pos _)]; rfl
        · change (n : ℚ) * 2 ^ (exp - f.bias - f.mantSize) = _
          rw [heq]
          push_cast
          rw [add_zero, two_zpow_split, two_zpow_split]; congr 1; push_cast; ring
    have hk1 : 1 ≤ k := by
      have := Int.natCast_nonneg (n >>> (f.mantSize + 1))
      omega
    have hpack : r = if k ≥ f.expMask then
        if f.addend sign rm = 0 then
          (f.pack sign (f.expMask - 1) f.mantMask, fl ||| (FFLAG_OVERFLOW ||| FFLAG_INEXACT))
        else (f.pack sign f.expMask 0, fl ||| (FFLAG_OVERFLOW ||| FFLAG_INEXACT))
      else (f.pack sign k.toNat n, fl) := by
      change f.packRounded sign exp n (f.addend sign rm) fl = _
      unfold packRounded; rw [if_neg hsmall, hk]
    have hov : f.format.maxFinite < v ↔ (f.expMask : ℤ) ≤ k := by
      rw [maxFinite_eq, hvk, hmask]
      constructor
      · intro h
        by_contra hlt
        refine absurd h (not_lt.2 ?_)
        have h1 : ((2 ^ f.mantSize + p : ℕ) : ℚ) ≤ (2 ^ (f.mantSize + 1) - 1 : ℕ) := by
          exact_mod_cast (by omega : 2 ^ f.mantSize + p ≤ 2 ^ (f.mantSize + 1) - 1)
        have h2 : (2 : ℚ) ^ (k - f.bias - f.mantSize) ≤ 2 ^ (f.bias - f.mantSize) :=
          zpow_le_zpow_right₀ (by norm_num) (by omega)
        exact mul_le_mul h1 h2 (by positivity) (by positivity)
      · intro h
        calc ((2 ^ (f.mantSize + 1) - 1 : ℕ) : ℚ) * 2 ^ (f.bias - f.mantSize)
            < (2 ^ (f.mantSize + 1) : ℕ) * 2 ^ (f.bias - f.mantSize) := by
              gcongr
              have := Nat.two_pow_pos (f.mantSize + 1); omega
          _ = 2 ^ f.mantSize * 2 ^ (f.bias + 1 - f.mantSize) := by
              push_cast; rw [two_zpow_split, two_zpow_split]; congr 1; push_cast; ring
          _ ≤ (2 ^ f.mantSize + p : ℕ) * 2 ^ (k - f.bias - f.mantSize) := by
              apply mul_le_mul _ (zpow_le_zpow_right₀ (by norm_num) (by omega)) (by positivity) (by positivity)
              push_cast; linarith [(Nat.cast_nonneg p : (0 : ℚ) ≤ p)]
    rw [hpack]
    by_cases hkm : k ≥ f.expMask
    · rw [if_pos hkm, if_pos (hov.2 hkm), if_pos (hov.2 hkm)]
      by_cases h0 : f.addend sign rm = 0
      · have hinf := (f.addend_eq_zero_iff hs hrm).1 h0
        rw [if_pos h0, hinf]
        refine ⟨f.pack_lt hs (Nat.sub_le _ _), ?_, rfl⟩
        have hMm : f.mantMask % 2 ^ f.mantSize = 2 ^ f.mantSize - 1 := Nat.mod_eq_of_lt (by unfold mantMask; omega)
        rw [f.decode_pack_normal hs (by omega) (by omega), hMm, maxFinite_eq]
        simp only [Bool.false_eq_true, if_false]
        congr 2
        · rw [hM1]; congr 1; omega
        · congr 1
          push_cast [Nat.cast_sub (by omega : 1 ≤ f.expMask)]
          omega
      · have hinf : (roundingOf rm).overflowsToInf (decide (sign ≠ 0)) = true := by
          rw [← Bool.not_eq_false, ← f.addend_eq_zero_iff hs hrm]; exact h0
        rw [if_neg h0, hinf]
        exact ⟨f.pack_lt hs le_rfl, f.decode_pack_inf hs, rfl⟩
    · rw [if_neg hkm, if_neg (by rw [hov]; exact hkm), if_neg (by rw [hov]; exact hkm)]
      have hkn : k.toNat < f.expMask := by omega
      refine ⟨f.pack_lt hs hkn.le, ?_, rfl⟩
      rw [f.decode_pack_normal hs (by omega) hkn, hpm, hvk, Int.toNat_of_nonneg (by omega)]

theorem yields_round {r : ℕ × FFlags} {fl : FFlags} {m : Rounding} {neg : Bool} {x v : ℚ} (uf nx : Prop) [Decidable uf]
    [Decidable nx] (hv : f.format.roundMag m neg x = v) (hnx : nx ↔ v ≠ x)
    (huf : ¬ f.format.maxFinite < v → (uf ↔ v ≠ x ∧ f.format.roundUnbounded m neg x < 2 ^ f.format.emin))
    (hlt : r.1 < 2 ^ f.fSize)
    (hd : f.decode r.1 = (if f.format.maxFinite < v then
      (if m.overflowsToInf neg then .inf neg else .num neg f.format.maxFinite) else .num neg v))
    (hr : r.2 = if f.format.maxFinite < v then fl ||| (FFLAG_OVERFLOW ||| FFLAG_INEXACT)
      else fl ||| ((if uf then FFLAG_UNDERFLOW else 0) ||| (if nx then FFLAG_INEXACT else 0))) :
    f.Yields r fl (f.format.round m neg x) := by
  unfold Yields Format.round
  rw [hv]
  by_cases h : f.format.maxFinite < v
  · simp only [h, if_true] at hd hr ⊢
    refine ⟨hlt, hd, ?_, ?_⟩
    · split_ifs <;> simp [Datum.isNan]
    · rw [hr]; simp [flagBits]
  · simp only [h, if_false] at hd hr ⊢
    refine ⟨hlt, hd, by simp [Datum.isNan], ?_⟩
    have e1 : decide (v ≠ x ∧ f.format.roundUnbounded m neg x < 2 ^ f.format.emin) = decide uf :=
      decide_eq_decide.2 (huf h).symm
    have e2 : decide (v ≠ x) = decide nx := decide_eq_decide.2 hnx.symm
    rw [hr, e1, e2]
    simp [flagBits]

theorem or_flags (fl : FFlags) (uf nx : Prop) [Decidable uf] [Decidable nx] :
    (if nx then (if uf then fl ||| FFLAG_UNDERFLOW else fl) ||| FFLAG_INEXACT
      else if uf then fl ||| FFLAG_UNDERFLOW else fl) =
      fl ||| ((if uf then FFLAG_UNDERFLOW else 0) ||| (if nx then FFLAG_INEXACT else 0)) := by
  split_ifs <;> simp [BitVec.or_assoc]

theorem or_overflow (fl : FFlags) (p : Prop) [Decidable p] :
    (if p then fl ||| FFLAG_INEXACT else fl) ||| (FFLAG_OVERFLOW ||| FFLAG_INEXACT) =
      fl ||| (FFLAG_OVERFLOW ||| FFLAG_INEXACT) := by
  split_ifs
  · rw [BitVec.or_assoc]; rfl
  · rfl

/-- The rounded mantissa stays below the next power of two exactly when adding the rounding increment does. -/
theorem roundMant_lt_iff (sign mant rm : ℕ) :
    f.roundMant sign mant rm < 2 ^ (f.mantSize + 1) ↔ f.wadd mant (f.addend sign rm) < 2 ^ (f.fSize - 1) := by
  have hM1 : 2 ^ (f.mantSize + 1) = 2 * 2 ^ f.mantSize := pow_succ' ..
  have hF := f.fSize_eq
  have hvF : f.wadd mant (f.addend sign rm) >>> f.rndSize < 2 ^ f.fSize := by
    rw [Nat.shiftRight_eq_div_pow]
    exact lt_of_le_of_lt (Nat.div_le_self _ _) (Nat.mod_lt _ (Nat.two_pow_pos _))
  have hiff : f.wadd mant (f.addend sign rm) < 2 ^ (f.fSize - 1) ↔
      f.wadd mant (f.addend sign rm) >>> f.rndSize < 2 ^ (f.mantSize + 1) := by
    rw [Nat.shiftRight_eq_div_pow, Nat.div_lt_iff_lt_mul (Nat.two_pow_pos _), ← pow_add,
      show f.mantSize + 1 + f.rndSize = f.fSize - 1 by omega]
  rw [hiff]
  unfold roundMant
  simp only [f.clearLow_eq hvF]
  generalize f.wadd mant (f.addend sign rm) >>> f.rndSize = v
  rw [hM1]
  split_ifs <;> omega

/-- The code's test for tininess after rounding. -/
theorem tiny_iff {sign mant rm : ℕ} {exp : ℤ} {y : ℚ} (hs : sign ≤ 1) (hrm : rm ≤ 4)
    (hlo : 2 ^ (f.fSize - 2) ≤ mant) (hhi : mant < 2 ^ (f.fSize - 1)) (hy : StickyAt (f.rndSize - 2) mant y)
    (he : exp ≤ 0) :
    (exp < 0 ∨ f.wadd mant (f.addend sign rm) < 2 ^ (f.fSize - 1)) ↔
      f.format.roundUnbounded (roundingOf rm) (decide (sign ≠ 0)) (f.magnitude exp y) < 2 ^ f.format.emin := by
  obtain ⟨d, hd⟩ : ∃ d : ℕ, 1 - exp = d := ⟨(1 - exp).toNat, by omega⟩
  obtain ⟨hu1, hu2⟩ := f.roundNat_range hlo hhi hy (roundingOf rm) (decide (sign ≠ 0))
  have hmin : (2 : ℚ) ^ (1 - f.bias) = (2 ^ (f.mantSize + d) : ℕ) * 2 ^ (exp - f.bias - f.mantSize) := by
    push_cast; rw [two_zpow_split]; congr 1; push_cast; omega
  unfold Format.roundUnbounded
  rw [f.log_magnitude hlo hhi hy, format_quantum, roundTo_magnitude, format_emin, hmin,
    mul_lt_mul_iff_left₀ (by positivity), Nat.cast_lt]
  by_cases hexp : exp < 0
  · have : 2 ^ (f.mantSize + 1) < 2 ^ (f.mantSize + d) := Nat.pow_lt_pow_right (by norm_num) (by omega)
    simp only [hexp, true_or, true_iff]
    omega
  · rw [← f.roundMant_sticky hy hs hrm hhi, show d = 1 by omega, roundMant_lt_iff]
    simp only [hexp, false_or]

/-- **`roundPack` rounds once.**  A mantissa with its leading bit at `fSize - 2` that stands for `y` up to a sticky bit
two below the unit gives the rounded magnitude of `y` at that exponent, with its flags. -/
theorem roundPack_yields {sign mant rm : ℕ} {exp : ℤ} {y : ℚ} (hs : sign ≤ 1) (hrm : rm ≤ 4)
    (hlo : 2 ^ (f.fSize - 2) ≤ mant) (hhi : mant < 2 ^ (f.fSize - 1)) (hy : StickyAt (f.rndSize - 2) mant y)
    (fl : FFlags) :
    f.Yields (f.roundPack sign exp mant rm fl) fl
      (f.format.round (roundingOf rm) (decide (sign ≠ 0)) (f.magnitude exp y)) := by
  have hlog : Int.log 2 (f.magnitude exp y) = exp - f.bias := f.log_magnitude hlo hhi hy
  have hF := f.fSize_eq
  have hb := f.bias_ge
  have hy0 : 0 < y := lt_of_lt_of_le (by positivity) (f.sticky_lower hy (by omega) hlo)
  set m := roundingOf rm with hm
  set neg := decide (sign ≠ 0) with hneg
  have hun : f.format.roundUnbounded m neg (f.magnitude exp y) =
      roundNat m neg (y / 2 ^ f.rndSize) * 2 ^ (exp - f.bias - f.mantSize) := by
    unfold Format.roundUnbounded
    rw [hlog, format_quantum, roundTo_magnitude]
  rcases lt_or_ge 0 exp with hpos | hneg0
  · -- normal exponent: the mantissa is rounded in place
    set n := roundNat m neg (y / 2 ^ f.rndSize) with hn
    obtain ⟨hn1, hn2⟩ := f.roundNat_range hlo hhi hy m neg
    have hmag : f.format.roundMag m neg (f.magnitude exp y) = n * 2 ^ (exp - f.bias - f.mantSize) := by
      unfold Format.roundMag
      rw [hlog, format_emin, max_eq_left (by omega), format_quantum, roundTo_magnitude]
    obtain ⟨h1, h2, h3⟩ := f.packRounded_spec hs hrm hpos hn2 (fun h => absurd hn1 (not_le.2 h))
      (if mant &&& (2 ^ f.rndSize - 1) ≠ 0 then fl ||| FFLAG_INEXACT else fl)
    rw [f.roundPack_of_pos _ _ _ _ hpos, f.roundMant_sticky hy hs hrm hhi]
    refine f.yields_round False (mant &&& (2 ^ f.rndSize - 1) ≠ 0) hmag ?_ (fun _ => ?_) h1 h2 ?_
    · rw [← hmag, Format.roundMag, ne_eq, ne_eq, not_iff_not, roundTo_exact_iff _ _ (by unfold Format.quantum; positivity),
        hlog, format_emin, max_eq_left (by omega), format_quantum, magnitude_div_quantum]
      exact f.rndBits_sticky hy m neg
    · rw [hun, false_iff, not_and, not_lt, format_emin]
      intro _
      calc (2 : ℚ) ^ (1 - f.bias) ≤ 2 ^ (exp - f.bias) := zpow_le_zpow_right₀ (by norm_num) (by omega)
        _ = 2 ^ f.mantSize * 2 ^ (exp - f.bias - f.mantSize) := by rw [two_zpow_split]; congr 1; ring
        _ ≤ _ := by
          have hn1' : ((2 ^ f.mantSize : ℕ) : ℚ) ≤ n := Nat.cast_le.2 hn1
          push_cast at hn1'
          exact mul_le_mul_of_nonneg_right hn1' (by positivity)
    · rw [h3, or_overflow, ← or_flags, if_neg not_false]
  · -- the mantissa is shifted down to the least exponent first
    obtain ⟨d, hd⟩ : ∃ d : ℕ, 1 - exp = d := ⟨(1 - exp).toNat, by omega⟩
    have hmF : mant < 2 ^ f.fSize := lt_trans hhi (Nat.pow_lt_pow_right (by norm_num) (by omega))
    have hshift : f.rshiftRnd mant (1 - exp) = shiftJam mant d := by
      rw [f.rshiftRnd_eq hmF (by omega), hd, Int.toNat_natCast]
    have hy' := stickyAt_shiftAny hy d
    have hle : shiftJam mant d < 2 ^ (f.fSize - 1) := by
      have h := sticky_shiftJam mant d
      rw [h.lt_even_iff (by rw [show f.fSize - 1 = f.fSize - 2 + 1 by omega, pow_succ]; omega), div_lt_iff₀ (by positivity)]
      calc (mant : ℚ) < (2 ^ (f.fSize - 1) : ℕ) := by exact_mod_cast hhi
        _ ≤ _ := le_mul_of_one_le_right (by positivity) (one_le_pow₀ (by norm_num))
    set n := roundNat m neg (y / 2 ^ d / 2 ^ f.rndSize) with hn
    have hmags : f.magnitude exp y = f.magnitude 1 (y / 2 ^ d) := by
      rw [← f.magnitude_succ exp d y]; congr 1; omega
    have hmag : f.format.roundMag m neg (f.magnitude exp y) = n * 2 ^ (1 - f.bias - f.mantSize) := by
      unfold Format.roundMag
      rw [hlog, format_emin, max_eq_right (by omega), format_quantum, hmags, roundTo_magnitude]
    have hn2 : n ≤ 2 ^ f.mantSize := by
      have hfl : ⌊y / 2 ^ d / 2 ^ f.rndSize⌋₊ < 2 ^ f.mantSize := by
        rw [Nat.floor_lt (by positivity), div_lt_iff₀ (by positivity), div_lt_iff₀ (by positivity)]
        push_cast
        rw [← pow_add, ← pow_add]
        refine lt_of_lt_of_le (f.sticky_upper hy (by omega) hhi) (pow_le_pow_right₀ (by norm_num) (by omega))
      rcases roundNat_mem m neg (y / 2 ^ d / 2 ^ f.rndSize) with h | h <;> omega
    have hM1 : 2 ^ (f.mantSize + 1) = 2 * 2 ^ f.mantSize := pow_succ' ..
    obtain ⟨h1, h2, h3⟩ := f.packRounded_spec (n := n) hs hrm le_rfl (by omega) (fun _ => rfl)
      (if shiftJam mant d &&& (2 ^ f.rndSize - 1) ≠ 0 then
        (if (exp < 0 ∨ f.wadd mant (f.addend sign rm) < 2 ^ (f.fSize - 1)) ∧
          shiftJam mant d &&& (2 ^ f.rndSize - 1) ≠ 0 then fl ||| FFLAG_UNDERFLOW else fl) ||| FFLAG_INEXACT
        else if (exp < 0 ∨ f.wadd mant (f.addend sign rm) < 2 ^ (f.fSize - 1)) ∧
          shiftJam mant d &&& (2 ^ f.rndSize - 1) ≠ 0 then fl ||| FFLAG_UNDERFLOW else fl)
    have hfin : ¬ f.format.maxFinite < (n : ℚ) * 2 ^ (1 - f.bias - f.mantSize) := by
      rw [maxFinite_eq, not_lt]
      apply mul_le_mul _ (zpow_le_zpow_right₀ (by norm_num) (by omega)) (by positivity) (by positivity)
      exact_mod_cast (by have := Nat.two_pow_pos f.mantSize; omega : n ≤ 2 ^ (f.mantSize + 1) - 1)
    have hexact : shiftJam mant d &&& (2 ^ f.rndSize - 1) ≠ 0 ↔
        (n : ℚ) * 2 ^ (1 - f.bias - f.mantSize) ≠ f.magnitude exp y := by
      rw [← hmag, Format.roundMag, ne_eq, ne_eq, not_iff_not, roundTo_exact_iff _ _ (by unfold Format.quantum; positivity),
        hlog, format_emin, max_eq_right (by omega), format_quantum, hmags, magnitude_div_quantum]
      exact f.rndBits_sticky hy' m neg
    have htiny := f.tiny_iff hs hrm hlo hhi hy hneg0
    rw [f.roundPack_of_nonpos _ _ _ _ hneg0]
    dsimp only
    rw [hshift, f.roundMant_sticky hy' hs hrm hle]
    refine f.yields_round ((exp < 0 ∨ f.wadd mant (f.addend sign rm) < 2 ^ (f.fSize - 1)) ∧
      shiftJam mant d &&& (2 ^ f.rndSize - 1) ≠ 0) _ hmag hexact (fun _ => ?_) h1 h2 ?_
    · rw [hexact, htiny, and_comm]
    · rw [h3, if_neg hfin, if_neg hfin, or_flags]

/-! ## `normalize` and `normalize2` -/

theorem roundPack_zero {sign rm : ℕ} (exp : ℤ) (fl : FFlags) :
    f.roundPack sign exp 0 rm fl = (f.pack sign 0 0, fl) := by
  have hR : 2 ^ (f.rndSize - 1) ≠ 0 := (Nat.two_pow_pos _).ne'
  have hadd : f.wadd 0 (f.addend sign rm) >>> f.rndSize = 0 := by
    rw [f.wadd_addend (Nat.two_pow_pos _), Nat.shiftRight_eq_div_pow, Nat.zero_add]
    exact Nat.div_eq_of_lt (f.addend_lt sign rm)
  have hmant : f.roundMant sign 0 rm = 0 := by
    unfold roundMant; rw [hadd]; simp
  have hpack (e : ℤ) : f.packRounded sign e 0 (f.addend sign rm) fl = (f.pack sign 0 0, fl) := by
    unfold packRounded; simp
  rcases lt_or_ge 0 exp with h | h
  · rw [f.roundPack_of_pos _ _ _ _ h, hmant]; simp [hpack]
  · rw [f.roundPack_of_nonpos _ _ _ _ h, f.rshiftRnd_eq (Nat.two_pow_pos _) (by omega)]
    simp [shiftJam, hmant, hpack]

theorem shl_eq {a d : ℕ} (h : a * 2 ^ d < 2 ^ f.fSize) : f.shl a d = a * 2 ^ d := by
  unfold shl; rw [Nat.shiftLeft_eq, Nat.mod_eq_of_lt h]

/-- A nonzero number shifted up so that its leading bit is at `n - 1`. -/
theorem leading_bit {a n : ℕ} (ha : a ≠ 0) (hn : a < 2 ^ n) :
    2 ^ (n - 1) ≤ a * 2 ^ (n - a.size) ∧ a * 2 ^ (n - a.size) < 2 ^ n ∧ 0 < a.size ∧ a.size ≤ n := by
  have hpos : 0 < a.size := Nat.size_pos.2 (Nat.pos_of_ne_zero ha)
  have hle : a.size ≤ n := Nat.size_le.2 hn
  have h1 : 2 ^ (a.size - 1) ≤ a := Nat.lt_size.1 (by omega)
  have h2 : a < 2 ^ a.size := Nat.lt_size_self a
  refine ⟨?_, ?_, hpos, hle⟩
  · calc 2 ^ (n - 1) = 2 ^ (a.size - 1) * 2 ^ (n - a.size) := by rw [← pow_add]; congr 1; omega
      _ ≤ _ := Nat.mul_le_mul_right _ h1
  · calc a * 2 ^ (n - a.size) < 2 ^ a.size * 2 ^ (n - a.size) := Nat.mul_lt_mul_of_pos_right h2 (Nat.two_pow_pos _)
      _ = 2 ^ n := by rw [← pow_add]; congr 1; omega

theorem magnitude_scale (exp : ℤ) (d : ℕ) (y : ℚ) : f.magnitude (exp - d) (y * 2 ^ d) = f.magnitude exp y := by
  have h := f.magnitude_succ (exp - d) d (y * 2 ^ d)
  rw [mul_div_assoc, div_self (by positivity), mul_one, Int.sub_add_cancel] at h
  exact h.symm

/-- What a mantissa of known leading bit needs to be rounded right after normalization: it is the exact value, or its
sticky bit ends up two below the unit. -/
def Rounds (mant : ℕ) (y : ℚ) : Prop :=
  y = mant ∨ ∃ k e, StickyAt k mant y ∧ 2 ^ e ≤ mant ∧ k + f.mantSize + 2 ≤ e

theorem Rounds.at {mant : ℕ} {y : ℚ} (h : f.Rounds mant y) {d n : ℕ} (hd : mant * 2 ^ d < 2 ^ n) :
    StickyAt (n - f.mantSize - 3) (mant * 2 ^ d) (y * 2 ^ d) := by
  rcases h with rfl | ⟨k, e, hk, he, hle⟩
  · have := sticky_shiftJam (mant * 2 ^ d) (n - f.mantSize - 3)
    unfold StickyAt
    push_cast at this
    exact this
  · refine (hk.scale d).mono ?_
    have : 2 ^ (e + d) < 2 ^ n := by
      rw [pow_add]; exact lt_of_le_of_lt (Nat.mul_le_mul_right _ he) hd
    have := (Nat.pow_lt_pow_iff_right (by norm_num : 1 < 2)).1 this
    omega

section normalize

variable {sign rm : ℕ} (hs : sign ≤ 1) (hrm : rm ≤ 4)

theorem normalize_zero (exp : ℤ) (fl : FFlags) : f.normalize sign exp 0 rm fl = (f.pack sign 0 0, fl) := by
  unfold normalize
  have : ∀ d, f.shl 0 d = 0 := fun d => by simp [shl]
  simp only [this, roundPack_zero]

include hs hrm

theorem normalize_yields {mant : ℕ} {y : ℚ} (h0 : mant ≠ 0) (hm : mant < 2 ^ (f.fSize - 1)) (h : f.Rounds mant y)
    (exp : ℤ) (fl : FFlags) :
    f.Yields (f.normalize sign exp mant rm fl) fl
      (f.format.round (roundingOf rm) (decide (sign ≠ 0)) (f.magnitude exp y)) := by
  have hF := f.fSize_eq
  obtain ⟨hl, hu, hpos, hle⟩ := leading_bit h0 hm
  set d := f.fSize - 1 - mant.size with hd
  have hshift : (f.leadingZeros mant : ℤ) - (f.fSize - 1 - f.imantSize : ℕ) = d := by
    unfold leadingZeros imantSize; omega
  have hlt : mant * 2 ^ d < 2 ^ f.fSize := lt_trans hu (Nat.pow_lt_pow_right (by norm_num) (by omega))
  unfold normalize
  simp only [hshift, Int.toNat_natCast, f.shl_eq hlt]
  rw [← f.magnitude_scale exp d y]
  refine f.roundPack_yields hs hrm hl hu ?_ fl
  exact (h.at f hu).mono (by omega)

omit hs hrm in
/-- The double word shifted up by `d`, its low word jammed, as `normalize2` computes it. -/
theorem shiftJam_double {hi lo d : ℕ} (hlo : lo < 2 ^ f.fSize) (ht : (hi * 2 ^ f.fSize + lo) * 2 ^ d < 2 ^ (2 * f.fSize)) :
    shiftJam ((hi * 2 ^ f.fSize + lo) * 2 ^ d) f.fSize =
      if (d : ℤ) = 0 then hi ||| (if lo ≠ 0 then 1 else 0)
      else if (d : ℤ) < f.fSize then
        (f.shl hi d ||| lo >>> (f.fSize - d)) ||| (if f.shl lo d ≠ 0 then 1 else 0)
      else f.shl lo (d - f.fSize) := by
  have hFpos := Nat.two_pow_pos f.fSize
  by_cases h0 : d = 0
  · subst h0
    simp only [Nat.cast_zero, if_true, pow_zero, Nat.mul_one, shiftJam]
    rw [Nat.add_comm, Nat.add_mul_div_right _ _ hFpos, Nat.div_eq_of_lt hlo, Nat.zero_add, Nat.add_mul_mod_self_right,
      Nat.mod_eq_of_lt hlo, ite_not]
  rw [if_neg (by omega)]
  have hsplit : (hi * 2 ^ f.fSize + lo) * 2 ^ d = lo * 2 ^ d + hi * 2 ^ d * 2 ^ f.fSize := by ring
  by_cases hd : d < f.fSize
  · have hhi : hi * 2 ^ d < 2 ^ f.fSize := by
      by_contra hge
      have h1 : 2 ^ f.fSize * 2 ^ f.fSize ≤ hi * 2 ^ d * 2 ^ f.fSize := Nat.mul_le_mul_right _ (not_lt.1 hge)
      rw [two_mul, pow_add] at ht
      omega
    have hpd : 2 ^ f.fSize = 2 ^ (f.fSize - d) * 2 ^ d := by rw [← pow_add]; congr 1; omega
    have hlod : lo * 2 ^ d / 2 ^ f.fSize = lo / 2 ^ (f.fSize - d) := by
      rw [hpd, Nat.mul_div_mul_right _ _ (Nat.two_pow_pos d)]
    have hor : hi * 2 ^ d ||| lo / 2 ^ (f.fSize - d) = lo / 2 ^ (f.fSize - d) + hi * 2 ^ d := by
      rw [Nat.mul_comm hi, ← Nat.two_pow_add_eq_or_of_lt, Nat.add_comm]
      rw [Nat.div_lt_iff_lt_mul (Nat.two_pow_pos _), ← pow_add, Nat.add_sub_cancel' hd.le]
      exact hlo
    rw [if_pos (by omega), f.shl_eq hhi, Nat.shiftRight_eq_div_pow, hor]
    unfold shiftJam shl
    rw [hsplit, Nat.add_mul_div_right _ _ hFpos, Nat.add_mul_mod_self_right, hlod, Nat.shiftLeft_eq, ite_not]
  · obtain ⟨c, rfl⟩ := Nat.exists_eq_add_of_le (not_lt.1 hd)
    have hhi : hi = 0 := by
      by_contra hne
      have h1 : 2 ^ f.fSize * 2 ^ f.fSize ≤ hi * 2 ^ (f.fSize + c) * 2 ^ f.fSize := by
        apply Nat.mul_le_mul_right
        calc 2 ^ f.fSize ≤ 2 ^ (f.fSize + c) := Nat.pow_le_pow_right (by norm_num) (by omega)
          _ ≤ _ := Nat.le_mul_of_pos_left _ (Nat.pos_of_ne_zero hne)
      rw [hsplit, two_mul, pow_add 2 f.fSize f.fSize] at ht
      omega
    subst hhi
    have hlt : lo * 2 ^ c < 2 ^ f.fSize := by
      rw [hsplit, two_mul, pow_add, pow_add] at ht
      have : lo * 2 ^ c * 2 ^ f.fSize < 2 ^ f.fSize * 2 ^ f.fSize := by
        calc lo * 2 ^ c * 2 ^ f.fSize = lo * (2 ^ f.fSize * 2 ^ c) := by ring
          _ < _ := by omega
      exact lt_of_mul_lt_mul_right this (Nat.zero_le _)
    rw [if_neg (by omega), Nat.add_sub_cancel_left, f.shl_eq hlt, hsplit, Nat.zero_mul, Nat.zero_mul, Nat.add_zero,
      Nat.add_comm f.fSize c, pow_add, ← Nat.mul_assoc]
    have := shiftJam_mul_two_pow (lo * 2 ^ c) f.fSize 0
    rwa [Nat.zero_add, shiftJam_zero] at this

theorem normalize2_yields {hi lo : ℕ} {y : ℚ} (hhi : hi < 2 ^ (f.fSize - 1)) (hlo : lo < 2 ^ f.fSize)
    (h0 : hi * 2 ^ f.fSize + lo ≠ 0) (h : f.Rounds (hi * 2 ^ f.fSize + lo) y) (exp : ℤ) (fl : FFlags) :
    f.Yields (f.normalize2 sign exp hi lo rm fl) fl
      (f.format.round (roundingOf rm) (decide (sign ≠ 0)) (f.magnitude exp (y / 2 ^ f.fSize))) := by
  have hF := f.fSize_eq
  have hR := f.rndSize_ge
  have hFpos := Nat.two_pow_pos f.fSize
  set t := hi * 2 ^ f.fSize + lo with ht
  have htm : t < 2 ^ (2 * f.fSize - 1) := by
    rw [show 2 * f.fSize - 1 = f.fSize - 1 + f.fSize by omega, pow_add]
    calc t < hi * 2 ^ f.fSize + 2 ^ f.fSize := by omega
      _ = (hi + 1) * 2 ^ f.fSize := by ring
      _ ≤ _ := Nat.mul_le_mul_right _ hhi
  obtain ⟨hl, hu, hpos, hle⟩ := leading_bit h0 htm
  set d := 2 * f.fSize - 1 - t.size with hd
  have hsize : (if hi = 0 then (f.fSize : ℤ) + f.leadingZeros lo else f.leadingZeros hi) -
      (f.fSize - 1 - f.imantSize : ℕ) = d := by
    unfold leadingZeros imantSize
    by_cases hz : hi = 0
    · have htl : t = lo := by rw [ht, hz]; simp
      have : lo.size ≤ f.fSize := Nat.size_le.2 hlo
      rw [if_pos hz, hd, htl] at *
      omega
    · have hts : t.size = hi.size + f.fSize := by
        have h1 := Nat.lt_size_self hi
        have hzp : 0 < hi.size := Nat.size_pos.2 (Nat.pos_of_ne_zero hz)
        have h2 : 2 ^ (hi.size - 1) ≤ hi := Nat.lt_size.1 (by omega)
        apply le_antisymm
        · rw [Nat.size_le, pow_add]
          calc t < (hi + 1) * 2 ^ f.fSize := by rw [Nat.add_mul]; omega
            _ ≤ _ := Nat.mul_le_mul_right _ h1
        · rw [show hi.size + f.fSize = hi.size - 1 + f.fSize + 1 by omega, Nat.succ_le_iff, Nat.lt_size, pow_add]
          exact le_trans (Nat.mul_le_mul_right _ h2) (Nat.le_add_right _ _)
      have : hi.size ≤ f.fSize - 1 := Nat.size_le.2 hhi
      rw [if_neg hz]
      omega
  have hjam := f.shiftJam_double hlo (lt_of_lt_of_le hu (Nat.pow_le_pow_right (by norm_num) (by omega)))
  have hs1 := sticky_shiftJam (t * 2 ^ d) f.fSize
  unfold normalize2
  simp only [hsize, Int.toNat_natCast]
  rw [← hjam, ← f.magnitude_scale exp d (y / 2 ^ f.fSize), div_mul_eq_mul_div]
  refine f.roundPack_yields hs hrm ?_ ?_ ?_ fl
  · rw [hs1.even_le_iff (by rw [show f.fSize - 2 = f.fSize - 3 + 1 by omega, pow_succ]; omega), le_div_iff₀ (by positivity)]
    have : 2 ^ (f.fSize - 2) * 2 ^ f.fSize ≤ t * 2 ^ d := by
      rw [← pow_add, show f.fSize - 2 + f.fSize = 2 * f.fSize - 1 - 1 by omega]; exact hl
    exact_mod_cast this
  · rw [hs1.lt_even_iff (by rw [show f.fSize - 1 = f.fSize - 2 + 1 by omega, pow_succ]; omega), div_lt_iff₀ (by positivity)]
    have : t * 2 ^ d < 2 ^ (f.fSize - 1) * 2 ^ f.fSize := by
      rw [← pow_add, show f.fSize - 1 + f.fSize = 2 * f.fSize - 1 by omega]; exact hu
    exact_mod_cast this
  · have h1 := h.at f hu
    have h2 := h1.shiftJam (d := f.fSize) (by omega)
    exact h2.mono (by omega)

end normalize

end Sf
end Lish.SoftFp
