import Lish.Core.SoftFpAdd
import Lish.Core.SoftFpMul
/-!
# SoftFpFmaSum — the fused sum is correctly rounded

Product and addend are double words with the leading bit at `2 * fSize - 3`.  The smaller one is shifted down and jammed;
shifted past a whole word it also loses its low word, but then it lies below every bit the rounding looks at.
-/
namespace Lish.SoftFp.Sf

open Lish.Ieee

variable (f : Sf)

/-- The double word `hi:lo`. -/
def wide (hi lo : ℕ) : ℕ := hi * 2 ^ f.fSize + lo

/-- A double word as `fma` sets up its operands: the leading bit at `2 * fSize - 3`. -/
structure IsWide (hi lo : ℕ) : Prop where
  lo_lt : lo < 2 ^ f.fSize
  ge    : 2 ^ (2 * f.fSize - 3) ≤ f.wide hi lo
  lt    : f.wide hi lo < 2 ^ (2 * f.fSize - 2)
  even  : f.wide hi lo % 2 = 0

/-- The operand of smaller exponent, shifted down by the difference (inline in `fmaSum`). -/
def alignWide (shift : ℤ) (c1 c0 : ℕ) : ℕ × ℕ :=
  if shift ≥ 2 * f.fSize then (0, if c0 ||| c1 ≠ 0 then 1 else 0)
  else if shift > f.fSize then (0, f.rshiftRnd c1 (shift - f.fSize))
  else if shift = f.fSize then (0, c1 ||| (if c0 ≠ 0 then 1 else 0))
  else if shift ≠ 0 then
    let d := shift.toNat
    let mask := 2 ^ d - 1
    (c1 >>> d, f.shl c1 (f.fSize - d) ||| c0 >>> d ||| (if c0 &&& mask ≠ 0 then 1 else 0))
  else (c1, c0)

theorem fmaSum_eq (rSign : ℕ) (rExp : ℤ) (r1 r0 cSign : ℕ) (cExp : ℤ) (c1 c0 rm : ℕ) (fl : FFlags) :
    f.fmaSum rSign rExp r1 r0 cSign cExp c1 c0 rm fl =
      let (c1, c0) := f.alignWide (rExp - cExp) c1 c0
      if rSign = cSign then
        let r0 := f.wadd r0 c0
        let r1 := f.wadd (f.wadd r1 c1) (if r0 < c0 then 1 else 0)
        f.normalize2 rSign rExp r1 r0 rm fl
      else
        let tmp := r0
        let r0 := f.wsub r0 c0
        let r1 := f.wsub (f.wsub r1 c1) (if r0 > tmp then 1 else 0)
        let rSign := if r0 ||| r1 = 0 then (if rm = RM_RDN then 1 else 0) else rSign
        f.normalize2 rSign rExp r1 r0 rm fl := rfl

/-! ## Double-word arithmetic -/

section words

variable {a1 a0 b1 b0 : ℕ} (ha0 : a0 < 2 ^ f.fSize) (hb0 : b0 < 2 ^ f.fSize)

theorem wide_div (hlo : a0 < 2 ^ f.fSize) : f.wide a1 a0 / 2 ^ f.fSize = a1 := by
  unfold wide
  rw [Nat.add_comm, Nat.add_mul_div_right _ _ (Nat.two_pow_pos _), Nat.div_eq_of_lt hlo, Nat.zero_add]

theorem wide_mod (hlo : a0 < 2 ^ f.fSize) : f.wide a1 a0 % 2 ^ f.fSize = a0 := by
  unfold wide
  rw [Nat.add_comm, Nat.add_mul_mod_self_right, Nat.mod_eq_of_lt hlo]

theorem wide_lt_hi (a0 : ℕ) {n : ℕ} (h : f.wide a1 a0 < 2 ^ (n + f.fSize)) : a1 < 2 ^ n := by
  unfold wide at h
  rw [pow_add] at h
  exact lt_of_mul_lt_mul_right (lt_of_le_of_lt (Nat.le_add_right _ _) h) (Nat.zero_le _)

theorem wide_add (a1 b1 : ℕ) (ha0 : a0 < 2 ^ f.fSize) (hb0 : b0 < 2 ^ f.fSize) (h : f.wide a1 a0 + f.wide b1 b0 < 2 ^ (2 * f.fSize)) :
    f.wadd a0 b0 < 2 ^ f.fSize ∧
      f.wide (f.wadd (f.wadd a1 b1) (if f.wadd a0 b0 < b0 then 1 else 0)) (f.wadd a0 b0) = f.wide a1 a0 + f.wide b1 b0 := by
  have hP := Nat.two_pow_pos f.fSize
  have hb : a1 + b1 + (a0 + b0) / 2 ^ f.fSize < 2 ^ f.fSize := by
    rw [two_mul, pow_add] at h
    unfold wide at h
    have hdm := Nat.div_add_mod (a0 + b0) (2 ^ f.fSize)
    by_contra hge
    have := Nat.mul_le_mul_right (2 ^ f.fSize) (not_lt.1 hge)
    have hx : (a1 + b1 + (a0 + b0) / 2 ^ f.fSize) * 2 ^ f.fSize =
        a1 * 2 ^ f.fSize + b1 * 2 ^ f.fSize + 2 ^ f.fSize * ((a0 + b0) / 2 ^ f.fSize) := by ring
    omega
  refine ⟨Nat.mod_lt _ hP, ?_⟩
  unfold wadd wide
  rcases lt_or_ge (a0 + b0) (2 ^ f.fSize) with hc | hc
  · have h0 : (a0 + b0) / 2 ^ f.fSize = 0 := Nat.div_eq_of_lt hc
    rw [h0] at hb
    rw [Nat.mod_eq_of_lt hc, if_neg (by omega), Nat.mod_eq_of_lt (by omega : a1 + b1 < _), Nat.mod_eq_of_lt (by omega)]
    ring
  · have h1 : (a0 + b0) / 2 ^ f.fSize = 1 := by rw [Nat.div_eq_iff hP]; omega
    have hm : (a0 + b0) % 2 ^ f.fSize = a0 + b0 - 2 ^ f.fSize := by
      rw [Nat.mod_eq_sub_mod hc, Nat.mod_eq_of_lt (by omega)]
    rw [h1] at hb
    rw [hm, if_pos (by omega), Nat.mod_eq_of_lt (by omega : a1 + b1 < _), Nat.mod_eq_of_lt (by omega)]
    have : (a1 + b1 + 1) * 2 ^ f.fSize = a1 * 2 ^ f.fSize + b1 * 2 ^ f.fSize + 2 ^ f.fSize := by ring
    omega

theorem wsub_of_le {a b : ℕ} (ha : a < 2 ^ f.fSize) (h : b ≤ a) : f.wsub a b = a - b := by
  unfold wsub
  rw [Nat.mod_eq_sub_mod (by omega), Nat.mod_eq_of_lt (by omega)]
  omega

theorem wide_sub (ha0 : a0 < 2 ^ f.fSize) (hb0 : b0 < 2 ^ f.fSize) (ha1 : a1 < 2 ^ f.fSize)
    (h : f.wide b1 b0 ≤ f.wide a1 a0) :
    f.wsub a0 b0 < 2 ^ f.fSize ∧
      f.wide (f.wsub (f.wsub a1 b1) (if f.wsub a0 b0 > a0 then 1 else 0)) (f.wsub a0 b0) = f.wide a1 a0 - f.wide b1 b0 := by
  have hP := Nat.two_pow_pos f.fSize
  refine ⟨Nat.mod_lt _ hP, ?_⟩
  unfold wide at h ⊢
  rcases le_or_gt b0 a0 with hc | hc
  · have h1 : b1 ≤ a1 := by
      by_contra hlt
      have := Nat.mul_le_mul_right (2 ^ f.fSize) (Nat.succ_le_of_lt (not_le.1 hlt))
      rw [Nat.succ_mul] at this
      omega
    rw [f.wsub_of_le ha0 hc, if_neg (by omega), f.wsub_of_le ha1 h1, f.wsub_of_le (by omega) (Nat.zero_le _), Nat.sub_zero,
      Nat.sub_mul]
    have := Nat.mul_le_mul_right (2 ^ f.fSize) h1
    omega
  · have h1 : b1 < a1 := by
      by_contra hle
      have := Nat.mul_le_mul_right (2 ^ f.fSize) (not_lt.1 hle)
      omega
    have hw : f.wsub a0 b0 = a0 + 2 ^ f.fSize - b0 := by
      unfold wsub; rw [Nat.mod_eq_of_lt (by omega)]; omega
    rw [hw, if_pos (by omega), f.wsub_of_le ha1 h1.le, f.wsub_of_le (by omega) (by omega)]
    have h2 : (a1 - b1 - 1) * 2 ^ f.fSize = a1 * 2 ^ f.fSize - b1 * 2 ^ f.fSize - 2 ^ f.fSize := by
      rw [Nat.sub_mul, Nat.sub_mul, Nat.one_mul]
    have h3 := Nat.mul_le_mul_right (2 ^ f.fSize) (Nat.succ_le_of_lt h1)
    rw [Nat.succ_mul] at h3
    omega

end words

/-! ## Alignment -/

section align

variable {r1 r0 c1 c0 : ℕ}

theorem align_small (c1 : ℕ) {s : ℕ} (h0 : 0 < s) (hs : s < f.fSize) (hc : c0 < 2 ^ f.fSize) :
    (f.alignWide s c1 c0).2 < 2 ^ f.fSize ∧
      f.wide (f.alignWide s c1 c0).1 (f.alignWide s c1 c0).2 = shiftJam (f.wide c1 c0) s := by
  have hpow : 2 ^ f.fSize = 2 ^ s * 2 ^ (f.fSize - s) := by rw [← pow_add]; congr 1; omega
  have hlt : c0 / 2 ^ s < 2 ^ (f.fSize - s) := by
    rw [Nat.div_lt_iff_lt_mul (Nat.two_pow_pos _), Nat.mul_comm, ← hpow]; exact hc
  have hlow : f.shl c1 (f.fSize - s) = 2 ^ (f.fSize - s) * (c1 % 2 ^ s) := by
    unfold shl
    rw [Nat.shiftLeft_eq, hpow, Nat.mul_mod_mul_right, Nat.mul_comm]
  have hsum : f.shl c1 (f.fSize - s) ||| c0 / 2 ^ s = 2 ^ (f.fSize - s) * (c1 % 2 ^ s) + c0 / 2 ^ s := by
    rw [hlow, ← Nat.two_pow_add_eq_or_of_lt hlt]
  have hlt2 : 2 ^ (f.fSize - s) * (c1 % 2 ^ s) + c0 / 2 ^ s < 2 ^ f.fSize := by
    rw [hpow, Nat.mul_comm (2 ^ s)]
    calc 2 ^ (f.fSize - s) * (c1 % 2 ^ s) + c0 / 2 ^ s < 2 ^ (f.fSize - s) * (c1 % 2 ^ s) + 2 ^ (f.fSize - s) := by omega
      _ = 2 ^ (f.fSize - s) * (c1 % 2 ^ s + 1) := by ring
      _ ≤ _ := Nat.mul_le_mul_left _ (Nat.mod_lt _ (Nat.two_pow_pos _))
  have hst : (if c0 &&& (2 ^ s - 1) ≠ 0 then 1 else 0) < 2 ^ f.fSize := by
    have : 1 < 2 ^ f.fSize := Nat.one_lt_two_pow (by omega)
    split_ifs <;> omega
  have halign : f.alignWide s c1 c0 = (c1 / 2 ^ s, f.shl c1 (f.fSize - s) ||| c0 / 2 ^ s |||
      (if c0 &&& (2 ^ s - 1) ≠ 0 then 1 else 0)) := by
    unfold alignWide
    rw [if_neg (by omega), if_neg (by omega), if_neg (by omega), if_pos (by omega), Int.toNat_natCast]
    dsimp only
    rw [Nat.shiftRight_eq_div_pow, Nat.shiftRight_eq_div_pow]
  rw [halign, hsum]
  refine ⟨Nat.or_lt_two_pow hlt2 hst, ?_⟩
  have hdiv : f.wide c1 c0 / 2 ^ s = 2 ^ f.fSize * (c1 / 2 ^ s) + (2 ^ (f.fSize - s) * (c1 % 2 ^ s) + c0 / 2 ^ s) := by
    have hc1 : f.wide c1 c0 = c0 + 2 ^ s * (c1 * 2 ^ (f.fSize - s)) := by unfold wide; rw [hpow]; ring
    have hdm := Nat.div_add_mod c1 (2 ^ s)
    rw [hc1, Nat.add_mul_div_left _ _ (Nat.two_pow_pos _)]
    calc c0 / 2 ^ s + c1 * 2 ^ (f.fSize - s)
        = c0 / 2 ^ s + (2 ^ s * (c1 / 2 ^ s) + c1 % 2 ^ s) * 2 ^ (f.fSize - s) := by rw [hdm]
      _ = _ := by rw [hpow]; ring
  have hmod : f.wide c1 c0 % 2 ^ s = c0 &&& (2 ^ s - 1) := by
    rw [Nat.and_two_pow_sub_one_eq_mod]
    unfold wide
    rw [hpow, show c1 * (2 ^ s * 2 ^ (f.fSize - s)) + c0 = c0 + 2 ^ s * (c1 * 2 ^ (f.fSize - s)) by ring,
      Nat.add_mul_mod_self_left]
  unfold shiftJam
  rw [hdiv, hmod, ite_not, wide, Nat.mul_comm (c1 / 2 ^ s), Nat.two_pow_add_eq_or_of_lt hlt2,
    Nat.two_pow_add_eq_or_of_lt (Nat.or_lt_two_pow hlt2 (by simpa only [ite_not] using hst)), Nat.or_assoc]

/-- What alignment leaves of the smaller operand: its exact value, a sticky one well below the other operand, or, when
its low word is lost, something below every bit of the other. -/
theorem align_spec (hc : f.IsWide c1 c0) (hlow : c0 ≠ 0 → r0 = 0) (s : ℕ) :
    let w := f.wide (f.alignWide s c1 c0).1 (f.alignWide s c1 c0).2
    let y : ℚ := f.wide c1 c0 / 2 ^ s
    (f.alignWide s c1 c0).2 < 2 ^ f.fSize ∧
      (w = y ∨ (Sticky w y ∧ 2 ≤ s) ∨ (r0 = 0 ∧ 2 ≤ s ∧ StickyAt (f.fSize - 2) w y ∧ w < 2 ^ (f.fSize - 2))) := by
  have hF := f.fSize_eq; have hR := f.rndSize_ge
  have hpos : 0 < f.wide c1 c0 := lt_of_lt_of_le (Nat.two_pow_pos _) hc.ge
  have hc1 : c1 < 2 ^ (f.fSize - 2) := f.wide_lt_hi c0 (by
    rw [show f.fSize - 2 + f.fSize = 2 * f.fSize - 2 by omega]; exact hc.lt)
  have hc1F : c1 < 2 ^ f.fSize := lt_trans hc1 (Nat.pow_lt_pow_right (by norm_num) (by omega))
  dsimp only
  rcases Nat.eq_zero_or_pos s with rfl | h0
  · -- nothing to shift
    have : f.alignWide (0 : ℕ) c1 c0 = (c1, c0) := by
      unfold alignWide
      rw [if_neg (by omega), if_neg (by omega), if_neg (by omega), if_neg (by simp)]
    rw [this]
    exact ⟨hc.lo_lt, Or.inl (by simp)⟩
  rcases lt_or_ge s f.fSize with hs | hs
  · obtain ⟨h1, h2⟩ := f.align_small c1 h0 hs hc.lo_lt
    have hst := sticky_shiftJam (f.wide c1 c0) s
    refine ⟨h1, ?_⟩
    rw [h2]
    rcases Nat.lt_or_ge 1 s with h | h
    · exact Or.inr (Or.inl ⟨hst, h⟩)
    · -- one place: the operand is even
      obtain rfl : s = 1 := by omega
      left
      have he : f.wide c1 c0 = f.wide c1 c0 / 2 * 2 ^ 1 := by have := hc.even; omega
      have hj : shiftJam (f.wide c1 c0) 1 = f.wide c1 c0 / 2 := by
        conv_lhs => rw [he]
        have := shiftJam_mul_two_pow (f.wide c1 c0 / 2) 1 0
        rwa [Nat.zero_add, shiftJam_zero] at this
      rw [hj, eq_div_iff (by norm_num)]
      exact_mod_cast he.symm
  rcases hs.eq_or_lt with rfl | hs
  · -- a whole word
    have hal : f.alignWide (f.fSize : ℕ) c1 c0 = (0, c1 ||| (if c0 ≠ 0 then 1 else 0)) := by
      unfold alignWide
      rw [if_neg (by omega), if_neg (by omega), if_pos rfl]
    have hj : c1 ||| (if c0 ≠ 0 then 1 else 0) = shiftJam (f.wide c1 c0) f.fSize := by
      unfold shiftJam
      rw [f.wide_div hc.lo_lt, f.wide_mod hc.lo_lt, ite_not]
    rw [hal, hj]
    have hw : f.wide 0 (shiftJam (f.wide c1 c0) f.fSize) = shiftJam (f.wide c1 c0) f.fSize := by
      unfold wide; rw [Nat.zero_mul, Nat.zero_add]
    rw [hw]
    refine ⟨?_, Or.inr (Or.inl ⟨sticky_shiftJam _ _, by omega⟩)⟩
    rw [← hj]
    refine Nat.or_lt_two_pow hc1F ?_
    have : 1 < 2 ^ f.fSize := Nat.one_lt_two_pow (by omega)
    split_ifs <;> omega
  rcases lt_or_ge s (2 * f.fSize) with hs2 | hs2
  · -- past a whole word: the low word is lost
    have hal : f.alignWide s c1 c0 = (0, shiftJam c1 (s - f.fSize)) := by
      unfold alignWide
      rw [if_neg (by omega), if_pos (by omega), f.rshiftRnd_eq hc1F (by omega)]
      congr 2; omega
    have hw : f.wide 0 (shiftJam c1 (s - f.fSize)) = shiftJam c1 (s - f.fSize) := by
      unfold wide; rw [Nat.zero_mul, Nat.zero_add]
    have hst := sticky_shiftJam c1 (s - f.fSize)
    have hhalf : 2 ^ (f.fSize - 2) = 2 * 2 ^ (f.fSize - 3) := by rw [← pow_succ']; congr 1; omega
    have hsmall : shiftJam c1 (s - f.fSize) < 2 ^ (f.fSize - 2) := by
      rw [hst.lt_even_iff (by rw [hhalf]; omega), div_lt_iff₀ (by positivity)]
      calc (c1 : ℚ) < (2 ^ (f.fSize - 2) : ℕ) := by exact_mod_cast hc1
        _ ≤ _ := le_mul_of_one_le_right (by positivity) (one_le_pow₀ (by norm_num))
    have hle : 2 ^ (f.fSize - 2) ≤ 2 ^ f.fSize := Nat.pow_le_pow_right (by norm_num) (by omega)
    rw [hal, hw]
    refine ⟨by omega, Or.inr ?_⟩
    by_cases hz : c0 = 0
    · left
      have hwide : f.wide c1 c0 = c1 * 2 ^ f.fSize := by unfold wide; rw [hz, Nat.add_zero]
      have hy : (f.wide c1 c0 : ℚ) / 2 ^ s = c1 / 2 ^ (s - f.fSize) := by
        rw [hwide, show s = s - f.fSize + f.fSize by omega, pow_add, Nat.add_sub_cancel]
        push_cast
        rw [mul_div_mul_right _ _ (by positivity)]
      rw [hy]
      exact ⟨hst, by omega⟩
    · right
      refine ⟨hlow hz, by omega, ?_, hsmall⟩
      -- both the word and its true value lie strictly between 0 and the first bit that counts
      have hc1pos : 0 < c1 := by
        by_contra hn
        have h1 := hc.ge
        have h2 := hc.lo_lt
        rw [Nat.eq_zero_of_not_pos hn, wide, Nat.zero_mul, Nat.zero_add] at h1
        have : 2 ^ f.fSize ≤ 2 ^ (2 * f.fSize - 3) := Nat.pow_le_pow_right (by norm_num) (by omega)
        omega
      have hwpos : 0 < shiftJam c1 (s - f.fSize) := by
        rw [hst.even_lt_iff (by rfl)]
        push_cast
        exact div_pos (by exact_mod_cast hc1pos) (by positivity)
      have hone {z : ℚ} (h1 : 0 < z) (h2 : z < 2) : Sticky 1 z := Or.inr ⟨rfl, by norm_num; exact h1, by norm_num; linarith⟩
      have hj : shiftJam (shiftJam c1 (s - f.fSize)) (f.fSize - 2) = 1 := by
        refine (sticky_shiftJam _ _).unique (hone (div_pos (by exact_mod_cast hwpos) (by positivity)) ?_)
        rw [div_lt_iff₀ (by positivity)]
        calc (shiftJam c1 (s - f.fSize) : ℚ) < (2 ^ (f.fSize - 2) : ℕ) := by exact_mod_cast hsmall
          _ ≤ _ := by push_cast; linarith [(by positivity : (0 : ℚ) < 2 ^ (f.fSize - 2))]
      unfold StickyAt
      rw [hj]
      refine hone (by positivity) ?_
      rw [div_lt_iff₀ (by positivity), div_lt_iff₀ (by positivity)]
      have hlt : f.wide c1 c0 < 2 ^ (f.fSize - 2) * 2 ^ s := by
        refine lt_of_lt_of_le hc.lt ?_
        rw [← pow_add]
        exact Nat.pow_le_pow_right (by norm_num) (by omega)
      have : (f.wide c1 c0 : ℚ) < 2 ^ (f.fSize - 2) * 2 ^ s := by exact_mod_cast hlt
      linarith [(by positivity : (0 : ℚ) < 2 ^ (f.fSize - 2) * 2 ^ s)]
  · -- shifted out completely
    have hne : c0 ||| c1 ≠ 0 := by
      intro h
      obtain ⟨h1, h2⟩ := Nat.or_eq_zero_iff.1 h
      rw [h1, h2, wide] at hpos
      omega
    have hal : f.alignWide s c1 c0 = (0, 1) := by
      unfold alignWide
      rw [if_pos (by omega), if_pos hne]
    have hw : f.wide 0 1 = 1 := by unfold wide; rw [Nat.zero_mul, Nat.zero_add]
    rw [hal, hw]
    refine ⟨Nat.one_lt_two_pow (by omega), Or.inr (Or.inl ⟨Or.inr ⟨rfl, ?_, ?_⟩, by omega⟩)⟩
    · norm_num; positivity
    · rw [div_lt_iff₀ (by positivity)]
      have : f.wide c1 c0 < 2 ^ s := lt_of_lt_of_le hc.lt (Nat.pow_le_pow_right (by norm_num) (by omega))
      have : (f.wide c1 c0 : ℚ) < 2 ^ s := by exact_mod_cast this
      push_cast
      linarith [(by positivity : (0 : ℚ) < 2 ^ s)]

theorem wide_sub_one_bit : 2 ^ (2 * f.fSize - 2) = 2 * 2 ^ (2 * f.fSize - 3) := by
  have := f.fSize_eq
  rw [← pow_succ']; congr 1; omega

variable (hr : f.IsWide r1 r0) (hc : f.IsWide c1 c0) (hlow : c0 ≠ 0 → r0 = 0) {s : ℕ}
  (hle : s = 0 → f.wide c1 c0 ≤ f.wide r1 r0)
include hr hc

include hle in
theorem aligned_le_exact : (f.wide c1 c0 : ℚ) / 2 ^ s ≤ f.wide r1 r0 := by
  rw [div_le_iff₀ (by positivity)]
  rcases Nat.eq_zero_or_pos s with h | h
  · rw [h, pow_zero, mul_one]; exact_mod_cast hle h
  · have h2 : 2 ≤ 2 ^ s := by
      calc 2 = 2 ^ 1 := rfl
        _ ≤ _ := Nat.pow_le_pow_right (by norm_num) h
    have h3 : f.wide c1 c0 ≤ f.wide r1 r0 * 2 ^ s := by
      calc f.wide c1 c0 ≤ 2 * 2 ^ (2 * f.fSize - 3) := by rw [← f.wide_sub_one_bit]; exact hc.lt.le
        _ = 2 ^ (2 * f.fSize - 3) * 2 := Nat.mul_comm ..
        _ ≤ _ := Nat.mul_le_mul hr.ge h2
    exact_mod_cast h3

theorem aligned_lt_exact (h2 : 2 ≤ s) : (f.wide c1 c0 : ℚ) / 2 ^ s < f.wide r1 r0 := by
  rw [div_lt_iff₀ (by positivity)]
  have h4 : 4 ≤ 2 ^ s := by
    calc 4 = 2 ^ 2 := rfl
      _ ≤ _ := Nat.pow_le_pow_right (by norm_num) h2
  have h : f.wide c1 c0 < f.wide r1 r0 * 2 ^ s := by
    have h1 := hc.lt
    have h3 := Nat.mul_le_mul hr.ge h4
    have h5 := f.wide_sub_one_bit
    have h6 := Nat.two_pow_pos (2 * f.fSize - 3)
    omega
  exact_mod_cast h

omit hr in
include hlow in
/-- The aligned operand is below half of the other when two or more places were lost. -/
theorem aligned_small (h2 : 2 ≤ s) : f.wide (f.alignWide s c1 c0).1 (f.alignWide s c1 c0).2 ≤ 2 ^ (2 * f.fSize - 4) := by
  have hF := f.fSize_eq; have hR := f.rndSize_ge
  have hyle : (f.wide c1 c0 : ℚ) / 2 ^ s ≤ (2 ^ (2 * f.fSize - 4) : ℕ) := by
    rw [div_le_iff₀ (by positivity)]
    have h4 : 4 ≤ 2 ^ s := by
      calc 4 = 2 ^ 2 := rfl
        _ ≤ _ := Nat.pow_le_pow_right (by norm_num) h2
    have : f.wide c1 c0 ≤ 2 ^ (2 * f.fSize - 4) * 2 ^ s := by
      calc f.wide c1 c0 ≤ 2 ^ (2 * f.fSize - 2) := hc.lt.le
        _ = 2 ^ (2 * f.fSize - 4) * 4 := by rw [show (4 : ℕ) = 2 ^ 2 by norm_num, ← pow_add]; congr 1; omega
        _ ≤ _ := Nat.mul_le_mul_left _ h4
    exact_mod_cast this
  obtain ⟨-, he | ⟨hst, -⟩ | ⟨-, -, -, hlt⟩⟩ := f.align_spec hc hlow s
  · rw [← he] at hyle; exact_mod_cast hyle
  · rw [hst.le_even_iff (by rw [show 2 * f.fSize - 4 = 2 * f.fSize - 5 + 1 by omega, pow_succ]; omega)]
    exact hyle
  · exact le_trans hlt.le (Nat.pow_le_pow_right (by norm_num) (by omega))

include hlow hle in
theorem aligned_le : f.wide (f.alignWide s c1 c0).1 (f.alignWide s c1 c0).2 ≤ f.wide r1 r0 := by
  rcases lt_or_ge s 2 with h2 | h2
  · obtain ⟨-, he | ⟨-, h⟩ | ⟨-, h, -⟩⟩ := f.align_spec hc hlow s
    · have := f.aligned_le_exact hr hc hle
      rw [← he] at this; exact_mod_cast this
    · omega
    · omega
  · refine le_trans (f.aligned_small hc hlow h2) (le_trans ?_ hr.ge)
    exact Nat.pow_le_pow_right (by norm_num) (by omega)

include hlow in
theorem fma_sum_rounds :
    f.Rounds (f.wide r1 r0 + f.wide (f.alignWide s c1 c0).1 (f.alignWide s c1 c0).2)
      (f.wide r1 r0 + f.wide c1 c0 / 2 ^ s) := by
  have hF := f.fSize_eq; have hR := f.rndSize_ge
  obtain ⟨-, he | ⟨hst, -⟩ | ⟨hz, -, hst, -⟩⟩ := f.align_spec hc hlow s
  · left; rw [← he]; push_cast; rfl
  · right
    exact ⟨0, 2 * f.fSize - 3, (hst.add_even hr.even).at 0, le_trans hr.ge (Nat.le_add_right _ _), by omega⟩
  · right
    have hw : f.wide r1 r0 = r1 * 4 * 2 ^ (f.fSize - 2) := by
      unfold wide
      rw [hz, Nat.add_zero, Nat.mul_assoc, show (4 : ℕ) = 2 ^ 2 by norm_num, ← pow_add]; congr 2; omega
    have h := hst.add (n := r1 * 4) (by omega)
    rw [← hw] at h
    exact ⟨f.fSize - 2, 2 * f.fSize - 3, h, le_trans hr.ge (Nat.le_add_right _ _), by omega⟩

include hlow hle in
theorem fma_difference_rounds :
    f.Rounds (f.wide r1 r0 - f.wide (f.alignWide s c1 c0).1 (f.alignWide s c1 c0).2)
      (f.wide r1 r0 - f.wide c1 c0 / 2 ^ s) := by
  have hF := f.fSize_eq; have hR := f.rndSize_ge
  have hwle := f.aligned_le hr hc hlow hle
  have hbig (h2 : 2 ≤ s) : 2 ^ (2 * f.fSize - 4) ≤
      f.wide r1 r0 - f.wide (f.alignWide s c1 c0).1 (f.alignWide s c1 c0).2 := by
    have h1 := f.aligned_small hc hlow h2
    have h3 : 2 ^ (2 * f.fSize - 3) = 2 * 2 ^ (2 * f.fSize - 4) := by rw [← pow_succ']; congr 1; omega
    have h4 := hr.ge
    omega
  obtain ⟨-, he | ⟨hst, h2⟩ | ⟨hz, h2, hst, -⟩⟩ := f.align_spec hc hlow s
  · left; rw [← he, Nat.cast_sub hwle]
  · right
    exact ⟨0, 2 * f.fSize - 4, (hst.even_sub hr.even hwle).at 0, hbig h2, by omega⟩
  · right
    have hw : f.wide r1 r0 = r1 * 4 * 2 ^ (f.fSize - 2) := by
      unfold wide
      rw [hz, Nat.add_zero, Nat.mul_assoc, show (4 : ℕ) = 2 ^ 2 by norm_num, ← pow_add]; congr 2; omega
    have h := hst.sub (n := r1 * 4) (by omega) (by rw [← hw]; exact hwle)
    rw [← hw] at h
    exact ⟨f.fSize - 2, 2 * f.fSize - 4, h, hbig h2, by omega⟩

end align

/-! ## The sum -/

theorem normalize2_zero (sign rm : ℕ) (exp : ℤ) (fl : FFlags) : f.normalize2 sign exp 0 0 rm fl = (f.pack sign 0 0, fl) := by
  have h : ∀ d, f.shl 0 d = 0 := fun d => by simp [shl]
  unfold normalize2
  simp only [h, Nat.zero_shiftRight, Nat.zero_or, ne_eq, not_true, if_false, ite_self, roundPack_zero]

theorem magnitude_add (e : ℤ) (x y : ℚ) : f.magnitude e (x + y) = f.magnitude e x + f.magnitude e y := add_mul ..

theorem magnitude_sub (e : ℤ) (x y : ℚ) : f.magnitude e (x - y) = f.magnitude e x - f.magnitude e y := sub_mul ..

theorem magnitude_pos (e : ℤ) {x : ℚ} (hx : 0 < x) : 0 < f.magnitude e x := by unfold magnitude; positivity

theorem fmaSum_yields {rs cs rm : ℕ} (hrs : rs ≤ 1) (hcs : cs ≤ 1) (hrm : rm ≤ 4) {r1 r0 c1 c0 : ℕ} (hr : f.IsWide r1 r0)
    (hc : f.IsWide c1 c0) (hlow : c0 ≠ 0 → r0 = 0) {rExp cExp : ℤ} {s : ℕ} (hs : rExp - cExp = s)
    (hle : s = 0 → f.wide c1 c0 ≤ f.wide r1 r0) (fl : FFlags) {vr vc : ℚ}
    (hvr : vr = f.magnitude rExp (f.wide r1 r0 / 2 ^ f.fSize)) (hvc : vc = f.magnitude cExp (f.wide c1 c0 / 2 ^ f.fSize)) :
    f.Yields (f.fmaSum rs rExp r1 r0 cs cExp c1 c0 rm fl) fl
      (f.format.roundSum (roundingOf rm) (decide (rs ≠ 0)) (decide (cs ≠ 0))
        ((if decide (rs ≠ 0) then -vr else vr) + if decide (cs ≠ 0) then -vc else vc)) := by
  have hF := f.fSize_eq; have hR := f.rndSize_ge
  have hyle := f.aligned_le_exact hr hc hle
  have hwle := f.aligned_le hr hc hlow hle
  have hsumr := f.fma_sum_rounds hr hc hlow (s := s)
  have hdiffr := f.fma_difference_rounds hr hc hlow hle
  have hal := (f.align_spec hc hlow s).1
  have hexact := (f.align_spec hc hlow s).2
  have hsmall := f.aligned_small hc hlow (s := s)
  have hge := hr.ge
  have h23 := f.wide_sub_one_bit
  have htop : 2 ^ (2 * f.fSize) = 4 * 2 ^ (2 * f.fSize - 2) := by
    rw [show (4 : ℕ) = 2 ^ 2 by norm_num, ← pow_add]; congr 1; omega
  have htop1 : 2 ^ (f.fSize - 1 + f.fSize) = 2 * 2 ^ (2 * f.fSize - 2) := by rw [← pow_succ']; congr 1; omega
  have hr1 : r1 < 2 ^ f.fSize := f.wide_lt_hi r0 (by rw [← two_mul]; have := hr.lt; omega)
  have hlt := hr.lt
  have hvc' : vc = f.magnitude rExp (f.wide c1 c0 / 2 ^ s / 2 ^ f.fSize) := by
    rw [hvc, ← f.magnitude_scale rExp s, ← hs, sub_sub_cancel]
    congr 1
    field_simp
  rw [fmaSum_eq, hs]
  generalize f.alignWide s c1 c0 = w at *
  obtain ⟨w1, w0⟩ := w
  dsimp only at *
  have hypos : (0 : ℚ) < f.wide c1 c0 / 2 ^ s :=
    div_pos (by exact_mod_cast lt_of_lt_of_le (Nat.two_pow_pos _) hc.ge) (by positivity)
  set y : ℚ := f.wide c1 c0 / 2 ^ s with hy
  by_cases hsgn : rs = cs
  · -- like signs
    obtain ⟨hlo, hsum⟩ := f.wide_add r1 w1 hr.lo_lt hal (by omega)
    have hspec : ((if decide (rs ≠ 0) then -vr else vr) + if decide (cs ≠ 0) then -vc else vc) =
        if decide (rs ≠ 0) then -(vr + vc) else vr + vc := by
      rw [hsgn]; split_ifs <;> ring
    have hx : vr + vc = f.magnitude rExp ((f.wide r1 r0 + y) / 2 ^ f.fSize) := by
      rw [hvr, hvc', add_div, magnitude_add]
    rw [if_pos hsgn, hspec]
    generalize f.wadd r0 w0 = s0 at *
    generalize f.wadd (f.wadd r1 w1) (if s0 < w0 then 1 else 0) = s1 at *
    rw [← hsum] at hsumr
    refine f.yields_roundSum (hx ▸ f.magnitude_pos _ (by positivity)) rfl ?_
    rw [hx]
    refine f.normalize2_yields hrs hrm (f.wide_lt_hi s0 (by omega)) hlo ?_ hsumr rExp fl
    change f.wide s1 s0 ≠ 0
    have := Nat.two_pow_pos (2 * f.fSize - 3)
    omega
  · -- opposite signs
    obtain ⟨hlo, hdiff⟩ := f.wide_sub hr.lo_lt hal hr1 hwle
    have hopp : decide (cs ≠ 0) = !decide (rs ≠ 0) := by
      interval_cases rs <;> interval_cases cs <;> simp_all
    have hne : decide (rs ≠ 0) ≠ decide (cs ≠ 0) := by rw [hopp]; simp
    have hspec : ((if decide (rs ≠ 0) then -vr else vr) + if decide (cs ≠ 0) then -vc else vc) =
        if decide (rs ≠ 0) then -(vr - vc) else vr - vc := by
      rw [hopp]; cases decide (rs ≠ 0) <;> simp <;> ring
    have hx : vr - vc = f.magnitude rExp ((f.wide r1 r0 - y) / 2 ^ f.fSize) := by
      rw [hvr, hvc', sub_div, magnitude_sub]
    rw [if_neg hsgn, hspec]
    generalize f.wsub r0 w0 = s0 at *
    generalize f.wsub (f.wsub r1 w1) (if s0 > r0 then 1 else 0) = s1 at *
    rw [← hdiff] at hdiffr
    by_cases hz : s0 ||| s1 = 0
    · -- exact cancellation
      obtain ⟨h0, h1⟩ := Nat.or_eq_zero_iff.1 hz
      have hzero : f.wide r1 r0 = f.wide w1 w0 := by
        rw [h0, h1, wide, Nat.zero_mul] at hdiff; omega
      have h34 : 2 ^ (2 * f.fSize - 3) = 2 * 2 ^ (2 * f.fSize - 4) := by rw [← pow_succ']; congr 1; omega
      have hpos4 := Nat.two_pow_pos (2 * f.fSize - 4)
      have hyw : (f.wide w1 w0 : ℚ) = y := by
        rcases hexact with he | ⟨-, h2⟩ | ⟨-, h2, -⟩
        · exact he
        · have := hsmall h2; omega
        · have := hsmall h2; omega
      have hx0 : vr - vc = 0 := by
        rw [hx, ← hyw, hzero, sub_self, zero_div, magnitude, zero_mul]
      have hs1 : (if rm = RM_RDN then 1 else 0) ≤ 1 := by split_ifs <;> omega
      have hsg : decide ((if rm = RM_RDN then 1 else 0) ≠ 0) =
          if decide (rs ≠ 0) = decide (cs ≠ 0) then decide (rs ≠ 0) else decide (roundingOf rm = .rdn) := by
        rw [rdn_sign hrm, if_neg hne]
      have hz0 : (if decide (rs ≠ 0) then -(0 : ℚ) else 0) = 0 := by split_ifs <;> simp
      rw [if_pos hz, h0, h1, normalize2_zero, hx0, hz0]
      exact f.yields_roundSum_zero hs1 hsg fl
    · have hnz : f.wide s1 s0 ≠ 0 := by
        intro h
        have hP := Nat.two_pow_pos f.fSize
        unfold wide at h
        obtain ⟨h1, h2⟩ := Nat.add_eq_zero_iff.1 h
        have h3 : s1 = 0 := (Nat.mul_eq_zero.1 h1).resolve_right hP.ne'
        exact hz (by rw [h2, h3]; rfl)
      have hylt : y < f.wide r1 r0 := by
        refine lt_of_le_of_ne hyle fun he => hnz ?_
        rcases hexact with hw | ⟨-, h2⟩ | ⟨-, h2, -⟩
        · rw [he] at hw
          have : f.wide w1 w0 = f.wide r1 r0 := by exact_mod_cast hw
          omega
        · exact absurd he (ne_of_lt (f.aligned_lt_exact hr hc h2))
        · exact absurd he (ne_of_lt (f.aligned_lt_exact hr hc h2))
      rw [if_neg hz]
      refine f.yields_roundSum (hx ▸ f.magnitude_pos _ (div_pos (by linarith) (by positivity))) rfl ?_
      rw [hx]
      exact f.normalize2_yields hrs hrm (f.wide_lt_hi s0 (by omega)) hlo hnz hdiffr rExp fl

end Lish.SoftFp.Sf
