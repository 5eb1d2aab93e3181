import Mathlib.Data.Nat.Bitwise
import Lish.Core.SoftFpOperand
/-!
# SoftFpAdd — addition and subtraction are correctly rounded

The operand of larger magnitude comes first, so the other is the one shifted down.  A shift of at most three bits loses
nothing; after a larger one the difference keeps its leading bit, and the sticky bit stays below the guard bit.
-/
namespace Lish.SoftFp.Sf

open Lish.Ieee

theorem roundSum_comm (F : Format) (m : Rounding) (sx sy : Bool) (s : ℚ) :
    F.roundSum m sx sy s = F.roundSum m sy sx s := by
  unfold Format.roundSum
  by_cases h : sx = sy
  · rw [h]
  · rw [if_neg h, if_neg (Ne.symm h)]

theorem add_comm_spec (F : Format) (m : Rounding) (x y : Datum) : F.add m x y = F.add m y x := by
  unfold Format.add
  rw [Bool.or_comm x.isNan, Bool.or_comm x.isSignaling, add_comm x.toRat, roundSum_comm F m x.neg]
  cases x <;> cases y <;> simp [Datum.isNan, Datum.isInf, Datum.neg]
  rename_i s t
  cases s <;> cases t <;> simp

variable (f : Sf)

theorem low_bits (a : ℕ) : a &&& (f.signMask - 1) = f.expOf a * 2 ^ f.mantSize + f.mantOf a := by
  unfold signMask
  rw [Nat.and_two_pow_sub_one_eq_mod]
  conv_lhs => rw [f.fields_eq a]
  rw [Nat.add_assoc, Nat.mul_add_mod_self_right]
  exact Nat.mod_eq_of_lt (f.assembled_low_lt (f.expOf_lt a) (f.mantOf_lt a))

/-- The body of `add` after the swap. -/
def addOrdered (a b rm : ℕ) (fl : FFlags) : ℕ × FFlags :=
  let aSign := f.signOf a
  let bSign := f.signOf b
  let aExp := f.expOf a
  let bExp := f.expOf b
  let aMant := f.shl (f.mantOf a) 3
  let bMant := f.shl (f.mantOf b) 3
  if aExp = f.expMask then
    if aMant ≠ 0 then
      (f.qnan, invalidOpIf (aMant &&& f.shl f.qnanMask 3 = 0 ∨ f.isSignan b) fl)
    else if bExp = f.expMask ∧ aSign ≠ bSign then (f.qnan, fl ||| FFLAG_INVALID_OP)
    else (a, fl)
  else
    let (aExp, aMant) := if aExp = 0 then (1, aMant) else (aExp, aMant ||| 2 ^ (f.mantSize + 3))
    let (bExp, bMant) := if bExp = 0 then (1, bMant) else (bExp, bMant ||| 2 ^ (f.mantSize + 3))
    let bMant := f.rshiftRnd bMant (aExp - bExp : ℕ)
    let (aSign, aMant) :=
      if aSign = bSign then (aSign, f.wadd aMant bMant)
      else
        let aMant := f.wsub aMant bMant
        (if aMant = 0 then (if rm = RM_RDN then 1 else 0) else aSign, aMant)
    f.normalize aSign ((aExp : ℤ) + ((f.rndSize : ℤ) - 3)) aMant rm fl

theorem add_eq (a b rm : ℕ) (fl : FFlags) :
    f.add a b rm fl = if a &&& (f.signMask - 1) < b &&& (f.signMask - 1) then f.addOrdered b a rm fl
      else f.addOrdered a b rm fl := by
  unfold add addOrdered
  split_ifs <;> rfl

theorem mant_shl_three (a : ℕ) : f.shl (f.mantOf a) 3 = 8 * f.mantOf a := by
  have h2 := f.two_pow_fSize; have hR := f.rndPow_ge; have hm := f.mantOf_lt a
  rw [f.shl_eq]
  · ring
  · calc f.mantOf a * 2 ^ 3 < 2 ^ f.mantSize * 16 := by omega
      _ ≤ 2 ^ f.mantSize * 2 ^ f.rndSize := Nat.mul_le_mul_left _ hR
      _ ≤ _ := by rw [h2, Nat.mul_assoc]; omega

/-- The quiet bit as `add` tests it, three bits up. -/
theorem quiet_bit {m : ℕ} (hm : m < 2 ^ f.mantSize) : 8 * m &&& f.shl f.qnanMask 3 = 0 ↔ m < f.qnanMask := by
  have hH := f.two_pow_mantSize
  have hR := f.rndPow_ge; have h2 := f.two_pow_fSize
  have hsh : f.shl f.qnanMask 3 = 2 ^ (f.mantSize - 1 + 3) := by
    unfold qnanMask
    rw [f.shl_eq, ← pow_add]
    rw [← pow_add]
    apply Nat.pow_lt_pow_right (by norm_num)
    have := f.fSize_eq; have := f.mant_ge; have := f.rndSize_ge; omega
  have h8 : 8 * m = m <<< 3 := by rw [Nat.shiftLeft_eq]; ring
  rw [hsh, h8, Nat.and_two_pow, Nat.testBit_shiftLeft]
  have hbit : m.testBit (f.mantSize - 1) = decide (2 ^ (f.mantSize - 1) ≤ m) := by
    rw [Nat.testBit_eq_decide_div_mod_eq, decide_eq_decide]
    rcases lt_or_ge m (2 ^ (f.mantSize - 1)) with h | h
    · rw [Nat.div_eq_of_lt h]; omega
    · have : m / 2 ^ (f.mantSize - 1) = 1 := by rw [Nat.div_eq_iff (Nat.two_pow_pos _)]; omega
      rw [this]; omega
  rw [Nat.add_sub_cancel, hbit]
  unfold qnanMask
  by_cases h : 2 ^ (f.mantSize - 1) ≤ m
  · simp [h]
  · simp [h, not_le.1 h]

section finite

variable {ea eb ma mb : ℕ} (hmb : mb < 2 ^ (f.mantSize + 1)) (hea : 1 < ea → 2 ^ f.mantSize ≤ ma) (heb : 1 ≤ eb)
  (hle : eb ≤ ea)
include hmb hea heb hle

/-- What the shifted-down addend is: a sticky integer, exact when the shift is at most three, else much below the
leading bit of the other. -/
theorem aligned_spec :
    Sticky (shiftJam (8 * mb) (ea - eb)) (8 * mb / 2 ^ (ea - eb)) ∧
    ((shiftJam (8 * mb) (ea - eb) : ℚ) = 8 * mb / 2 ^ (ea - eb) ∨
      (shiftJam (8 * mb) (ea - eb) ≤ 2 ^ f.mantSize ∧ 2 ^ (f.mantSize + 3) ≤ 8 * ma)) := by
  have hs := sticky_shiftJam (8 * mb) (ea - eb)
  push_cast at hs
  refine ⟨hs, ?_⟩
  rcases Nat.lt_or_ge 3 (ea - eb) with hd | hd
  · right
    constructor
    · have hM : 2 ^ f.mantSize % 2 = 0 := by
        rw [show f.mantSize = f.mantSize - 1 + 1 by have := f.mant_ge; omega, pow_succ]; omega
      rw [hs.le_even_iff hM, div_le_iff₀ (by positivity)]
      have h16 : 16 ≤ 2 ^ (ea - eb) := by
        calc 16 = 2 ^ 4 := by norm_num
          _ ≤ _ := Nat.pow_le_pow_right (by norm_num) hd
      have : 8 * mb ≤ 2 ^ f.mantSize * 2 ^ (ea - eb) := by
        calc 8 * mb ≤ 2 ^ f.mantSize * 16 := by rw [pow_succ] at hmb; omega
          _ ≤ _ := Nat.mul_le_mul_left _ h16
      exact_mod_cast this
    · have := hea (by omega)
      rw [pow_add]; omega
  · left
    have h8 : 8 * mb = mb * 2 ^ (3 - (ea - eb)) * 2 ^ (ea - eb) := by
      rw [mul_assoc, ← pow_add, Nat.sub_add_cancel hd]; ring
    have hj : shiftJam (8 * mb) (ea - eb) = mb * 2 ^ (3 - (ea - eb)) := by
      rw [h8]
      have := shiftJam_mul_two_pow (mb * 2 ^ (3 - (ea - eb))) (ea - eb) 0
      rwa [Nat.zero_add, shiftJam_zero] at this
    rw [hj, eq_div_iff (by positivity)]
    exact_mod_cast h8.symm

theorem sum_rounds : f.Rounds (8 * ma + shiftJam (8 * mb) (ea - eb)) (8 * ma + 8 * mb / 2 ^ (ea - eb)) := by
  obtain ⟨hs, he | ⟨-, hbig⟩⟩ := f.aligned_spec hmb hea heb hle
  · left; rw [← he]; push_cast; rfl
  · right
    have h := hs.add_even (n := 8 * ma) (by omega)
    push_cast at h
    exact ⟨0, f.mantSize + 3, h.at 0, by omega, by omega⟩

theorem difference_rounds (hsub : shiftJam (8 * mb) (ea - eb) ≤ 8 * ma) :
    f.Rounds (8 * ma - shiftJam (8 * mb) (ea - eb)) (8 * ma - 8 * mb / 2 ^ (ea - eb)) := by
  obtain ⟨hs, he | ⟨hsmall, hbig⟩⟩ := f.aligned_spec hmb hea heb hle
  · left; rw [← he, Nat.cast_sub hsub]; push_cast; rfl
  · right
    have h := hs.even_sub (n := 8 * ma) (by omega) hsub
    push_cast at h
    refine ⟨0, f.mantSize + 2, h.at 0, ?_, by omega⟩
    rw [pow_add] at hbig ⊢
    omega

omit hmb hea heb in
theorem magnitude_aligned (ma : ℕ) (z : ℚ) (s : ℚ) :
    f.magnitude ((ea : ℤ) + ((f.rndSize : ℤ) - 3)) (8 * ma + s * (8 * z / 2 ^ (ea - eb))) =
      ma * 2 ^ ((ea : ℤ) - f.bias - f.mantSize) + s * (z * 2 ^ ((eb : ℤ) - f.bias - f.mantSize)) := by
  unfold magnitude
  have h1 : (ea : ℤ) + ((f.rndSize : ℤ) - 3) - f.bias - f.mantSize - f.rndSize =
      ((ea : ℤ) - f.bias - f.mantSize) - (3 : ℕ) := by push_cast; ring
  have h2 : (eb : ℤ) - f.bias - f.mantSize = ((ea : ℤ) - f.bias - f.mantSize) - (ea - eb : ℕ) := by
    push_cast [Nat.cast_sub hle]; ring
  have ha : (2 : ℚ) ^ ((ea : ℤ) - f.bias - f.mantSize - (3 : ℕ)) = 2 ^ ((ea : ℤ) - f.bias - f.mantSize) / 8 := by
    rw [zpow_sub₀ (by norm_num), zpow_natCast]; norm_num
  have hb : (2 : ℚ) ^ ((eb : ℤ) - f.bias - f.mantSize) = 2 ^ ((ea : ℤ) - f.bias - f.mantSize) / 2 ^ (ea - eb) := by
    rw [h2, zpow_sub₀ (by norm_num), zpow_natCast]
  rw [h1, ha, hb]
  ring

end finite

theorem yields_roundSum_zero {s : ℕ} (hs : s ≤ 1) {m : Rounding} {sx sy : Bool}
    (h : decide (s ≠ 0) = if sx = sy then sx else decide (m = .rdn)) (fl : FFlags) :
    f.Yields (f.pack s 0 0, fl) fl (f.format.roundSum m sx sy 0) := by
  unfold Format.roundSum
  rw [if_pos rfl, ← h]
  exact f.yields_zero hs fl

theorem rdn_sign {rm : ℕ} (hrm : rm ≤ 4) :
    decide ((if rm = RM_RDN then 1 else 0) ≠ 0) = decide (roundingOf rm = .rdn) := by
  interval_cases rm <;> decide

/-- A rounded sum: the sign is that of the dominating addend. -/
theorem yields_roundSum {r : ℕ × FFlags} {fl : FFlags} {m : Rounding} {sx sy neg : Bool} {x s : ℚ} (hx : 0 < x)
    (hs : s = if neg then -x else x) (h : f.Yields r fl (f.format.round m neg x)) :
    f.Yields r fl (f.format.roundSum m sx sy s) := by
  have hs0 : s ≠ 0 := by rw [hs]; split_ifs <;> linarith
  have hneg : decide (s < 0) = neg := by
    rw [hs]
    cases neg
    · simp [hx.le]
    · simp [hx]
  have habs : |s| = x := by
    rw [hs]; split_ifs
    · rw [abs_neg, abs_of_pos hx]
    · exact abs_of_pos hx
  unfold Format.roundSum
  rwa [if_neg hs0, hneg, habs]

theorem addOrdered_yields {a b rm : ℕ} (ha : a < 2 ^ f.fSize) (hb : b < 2 ^ f.fSize) (hrm : rm ≤ 4)
    (hle : b &&& (f.signMask - 1) ≤ a &&& (f.signMask - 1)) (fl : FFlags) :
    f.Yields (f.addOrdered a b rm fl) fl (f.format.add (roundingOf rm) (f.decode a) (f.decode b)) := by
  rw [low_bits, low_bits] at hle
  have hmA := f.mantOf_lt a; have hmB := f.mantOf_lt b
  have heA := f.expOf_lt a; have heB := f.expOf_lt b
  have hM := Nat.two_pow_pos f.mantSize
  have hexp : f.expOf b ≤ f.expOf a := by
    by_contra h
    have h1 : (f.expOf a + 1) * 2 ^ f.mantSize ≤ f.expOf b * 2 ^ f.mantSize := Nat.mul_le_mul_right _ (not_le.1 h)
    rw [Nat.add_mul] at h1; omega
  have hmant (he : f.expOf b = f.expOf a) : f.mantOf b ≤ f.mantOf a := by rw [he] at hle; omega
  have hmask : f.expOf a ≤ f.expMask := by unfold expMask; omega
  unfold addOrdered
  dsimp only
  rw [mant_shl_three, mant_shl_three]
  by_cases hsp : f.expOf a = f.expMask
  · -- a NaN or an infinity comes first
    rw [if_pos hsp]
    by_cases hma : f.mantOf a = 0
    · have hnanA : f.isNan a = false := by
        rw [← Bool.not_eq_true, isNan_iff]; simp [hma]
      have hnanB : f.isNan b = false := by
        rw [← Bool.not_eq_true, isNan_iff]; rintro ⟨h1, h2⟩
        have := hmant (by omega); omega
      have hinfA : (f.decode a).isInf = true := by rw [isInf_decode]; simp [hsp, hma]
      have hinfB : (f.decode b).isInf = decide (f.expOf b = f.expMask) := by
        rw [isInf_decode, decide_eq_decide]
        exact ⟨fun h => h.1, fun h => ⟨h, by have := hmant (by omega); omega⟩⟩
      rw [if_neg (by omega)]
      unfold Format.add
      rw [isNan_decode, isNan_decode, hnanA, hnanB, hinfA, hinfB, f.neg_decode hnanA, f.neg_decode hnanB]
      have hsa := f.signOf_le ha; have hsb := f.signOf_le hb
      by_cases hb' : f.expOf b = f.expMask
      · by_cases hsgn : f.signOf a = f.signOf b
        · rw [if_neg (by tauto), hsgn]
          simpa using f.yields_self ha hnanA fl
        · have hne : ¬(f.signOf a = 0 ↔ f.signOf b = 0) := by omega
          rw [if_pos ⟨hb', hsgn⟩]
          simpa [hb', hne] using f.yields_invalid fl
      · rw [if_neg (by tauto)]
        simpa [hb'] using f.yields_self ha hnanA fl
    · have hnanA : f.isNan a = true := (f.isNan_iff a).2 ⟨hsp, hma⟩
      rw [if_pos (by omega)]
      have hspec : f.format.add (roundingOf rm) (f.decode a) (f.decode b) =
          propagate ((f.decode a).isSignaling || (f.decode b).isSignaling) := by
        unfold Format.add; rw [isNan_decode, hnanA]; rfl
      have hc : (decide (8 * f.mantOf a &&& f.shl f.qnanMask 3 = 0 ∨ f.isSignan b = true)) =
          ((f.decode a).isSignaling || (f.decode b).isSignaling) := by
        rw [isSignaling_decode, isSignaling_decode, Bool.eq_iff_iff, decide_eq_true_iff, Bool.or_eq_true, isSignan_iff f a,
          f.quiet_bit hmA]
        simp [hsp, hma]
      rw [hspec, ← hc]
      exact f.yields_nan fl _
  · -- both operands are finite
    have hspB : f.expOf b ≠ f.expMask := by omega
    obtain ⟨ea, ma, hea1, hma, hea, hua, hda⟩ := f.decode_finite hsp
    obtain ⟨eb, mb, heb1, hmb, heb, hub, hdb⟩ := f.decode_finite hspB
    have h8 (e m : ℕ) (hm : m < 2 ^ f.mantSize) : (if e = 0 then ((1 : ℕ), 8 * m) else (e, 8 * m ||| 2 ^ (f.mantSize + 3))) =
        ((if e = 0 then (1, m) else (e, m ||| 2 ^ f.mantSize)).1, 8 * (if e = 0 then ((1 : ℕ), m) else (e, m ||| 2 ^ f.mantSize)).2) := by
      split_ifs
      · rfl
      · have h1 : 8 * m < 2 ^ (f.mantSize + 3) := by rw [pow_add]; omega
        rw [or_leading h1, or_leading hm]
        simp only [Prod.mk.injEq, true_and]
        rw [pow_add]; ring
    have hle' : eb ≤ ea := by
      simp only [Prod.ext_iff] at hua hub
      split_ifs at hua hub <;> omega
    have hmle (he : eb = ea) : mb ≤ ma := by
      have hM1 := or_leading hmA
      have hM2 := or_leading hmB
      simp only [Prod.ext_iff] at hua hub
      split_ifs at hua hub <;> omega
    have hM1 : 2 ^ (f.mantSize + 1) = 2 * 2 ^ f.mantSize := pow_succ' ..
    have hR := f.rndPow_ge
    have hF2 : 2 ^ (f.fSize - 1) = 2 * 2 ^ f.mantSize * 2 ^ f.rndSize := f.two_pow_fSize_sub_one
    have hF : 32 * 2 ^ f.mantSize ≤ 2 ^ (f.fSize - 1) := by
      rw [hF2]
      calc 32 * 2 ^ f.mantSize = 2 * 2 ^ f.mantSize * 16 := by ring
        _ ≤ _ := Nat.mul_le_mul_left _ hR
    have hFF : 2 ^ (f.fSize - 1) < 2 ^ f.fSize :=
      Nat.pow_lt_pow_right (by norm_num) (by have := f.fSize_eq; omega)
    rw [if_neg hsp, h8 _ _ hmA, h8 _ _ hmB, hua, hub]
    dsimp only
    rw [f.rshiftRnd_eq (by omega) (by omega), Int.toNat_natCast]
    -- the code's mantissas against the exact values
    obtain ⟨hst, -⟩ := f.aligned_spec hmb hea heb1 hle'
    set bm := shiftJam (8 * mb) (ea - eb) with hbm
    set q : ℚ := 8 * mb / 2 ^ (ea - eb) with hq
    have hq0 : 0 ≤ q := by positivity
    have hqle : q ≤ 8 * ma := by
      rcases hle'.eq_or_lt with he | hlt
      · have := hmle he
        rw [hq, he]; simp only [Nat.sub_self, pow_zero, div_one]
        exact_mod_cast (by omega : 8 * mb ≤ 8 * ma)
      · have h1 := hea (by omega)
        rw [hq, div_le_iff₀ (by positivity)]
        have h2 : 2 ≤ 2 ^ (ea - eb) := by
          calc 2 = 2 ^ 1 := rfl
            _ ≤ _ := Nat.pow_le_pow_right (by norm_num) (by omega)
        have h3 : 8 * mb ≤ 8 * ma * 2 ^ (ea - eb) := by
          calc 8 * mb ≤ 8 * ma * 2 := by omega
            _ ≤ _ := Nat.mul_le_mul_left _ h2
        exact_mod_cast h3
    have hbmle : bm ≤ 8 * ma := by
      rw [hst.le_even_iff (by omega)]; exact_mod_cast hqle
    have hsa := f.signOf_le ha; have hsb := f.signOf_le hb
    have hadd : f.format.add (roundingOf rm) (f.decode a) (f.decode b) =
        f.format.roundSum (roundingOf rm) (decide (f.signOf a ≠ 0)) (decide (f.signOf b ≠ 0))
          ((f.decode a).toRat + (f.decode b).toRat) := by
      unfold Format.add
      rw [hda, hdb]
      simp [Datum.isNan, Datum.isInf, Datum.neg]
    have hvala : (f.decode a).toRat = if decide (f.signOf a ≠ 0) then -(ma * 2 ^ ((ea : ℤ) - f.bias - f.mantSize) : ℚ)
        else ma * 2 ^ ((ea : ℤ) - f.bias - f.mantSize) := by rw [hda]; rfl
    have hvalb : (f.decode b).toRat = if decide (f.signOf b ≠ 0) then -(mb * 2 ^ ((eb : ℤ) - f.bias - f.mantSize) : ℚ)
        else mb * 2 ^ ((eb : ℤ) - f.bias - f.mantSize) := by rw [hdb]; rfl
    rw [hadd, hvala, hvalb]
    set va : ℚ := ma * 2 ^ ((ea : ℤ) - f.bias - f.mantSize) with hva
    set vb : ℚ := mb * 2 ^ ((eb : ℤ) - f.bias - f.mantSize) with hvb
    have hmagp : f.magnitude ((ea : ℤ) + ((f.rndSize : ℤ) - 3)) (8 * ma + q) = va + vb := by
      have := f.magnitude_aligned hle' ma (mb : ℚ) 1
      rwa [one_mul, one_mul] at this
    have hmagm : f.magnitude ((ea : ℤ) + ((f.rndSize : ℤ) - 3)) (8 * ma - q) = va - vb := by
      have := f.magnitude_aligned hle' ma (mb : ℚ) (-1)
      rwa [neg_one_mul, neg_one_mul, ← sub_eq_add_neg, ← sub_eq_add_neg] at this
    have hmagpos {z : ℚ} (hz : 0 < z) : 0 < f.magnitude ((ea : ℤ) + ((f.rndSize : ℤ) - 3)) z := by
      unfold magnitude; positivity
    by_cases hsgn : f.signOf a = f.signOf b
    · rw [if_pos hsgn]
      have hw : f.wadd (8 * ma) bm = 8 * ma + bm := Nat.mod_eq_of_lt (by omega)
      have hsum : ((if decide (f.signOf a ≠ 0) then -va else va) + if decide (f.signOf b ≠ 0) then -vb else vb) =
          if decide (f.signOf a ≠ 0) then -(va + vb) else va + vb := by
        rw [hsgn]; split_ifs <;> ring
      dsimp only
      rw [hw, hsum]
      by_cases hz : 8 * ma + bm = 0
      · have hma0 : ma = 0 := by omega
        have hq00 : q = 0 := le_antisymm (by rw [hma0] at hqle; simpa using hqle) hq0
        have hv0 : va + vb = 0 := by
          rw [← hmagp, hma0, hq00]; simp [magnitude]
        rw [hz, f.normalize_zero, hv0, hsgn]
        have hsg : decide (f.signOf b ≠ 0) = if decide (f.signOf b ≠ 0) = decide (f.signOf b ≠ 0) then
            decide (f.signOf b ≠ 0) else decide (roundingOf rm = .rdn) := (if_pos rfl).symm
        simpa using f.yields_roundSum_zero hsb hsg fl
      · have hpos : 0 < 8 * (ma : ℚ) + q := by
          by_contra hn
          have h1 : (8 * (ma : ℚ)) = 0 ∧ q = 0 := by
            constructor <;> linarith [(Nat.cast_nonneg ma : (0 : ℚ) ≤ ma)]
          have h2 : ma = 0 := by
            have := h1.1; simpa using this
          have h3 : bm = 0 := by
            refine hst.unique ?_; rw [h1.2]; exact_mod_cast Sticky.self 0
          omega
        have hn := f.normalize_yields hsa hrm hz (by omega) (f.sum_rounds hmb hea heb1 hle')
          ((ea : ℤ) + ((f.rndSize : ℤ) - 3)) fl
        rw [← hq, hmagp] at hn
        exact f.yields_roundSum (by rw [← hmagp]; exact hmagpos hpos) rfl hn
    · rw [if_neg hsgn]
      have hw : f.wsub (8 * ma) bm = 8 * ma - bm := by
        unfold wsub
        rw [← Nat.add_sub_assoc (by omega), Nat.add_comm, Nat.add_sub_assoc hbmle, Nat.add_mod_left,
          Nat.mod_eq_of_lt (by omega)]
      have hopp : decide (f.signOf b ≠ 0) = !decide (f.signOf a ≠ 0) := by
        interval_cases f.signOf a <;> interval_cases f.signOf b <;> simp_all
      have hsum : ((if decide (f.signOf a ≠ 0) then -va else va) + if decide (f.signOf b ≠ 0) then -vb else vb) =
          if decide (f.signOf a ≠ 0) then -(va - vb) else va - vb := by
        rw [hopp]; cases decide (f.signOf a ≠ 0) <;> simp <;> ring
      dsimp only
      rw [hw, hsum]
      by_cases hz : 8 * ma - bm = 0
      · have heq : bm = 8 * ma := by omega
        have hqe : q = 8 * ma := by
          rcases hst with ⟨-, h⟩ | ⟨ho, -, -⟩
          · rw [h, heq]; push_cast; rfl
          · omega
        have hv0 : va - vb = 0 := by rw [← hmagm, hqe]; simp [magnitude]
        rw [if_pos hz, hz, f.normalize_zero, hv0]
        have hs1 : (if rm = RM_RDN then 1 else 0) ≤ 1 := by split_ifs <;> omega
        have hne : decide (f.signOf a ≠ 0) ≠ decide (f.signOf b ≠ 0) := by rw [hopp]; simp
        have hsg : decide ((if rm = RM_RDN then 1 else 0) ≠ 0) =
            if decide (f.signOf a ≠ 0) = decide (f.signOf b ≠ 0) then decide (f.signOf a ≠ 0)
            else decide (roundingOf rm = .rdn) := by rw [rdn_sign hrm, if_neg hne]
        have h0 : (if decide (f.signOf a ≠ 0) then -(0 : ℚ) else 0) = 0 := by split_ifs <;> simp
        rw [h0]
        exact f.yields_roundSum_zero hs1 hsg fl
      · have hlt : bm < 8 * ma := by omega
        have hpos : 0 < 8 * (ma : ℚ) - q := by
          have := (hst.lt_even_iff (by omega)).1 hlt
          push_cast at this; linarith
        rw [if_neg hz]
        have hn := f.normalize_yields hsa hrm hz (by omega) (f.difference_rounds hmb hea heb1 hle' hbmle)
          ((ea : ℤ) + ((f.rndSize : ℤ) - 3)) fl
        rw [← hq, hmagm] at hn
        exact f.yields_roundSum (by rw [← hmagm]; exact hmagpos hpos) rfl hn

/-- **Addition is correctly rounded**, with exact flags. -/
theorem add_yields {a b rm : ℕ} (ha : a < 2 ^ f.fSize) (hb : b < 2 ^ f.fSize) (hrm : rm ≤ 4) (fl : FFlags) :
    f.Yields (f.add a b rm fl) fl (f.format.add (roundingOf rm) (f.decode a) (f.decode b)) := by
  rw [add_eq]
  split_ifs with h
  · rw [add_comm_spec]
    exact f.addOrdered_yields hb ha hrm h.le fl
  · exact f.addOrdered_yields ha hb hrm (not_lt.1 h) fl

/-! ## Subtraction flips a sign -/

theorem flip_fields (b : ℕ) :
    f.signOf (b ^^^ f.signMask) = f.signOf b ^^^ 1 ∧ f.expOf (b ^^^ f.signMask) = f.expOf b ∧
      f.mantOf (b ^^^ f.signMask) = f.mantOf b := by
  have hdvd : 2 ^ (f.fSize - 1) % 2 ^ f.mantSize = 0 := by rw [f.two_pow_sign]; exact Nat.mul_mod_left _ _
  refine ⟨?_, ?_, ?_⟩
  · unfold signOf signMask
    rw [Nat.shiftRight_xor_distrib, Nat.shiftRight_eq_div_pow (2 ^ _), Nat.div_self (Nat.two_pow_pos _)]
  · unfold expOf signMask expMask
    rw [Nat.shiftRight_xor_distrib, Nat.and_xor_distrib_right, Nat.and_two_pow_sub_one_eq_mod (2 ^ _ >>> _),
      Nat.shiftRight_eq_div_pow (2 ^ _), f.two_pow_sign, Nat.mul_div_cancel _ (Nat.two_pow_pos _), Nat.mod_self, Nat.xor_zero]
  · rw [mantOf_eq, mantOf_eq, Nat.xor_mod_two_pow]
    unfold signMask
    rw [hdvd, Nat.xor_zero]

theorem decode_flip {b : ℕ} (hb : b < 2 ^ f.fSize) : f.decode (b ^^^ f.signMask) = (f.decode b).flipSign := by
  obtain ⟨hs, he, hm⟩ := f.flip_fields b
  have hneg : decide (f.signOf b ^^^ 1 ≠ 0) = !decide (f.signOf b ≠ 0) := by
    have := f.signOf_le hb
    interval_cases f.signOf b <;> decide
  unfold decode
  rw [hs, he, hm, hneg]
  dsimp only
  split_ifs <;> rfl

/-- **Subtraction is correctly rounded**, with exact flags. -/
theorem sub_yields {a b rm : ℕ} (ha : a < 2 ^ f.fSize) (hb : b < 2 ^ f.fSize) (hrm : rm ≤ 4) (fl : FFlags) :
    f.Yields (f.sub a b rm fl) fl (f.format.sub (roundingOf rm) (f.decode a) (f.decode b)) := by
  have hs : f.signMask < 2 ^ f.fSize := Nat.pow_lt_pow_right (by norm_num) (by have := f.fSize_eq; omega)
  unfold sub Format.sub
  rw [← f.decode_flip hb]
  exact f.add_yields ha (Nat.xor_lt_two_pow hb hs) hrm fl

end Lish.SoftFp.Sf
