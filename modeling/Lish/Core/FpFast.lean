import Lish.Core.SoftFpAdd
import Lish.Core.SoftFpMul
import Lish.Core.SoftFpUnique
import Lish.Core.Exec
/-!
# FpFast — the native fast path against soft-float

When the fast path answers, its answer is the soft-float one; the flags it leaves out are those already set, unless the
exact result lies on the border below the least normal number, where soft-float raises underflow.
-/
namespace Lish

open Lish.Ieee SoftFp

namespace Cpu

/-- The operation numbers of OP-FP on data. -/
def binSpec (op : ℕ) (F : Format) (m : Rounding) (x y : Datum) : Datum × Flags :=
  match op with
  | 0 => F.add m x y
  | 1 => F.sub m x y
  | 2 => F.mul m x y
  | _ => F.div m x y

theorem softArith_yields (f : Sf) (op : ℕ) {a b rm : ℕ} (ha : a < 2 ^ f.fSize) (hb : b < 2 ^ f.fSize) (hrm : rm ≤ 4)
    (fl : FFlags) :
    f.Yields (softArith f op a b rm fl) fl (binSpec op f.format (roundingOf rm) (f.decode a) (f.decode b)) := by
  match op with
  | 0 => exact f.add_yields ha hb hrm fl
  | 1 => exact f.sub_yields ha hb hrm fl
  | 2 => exact f.mul_yields ha hb hrm fl
  | _ + 3 => exact f.div_yields ha hb hrm fl

theorem rne_le : RM_RNE ≤ 4 := by decide

end Cpu

/-- The host computes in the formats of the hart as IEEE 754 prescribes, to nearest even. -/
def HostFp.Ieee (h : HostFp) : Prop :=
  ∀ f, f = sf32 ∨ f = sf64 → ∀ op ≤ 3, ∀ a b, a < 2 ^ f.fSize → b < 2 ^ f.fSize →
    h f op a b < 2 ^ f.fSize ∧ f.decode (h f op a b) = (Cpu.binSpec op f.format .rne (f.decode a) (f.decode b)).1

namespace Cpu

variable (f : Sf)

/-- The exact product or quotient of two finite operands lies on the border. -/
def AtBorder (op a b : ℕ) : Prop :=
  (op = 2 ∨ op = 3) ∧ f.expOf a ≠ f.expMask ∧ f.expOf b ≠ f.expMask ∧
    f.format.Border |if op = 2 then (f.decode a).toRat * (f.decode b).toRat else (f.decode a).toRat / (f.decode b).toRat|

theorem border_pos {x : ℚ} (h : f.format.Border x) : 0 < x := by
  have hq := f.format.quantum_pos f.format.emin
  have h2 := f.format.two_zpow_eq (by exact Nat.le_add_left 1 f.mantSize) f.format.emin
  have hN : (1 : ℚ) ≤ (2 ^ (f.format.prec - 1) : ℕ) := by exact_mod_cast Nat.one_le_two_pow
  have hl := h.1
  rw [h2] at hl
  nlinarith

/-! ## What the operations compute on finite operands -/

/-- A finite datum counts least quanta. -/
theorem toRat_decode {a : ℕ} (ha : f.expOf a ≠ f.expMask) :
    ∃ n : ℤ, (f.decode a).toRat = n * f.format.quantum f.format.emin := by
  rw [f.decode_scaled ha]
  simp only [Datum.toRat]
  split_ifs
  · exact ⟨-f.scaled a, by push_cast; ring⟩
  · exact ⟨f.scaled a, by push_cast; ring⟩

/-- Two finite operands and a divisor other than zero: what is rounded. -/
inductive Rounded (op a b : ℕ) : Datum × Flags → Prop
  | zero (s : Bool) (hz : ¬ AtBorder f op a b) : Rounded op a b (.num s 0, {})
  | sum (s : Bool) {x : ℚ} (hx : 0 < x) (n : ℕ) (hn : x = n * f.format.quantum f.format.emin) (hop : ¬ (op = 2 ∨ op = 3)) :
      Rounded op a b (f.format.round .rne s x)
  | product (s : Bool) {x : ℚ} (hx : 0 < x) (hop : op = 2 ∨ op = 3) (hb : AtBorder f op a b ↔ f.format.Border x)
      (ha0 : ¬ (f.expOf a = 0 ∧ f.mantOf a = 0)) (hb0 : op = 2 → ¬ (f.expOf b = 0 ∧ f.mantOf b = 0)) :
      Rounded op a b (f.format.round .rne s x)

theorem roundSum_rounded {op a b : ℕ} (hop : ¬ (op = 2 ∨ op = 3)) (sx sy : Bool) {s : ℚ} {n : ℤ}
    (hn : s = n * f.format.quantum f.format.emin) : Rounded f op a b (f.format.roundSum .rne sx sy s) := by
  have hq := f.format.quantum_pos f.format.emin
  unfold Format.roundSum
  by_cases h0 : s = 0
  · rw [if_pos h0]
    exact .zero _ fun h => hop h.1
  · rw [if_neg h0]
    refine .sum _ (abs_pos.2 h0) n.natAbs ?_ hop
    rw [hn, abs_mul, abs_of_pos hq, Nat.cast_natAbs, Int.cast_abs]

theorem add_rounded {op a : ℕ} (b : ℕ) (hop : ¬ (op = 2 ∨ op = 3)) {y : Datum} (ha : f.expOf a ≠ f.expMask) {s : Bool}
    {q : ℚ} (hy : y = .num s q) {n : ℤ} (hn : y.toRat = n * f.format.quantum f.format.emin) :
    Rounded f op a b (f.format.add .rne (f.decode a) y) := by
  obtain ⟨k, hk⟩ := toRat_decode f ha
  have hadd : f.format.add .rne (f.decode a) y =
      f.format.roundSum .rne (f.decode a).neg y.neg ((f.decode a).toRat + y.toRat) := by
    rw [f.decode_scaled ha, hy]
    rfl
  rw [hadd]
  refine roundSum_rounded f hop _ _ (n := k + n) ?_
  rw [hk, hn]
  push_cast
  ring

theorem toRat_ne_zero {a : ℕ} (ha : f.expOf a ≠ f.expMask) :
    (f.decode a).toRat ≠ 0 ↔ ¬ (f.expOf a = 0 ∧ f.mantOf a = 0) := by
  have hz := f.isZero_decode a
  rw [f.decode_scaled ha] at hz ⊢
  unfold Datum.isZero at hz
  rw [decide_eq_decide] at hz
  rw [← hz]
  simp only [Datum.toRat]
  split_ifs <;> simp

theorem mul_rounded {a b : ℕ} (ha : f.expOf a ≠ f.expMask) (hb : f.expOf b ≠ f.expMask) :
    Rounded f 2 a b (f.format.mul .rne (f.decode a) (f.decode b)) := by
  by_cases h : (f.expOf a = 0 ∧ f.mantOf a = 0) ∨ (f.expOf b = 0 ∧ f.mantOf b = 0)
  · rw [f.mul_zero_spec .rne ha hb h]
    refine .zero _ fun hat => ?_
    have hpos := border_pos f hat.2.2.2
    rw [if_pos rfl, abs_pos, mul_ne_zero_iff, toRat_ne_zero f ha, toRat_ne_zero f hb] at hpos
    exact h.elim hpos.1 hpos.2
  · rw [not_or] at h
    have hna := f.not_nan_of_finite ha
    have hnb := f.not_nan_of_finite hb
    have hmul : f.format.mul .rne (f.decode a) (f.decode b) = f.format.round .rne
        ((f.decode a).neg != (f.decode b).neg) |(f.decode a).toRat * (f.decode b).toRat| := by
      unfold Format.mul
      rw [f.isNan_decode, f.isNan_decode, hna, hnb, f.isInf_of_not_nan hna, f.isInf_of_not_nan hnb, f.isZero_decode,
        f.isZero_decode]
      simp [ha, hb, h.1, h.2]
    rw [hmul]
    refine .product _ (abs_pos.2 (mul_ne_zero ((toRat_ne_zero f ha).2 h.1) ((toRat_ne_zero f hb).2 h.2))) (Or.inl rfl) ?_ h.1
      fun _ => h.2
    unfold AtBorder
    simp [ha, hb]

theorem div_rounded {a b : ℕ} (ha : f.expOf a ≠ f.expMask) (hb : f.expOf b ≠ f.expMask)
    (hb0 : ¬ (f.expOf b = 0 ∧ f.mantOf b = 0)) : Rounded f 3 a b (f.format.div .rne (f.decode a) (f.decode b)) := by
  rw [f.div_not_nan_spec .rne (f.not_nan_of_finite ha) (f.not_nan_of_finite hb)]
  dsimp only
  rw [if_neg ha, if_neg hb, if_neg hb0]
  by_cases h : f.expOf a = 0 ∧ f.mantOf a = 0
  · rw [if_pos h]
    refine .zero _ fun hat => ?_
    have hpos := border_pos f hat.2.2.2
    rw [if_neg (by decide), abs_pos, div_ne_zero_iff, toRat_ne_zero f ha] at hpos
    exact hpos.1 h
  · rw [if_neg h]
    refine .product _ (abs_pos.2 (div_ne_zero ((toRat_ne_zero f ha).2 h) ((toRat_ne_zero f hb).2 hb0))) (Or.inr rfl) ?_ h
      fun h2 => absurd h2 (by decide)
    unfold AtBorder
    simp [ha, hb]

/-- What a binary operation rounds. -/
theorem binSpec_rounded {op a b : ℕ} (hop : op ≤ 3) (ha : f.expOf a ≠ f.expMask) (hb : f.expOf b ≠ f.expMask)
    (hb0 : op = 3 → ¬ (f.expOf b = 0 ∧ f.mantOf b = 0)) :
    Rounded f op a b (binSpec op f.format .rne (f.decode a) (f.decode b)) := by
  obtain ⟨n, hn⟩ := toRat_decode f hb
  interval_cases op
  · exact add_rounded f b (by decide) ha (f.decode_scaled hb) hn
  · have hflip : (f.decode b).flipSign.toRat = (-n : ℤ) * f.format.quantum f.format.emin := by
      have hneg : (f.decode b).flipSign.toRat = -(f.decode b).toRat := by
        rw [f.decode_scaled hb]
        unfold Datum.flipSign Datum.toRat
        cases decide (f.signOf b ≠ 0) <;> simp
      rw [hneg, hn]
      push_cast
      ring
    exact add_rounded f b (by decide) ha (by rw [f.decode_scaled hb]; rfl) hflip
  · exact mul_rounded f ha hb
  · exact div_rounded f ha hb (hb0 rfl)

/-! ## The fast path -/

variable {f} {host : HostFp} {op a b r : ℕ}

theorem roundingOf_rne : roundingOf RM_RNE = .rne := rfl

/-- What the eligibility test has established when the fast path answers. -/
theorem fpFast_some (ha : a < 2 ^ f.fSize) (hb : b < 2 ^ f.fSize) (hop : op ≤ 3) (hr : host f op a b < 2 ^ f.fSize)
    (h : fpFast f host op a b = some r) :
    f.expOf a ≠ f.expMask ∧ f.expOf b ≠ f.expMask ∧ (op = 3 → ¬ (f.expOf b = 0 ∧ f.mantOf b = 0)) ∧ host f op a b = r ∧
      f.expOf r ≠ f.expMask ∧
      (op = 2 ∨ op = 3 → ¬ (f.expOf a = 0 ∧ f.mantOf a = 0) → (op = 2 → ¬ (f.expOf b = 0 ∧ f.mantOf b = 0)) →
        1 ≤ f.expOf r) := by
  have hmask := f.expMask_pos
  have hza := f.shl_one_eq_zero ha
  have hzb := f.shl_one_eq_zero hb
  have hzr := f.shl_one_eq_zero hr
  unfold fpFast at h
  dsimp only at h
  split_ifs at h with h1 h2 h3
  rw [not_or] at h1
  rw [not_and, hzb] at h2
  rw [Option.some.injEq] at h
  refine ⟨h1.1, h1.2, h2, h, ?_⟩
  rw [← h]
  clear h
  interval_cases op
  · exact ⟨of_decide_eq_true h3, by omega⟩
  · exact ⟨of_decide_eq_true h3, by omega⟩
  · have h4 := of_decide_eq_true h3
    rw [hza, hzb, hzr] at h4
    refine ⟨?_, fun _ ha0 hb0 => ?_⟩
    · rcases h4 with h4 | h4 <;> omega
    · rcases h4 with h4 | ⟨-, h4 | h4⟩
      · exact h4.1
      · exact absurd h4 ha0
      · exact absurd h4 (hb0 rfl)
  · have h4 := of_decide_eq_true h3
    rw [hza, hzr] at h4
    refine ⟨?_, fun _ ha0 _ => ?_⟩
    · rcases h4 with h4 | h4 <;> omega
    · rcases h4 with h4 | ⟨-, h4⟩
      · exact h4.1
      · exact absurd h4 ha0

/-- The result and the flags of soft-float where the fast path answers. -/
theorem softArith_of_fast (hh : host.Ieee) (hf : f = sf32 ∨ f = sf64) (hop : op ≤ 3) (ha : a < 2 ^ f.fSize)
    (hb : b < 2 ^ f.fSize) (h : fpFast f host op a b = some r) :
    (softArith f op a b RM_RNE 0).1 = r ∧
      ∃ uf nx : Bool, (uf = true ↔ AtBorder f op a b) ∧ (softArith f op a b RM_RNE 0).2 = flagBits { uf := uf, nx := nx } := by
  obtain ⟨hlt, hdec⟩ := hh f hf op hop a b ha hb
  obtain ⟨hfa, hfb, hb0, rfl, hfr, hnormal⟩ := fpFast_some ha hb hop hlt h
  obtain ⟨hslt, hsdec, -, hsfl⟩ := softArith_yields f op ha hb rne_le 0
  rw [roundingOf_rne] at hsdec hsfl
  have hr := binSpec_rounded f hop hfa hfb hb0
  generalize binSpec op f.format .rne (f.decode a) (f.decode b) = R at *
  have hp : 2 ≤ f.format.prec := by have := f.mant_ge; change 2 ≤ f.mantSize + 1; omega
  refine ⟨(f.decode_inj hlt hslt hfr (hdec.trans hsdec.symm)).symm, ?_⟩
  rw [hsfl, show (0 : FFlags) ||| flagBits R.2 = flagBits R.2 from BitVec.zero_or]
  have hnum := f.decode_scaled hfr
  cases hr with
  | zero s hz => exact ⟨false, false, by simpa using hz, rfl⟩
  | sum s hx n hn hop2 =>
    rw [f.format.round_rne_num s (hdec.symm.trans hnum)]
    refine ⟨_, _, ?_, rfl⟩
    rw [decide_eq_true_iff]
    exact ⟨fun hu => absurd hu (f.format.not_tiny_of_multiple (by omega) .rne s hx hn), fun hat => absurd hat.1 hop2⟩
  | product s hx hop2 hat ha0 hb0 =>
    have hround := f.format.round_rne_num s (hdec.symm.trans hnum)
    rw [hround] at hdec ⊢
    refine ⟨_, _, ?_, rfl⟩
    rw [decide_eq_true_iff, hat, ← f.format.uf_normal_iff hp s hx]
    exact ⟨fun hu => ⟨hu, f.le_of_normal hdec (hnormal hop2 ha0 hb0)⟩, fun hu => hu.1⟩

/-- On the border the fast path answers. -/
theorem fpFast_of_border (hh : host.Ieee) (hf : f = sf32 ∨ f = sf64) (ha : a < 2 ^ f.fSize) (hb : b < 2 ^ f.fSize)
    (h : AtBorder f op a b) : ∃ r, fpFast f host op a b = some r := by
  have hop : op ≤ 3 := by rcases h.1 with h1 | h1 <;> omega
  have hpos := border_pos f h.2.2.2
  have hb0 : op = 3 → ¬ (f.expOf b = 0 ∧ f.mantOf b = 0) := by
    rintro rfl
    rw [if_neg (by decide), abs_pos, div_ne_zero_iff, toRat_ne_zero f h.2.2.1] at hpos
    exact hpos.2
  obtain ⟨hlt, hdec⟩ := hh f hf op hop a b ha hb
  have hp : 2 ≤ f.format.prec := by have := f.mant_ge; change 2 ≤ f.mantSize + 1; omega
  have he : f.format.emin ≤ f.format.emax := by
    have := f.bias_ge
    change 1 - f.bias ≤ f.bias
    omega
  have hnormal : 1 ≤ f.expOf (host f op a b) ∧ f.expOf (host f op a b) ≤ f.expMask - 1 := by
    have hr := binSpec_rounded f hop h.2.1 h.2.2.1 hb0
    generalize binSpec op f.format .rne (f.decode a) (f.decode b) = R at *
    cases hr with
    | zero s hz => exact absurd h hz
    | sum s hx n hn hop2 => exact absurd h.1 hop2
    | product s hx _ hat =>
      have hmag := (hat.1 h).roundMag f.format hp s hx
      unfold Format.round at hdec
      dsimp only at hdec
      rw [hmag, if_neg (not_lt.2 (f.format.two_zpow_emin_le (by omega) he))] at hdec
      exact f.normal_of_le hdec le_rfl
  refine ⟨host f op a b, ?_⟩
  unfold fpFast
  dsimp only
  rw [if_neg (not_or.2 ⟨h.2.1, h.2.2.1⟩), if_neg (fun hc => hb0 hc.1 ((f.shl_one_eq_zero hb).1 hc.2)), if_pos]
  rcases h.1 with rfl | rfl
  · exact decide_eq_true (Or.inl hnormal)
  · exact decide_eq_true (Or.inl hnormal)

/-! ## Sticky flags -/

theorem accrued_iff (x : U32) (i : ℕ) (hi : i < 32) : x ||| BitVec.twoPow 32 i = x ↔ x &&& BitVec.twoPow 32 i ≠ 0 := by
  rw [BitVec.and_twoPow]
  constructor
  · intro h
    have hb : x.getLsbD i = true := by rw [← h]; simp [hi]
    rw [if_pos hb, ne_eq, ← BitVec.toNat_inj, BitVec.toNat_twoPow]
    simp [Nat.mod_eq_of_lt (Nat.pow_lt_pow_right (a := 2) (by norm_num) hi)]
  · intro h
    split_ifs at h with hb
    · apply BitVec.eq_of_getLsbD_eq
      intro j hj
      rw [BitVec.getLsbD_or, BitVec.getLsbD_twoPow]
      by_cases hij : i = j
      · subst hij; simp [hb]
      · simp [hij]
    · exact absurd rfl h

/-- With the inexact flag set, accruing it and perhaps underflow changes nothing unless underflow is new. -/
theorem accrue_eq_iff {fcsr : U32} (hnx : fcsr &&& FFLAG_INEXACT ≠ 0) (uf nx : Bool) :
    fcsr ||| (flagBits { uf := uf, nx := nx } &&& 0x1f) = fcsr ↔ ¬ (uf = true ∧ fcsr &&& FFLAG_UNDERFLOW = 0) := by
  have h0 : fcsr ||| FFLAG_INEXACT = fcsr := (accrued_iff fcsr 0 (by decide)).2 hnx
  have h1 : fcsr ||| FFLAG_UNDERFLOW = fcsr ↔ fcsr &&& FFLAG_UNDERFLOW ≠ 0 := accrued_iff fcsr 1 (by decide)
  have hbits : flagBits { uf := uf, nx := nx } &&& 0x1f =
      (if nx then FFLAG_INEXACT else 0) ||| (if uf then FFLAG_UNDERFLOW else 0) := by
    cases uf <;> cases nx <;> decide
  have hnx' : fcsr ||| (if nx then FFLAG_INEXACT else 0) = fcsr := by
    cases nx
    · exact BitVec.or_zero
    · exact h0
  rw [hbits, ← BitVec.or_assoc, hnx']
  cases uf
  · simp
  · simpa using h1

/-- The path is soft-float's, up to the flags already set, but on the border with underflow clear. -/
theorem fpArith_host (hh : host.Ieee) (hf : f = sf32 ∨ f = sf64) (hop : op ≤ 3) (ha : a < 2 ^ f.fSize)
    (hb : b < 2 ^ f.fSize) (fcsr : U32) (rm : ℕ) :
    (fpArith (some host) f fcsr op a b rm).1 = (fpArith none f fcsr op a b rm).1 ∧
      (fcsr ||| ((fpArith (some host) f fcsr op a b rm).2 &&& 0x1f) =
          fcsr ||| ((fpArith none f fcsr op a b rm).2 &&& 0x1f) ↔
        ¬ (rm = RM_RNE ∧ fcsr &&& FFLAG_INEXACT ≠ 0 ∧ fcsr &&& FFLAG_UNDERFLOW = 0 ∧ AtBorder f op a b)) := by
  have hnone : fpArith none f fcsr op a b rm = softArith f op a b rm 0 := by simp [fpArith]
  by_cases hc : rm = RM_RNE ∧ fcsr &&& FFLAG_INEXACT ≠ 0
  · obtain ⟨rfl, hnx⟩ := hc
    cases hfast : fpFast f host op a b with
    | none =>
      have hsome : fpArith (some host) f fcsr op a b RM_RNE = softArith f op a b RM_RNE 0 := by simp [fpArith, hfast]
      rw [hsome, hnone]
      refine ⟨rfl, fun _ hbd => ?_, fun _ => rfl⟩
      obtain ⟨r, hr⟩ := fpFast_of_border hh hf ha hb hbd.2.2.2
      rw [hfast] at hr
      cases hr
    | some r =>
      have hsome : fpArith (some host) f fcsr op a b RM_RNE = (r, 0) := by
        simp only [fpArith, hnx, ne_eq, not_false_eq_true, and_self, if_true, Option.bind_some, hfast]
      obtain ⟨h1, uf, nx, huf, h2⟩ := softArith_of_fast hh hf hop ha hb hfast
      rw [hsome, hnone]
      refine ⟨h1.symm, ?_⟩
      have hzero : fcsr ||| ((0 : FFlags) &&& 0x1f) = fcsr := by simp
      rw [h2, hzero, eq_comm, accrue_eq_iff hnx, ← huf]
      exact ⟨fun hn hbd => hn ⟨hbd.2.2.2, hbd.2.2.1⟩, fun hn hbd => hn ⟨rfl, hnx, hbd.2, hbd.1⟩⟩
  · have hsome : fpArith (some host) f fcsr op a b rm = softArith f op a b rm 0 := by
      simp only [fpArith, if_neg hc]
    rw [hsome, hnone]
    exact ⟨rfl, fun _ hbd => hc ⟨hbd.1, hbd.2.1⟩, fun _ => rfl⟩

/-! ## Executing OP-FP -/

/-- An add, subtract, multiply or divide in single or double precision. -/
def isFpArith (insn : U32) : Bool := funct7 insn / 4 ≤ 3 ∧ funct7 insn % 4 ≤ 1

/-- The path answers without the underflow soft-float would raise. -/
def HidesUnderflow (c : Cpu) (insn : U32) : Prop :=
  c.getRm (funct3 insn) = some RM_RNE ∧ c.fcsr &&& FFLAG_INEXACT ≠ 0 ∧ c.fcsr &&& FFLAG_UNDERFLOW = 0 ∧
    ∃ w, fpFormat (funct7 insn % 4) = some w ∧
      AtBorder w.sf (funct7 insn / 4) (w.unbox (c.f (rs1 insn))) (w.unbox (c.f (rs2 insn)))

/-- The registers after an FP instruction. -/
def writeFp (c : Cpu) (insn : U32) (r : FpOut) : Cpu :=
  let c := if r.toX then c.wr (rd insn) r.value else c.setF (rd insn) r.value
  { c with fcsr := c.fcsr ||| (r.flags &&& 0x1f) }

theorem run_opFp {β : Type} [Bus β] (host : Option HostFp) (insn : U32) (m : Machine β) :
    (Hart.opFp host insn).run Machine.exec m = match m.cpu.opFp host insn with
      | none => (.error (.illegalInstruction insn), m)
      | some r => (.ok (), { m with cpu := m.cpu.writeFp insn r }) := by
  change (Program.bind (Hart.require insn (m.cpu.opFp host insn)) (Hart.writeFp insn)).run Machine.exec m = _
  cases m.cpu.opFp host insn with
  | none => rfl
  | some r =>
    obtain ⟨toX, value, flags⟩ := r
    cases toX <;> rfl

theorem opFp_arith (host : Option HostFp) (c : Cpu) {insn : U32} (h : isFpArith insn = true) :
    ∃ w, fpFormat (funct7 insn % 4) = some w ∧ (w = fmtS ∨ w = fmtD) ∧
      c.opFp host insn = (c.getRm (funct3 insn)).map fun rm => toF w
        (fpArith host w.sf c.fcsr (funct7 insn / 4) (w.unbox (c.f (rs1 insn))) (w.unbox (c.f (rs2 insn))) rm) := by
  obtain ⟨hop, hfmt⟩ := of_decide_eq_true h
  obtain ⟨w, hw, hw'⟩ : ∃ w, fpFormat (funct7 insn % 4) = some w ∧ (w = fmtS ∨ w = fmtD) := by
    interval_cases funct7 insn % 4
    · exact ⟨fmtS, rfl, Or.inl rfl⟩
    · exact ⟨fmtD, rfl, Or.inr rfl⟩
  refine ⟨w, hw, hw', ?_⟩
  unfold opFp
  dsimp only
  rw [hw]
  dsimp only
  generalize funct7 insn / 4 = op at *
  interval_cases op <;> rfl

theorem unbox_lt {w : FpFormat} (h : w = fmtS ∨ w = fmtD) (r : U64) : w.unbox r < 2 ^ w.sf.fSize := by
  rcases h with rfl | rfl
  · exact (ub32 r).isLt
  · exact r.isLt

theorem setF_self (c : Cpu) (rd : Fin 32) (v : U64) : (c.setF rd v).f rd = v := by simp [setF]

/-- **The native path is invisible** exactly when it does not hide an underflow: the destination register and `fcsr` are
those of soft-float. -/
theorem opFp_host_iff {β : Type} [Bus β] {host : HostFp} (hh : host.Ieee) (m : Machine β) {insn : U32}
    (harith : isFpArith insn = true) :
    (((Hart.opFp (some host) insn).run Machine.exec m).1 = ((Hart.opFp none insn).run Machine.exec m).1 ∧
      ((Hart.opFp (some host) insn).run Machine.exec m).2.cpu.f (rd insn) =
        ((Hart.opFp none insn).run Machine.exec m).2.cpu.f (rd insn) ∧
      ((Hart.opFp (some host) insn).run Machine.exec m).2.cpu.fcsr =
        ((Hart.opFp none insn).run Machine.exec m).2.cpu.fcsr) ↔
    ¬ m.cpu.HidesUnderflow insn := by
  obtain ⟨w, hw, hwf, hs⟩ := opFp_arith (some host) m.cpu harith
  obtain ⟨w', hw', -, hn⟩ := opFp_arith none m.cpu harith
  obtain rfl : w = w' := Option.some.inj (hw.symm.trans hw')
  have hop : funct7 insn / 4 ≤ 3 := (of_decide_eq_true harith).1
  have hsf : w.sf = sf32 ∨ w.sf = sf64 := by rcases hwf with rfl | rfl <;> simp [fmtS, fmtD]
  rw [run_opFp, run_opFp, hs, hn]
  unfold HidesUnderflow
  cases hrm : m.cpu.getRm (funct3 insn) with
  | none => simp
  | some rm =>
    have key := fpArith_host hh hsf hop (unbox_lt hwf (m.cpu.f (rs1 insn))) (unbox_lt hwf (m.cpu.f (rs2 insn)))
      m.cpu.fcsr rm
    simp only [Option.map_some, writeFp, toF, Bool.false_eq_true, if_false, setF_self, key.1, true_and]
    refine key.2.trans (not_congr ?_)
    rw [hw]
    simp

/-! ## The border case -/

/-- A host that computes as soft-float does. -/
def softHost : HostFp := fun f op a b => (softArith f op a b RM_RNE 0).1

theorem softHost_ieee : softHost.Ieee := fun f _ op _ _ _ ha hb =>
  ⟨(softArith_yields f op ha hb rne_le 0).1, (softArith_yields f op ha hb rne_le 0).2.1⟩

/-- `(2 - 2^-52) * 2^-1023`, with the inexact flag set and `fmul.d f3, f1, f2` to execute. -/
def borderHart : Machine FlatMemory where
  cpu := { Cpu.new with fcsr := FFLAG_INEXACT, f := fun r => if r = 1 then 0x3FFFFFFFFFFFFFFF else 0x0008000000000000 }
  bus := ⟨0, 0, fun _ => 0, FlatMemory.fits_empty, by decide⟩

theorem opFp_host_border :
    (((Hart.opFp (some softHost) 0x122081D3).run Machine.exec borderHart).1 =
        ((Hart.opFp none 0x122081D3).run Machine.exec borderHart).1 ∧
      ((Hart.opFp (some softHost) 0x122081D3).run Machine.exec borderHart).2.cpu.f (rd 0x122081D3) =
        ((Hart.opFp none 0x122081D3).run Machine.exec borderHart).2.cpu.f (rd 0x122081D3) ∧
      ((Hart.opFp (some softHost) 0x122081D3).run Machine.exec borderHart).2.cpu.fcsr =
        ((Hart.opFp none 0x122081D3).run Machine.exec borderHart).2.cpu.fcsr) ↔
    ¬ borderHart.cpu.HidesUnderflow 0x122081D3 :=
  opFp_host_iff softHost_ieee borderHart (by decide)

/-- Both paths give the least normal number; only soft-float raises underflow. -/
theorem fmul_hides_underflow :
    softHost.Ieee ∧ isFpArith 0x122081D3 = true ∧
    ((Hart.opFp (some softHost) 0x122081D3).run Machine.exec borderHart).2.cpu.f 3 = 0x0010000000000000 ∧
    ((Hart.opFp none 0x122081D3).run Machine.exec borderHart).2.cpu.f 3 = 0x0010000000000000 ∧
    ((Hart.opFp (some softHost) 0x122081D3).run Machine.exec borderHart).2.cpu.fcsr = FFLAG_INEXACT ∧
    ((Hart.opFp none 0x122081D3).run Machine.exec borderHart).2.cpu.fcsr = FFLAG_INEXACT ||| FFLAG_UNDERFLOW :=
  ⟨softHost_ieee, by decide, by decide +kernel, by decide +kernel, by decide +kernel, by decide +kernel⟩

end Cpu
end Lish
