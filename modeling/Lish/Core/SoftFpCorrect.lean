import Lish.Core.SoftFpFma
import Lish.Core.SoftFpCompare
import Lish.Core.SoftFpConvert
/-!
# SoftFpCorrect — the operations against the real numbers

All five arithmetic operations at once: the result is the exact one rounded once, with exact flags, on every operand but those where
`fma` drops the invalid flag.  Then square root, conversions and comparisons, which have no such operand.
-/
namespace Lish.SoftFp

open Lish.Ieee

/-- The arithmetic operations. -/
inductive Arith
  | add | sub | mul | div | fma
  deriving DecidableEq, Repr

/-- The soft-float operation; only `fma` reads `c`. -/
def Sf.arith (f : Sf) (op : Arith) (a b c rm : ℕ) (fl : FFlags) : ℕ × FFlags :=
  match op with
  | .add => f.add a b rm fl
  | .sub => f.sub a b rm fl
  | .mul => f.mul a b rm fl
  | .div => f.div a b rm fl
  | .fma => f.fma a b c rm fl

/-- The operation on data: computed exactly, then rounded once. -/
def Arith.spec (op : Arith) (F : Format) (m : Rounding) (x y z : Datum) : Datum × Flags :=
  match op with
  | .add => F.add m x y
  | .sub => F.sub m x y
  | .mul => F.mul m x y
  | .div => F.div m x y
  | .fma => F.fma m x y z

namespace Sf

variable (f : Sf)

/-- **Correct rounding.**  Result and flags are the specified ones exactly when the operation does not drop the invalid
flag of infinity times zero plus a quiet NaN. -/
theorem arith_correct_iff (op : Arith) {a b c rm : ℕ} (ha : a < 2 ^ f.fSize) (hb : b < 2 ^ f.fSize)
    (hc : c < 2 ^ f.fSize) (hrm : rm ≤ 4) :
    (∀ fl, f.Yields (f.arith op a b c rm fl) fl
        (op.spec f.format (roundingOf rm) (f.decode a) (f.decode b) (f.decode c))) ↔
      ¬ (op = .fma ∧ f.dropsInvalid a b c = true) := by
  constructor
  · rintro h ⟨rfl, hd⟩
    exact f.fma_drops hd rm (h 0)
  · intro h fl
    cases op with
    | add => exact f.add_yields ha hb hrm fl
    | sub => exact f.sub_yields ha hb hrm fl
    | mul => exact f.mul_yields ha hb hrm fl
    | div => exact f.div_yields ha hb hrm fl
    | fma => exact f.fma_yields ha hb hc hrm (by simpa using h) fl

/-- `1.0 / 3.0` in double precision. -/
theorem arith_correct_div_three :
    (∀ fl, sf64.Yields (sf64.arith .div 0x3FF0000000000000 0x4008000000000000 0 RM_RNE fl) fl
        (Arith.div.spec sf64.format (roundingOf RM_RNE) (sf64.decode 0x3FF0000000000000) (sf64.decode 0x4008000000000000)
          (sf64.decode 0))) ↔
      ¬ (Arith.div = .fma ∧ sf64.dropsInvalid 0x3FF0000000000000 0x4008000000000000 0 = true) :=
  sf64.arith_correct_iff .div (by decide) (by decide) (by decide) (by decide)

/-- Infinity times zero plus a quiet NaN raises nothing. -/
theorem fma_inf_zero_qnan :
    sf64.fma 0x7FF0000000000000 0 0x7FF8000000000000 RM_RNE 0 = (0x7FF8000000000000, 0) ∧
    (sf64.format.fma .rne (sf64.decode 0x7FF0000000000000) (sf64.decode 0) (sf64.decode 0x7FF8000000000000)).2.nv = true ∧
    ¬ sf64.Yields (sf64.fma 0x7FF0000000000000 0 0x7FF8000000000000 RM_RNE 0) 0
        (Arith.fma.spec sf64.format .rne (sf64.decode 0x7FF0000000000000) (sf64.decode 0)
          (sf64.decode 0x7FF8000000000000)) := by
  have hi : sf64.infTimesZero 0x7FF0000000000000 0 = true := by
    rw [infTimesZero, isInf_decode, isInf_decode, isZero_decode, isZero_decode]; decide
  have hn : sf64.isNan 0x7FF8000000000000 = true := by decide
  have hd : sf64.dropsInvalid 0x7FF0000000000000 0 0x7FF8000000000000 = true := by
    rw [dropsInvalid, hi]; decide
  refine ⟨by decide, ?_, sf64.fma_drops hd RM_RNE⟩
  rw [sf64.fma_nan_spec .rne (Or.inr (Or.inr hn)), hi, Bool.or_true]
  rfl

/-! ## Square root, conversions and comparisons -/

/-- The operations of a format besides the arithmetic, on all operands, against their specifications. -/
structure ExactOps : Prop where
  sqrt : ∀ a rm fl, a < 2 ^ f.fSize → rm ≤ 4 → f.Yields (f.sqrt a rm fl) fl (f.format.sqrt (roundingOf rm) (f.decode a))
  root : ∀ ah, ah < 2 ^ f.fSize → f.sqrtremU ah 0 = (Nat.sqrt (ah * 2 ^ f.fSize),
    decide (ah * 2 ^ f.fSize - Nat.sqrt (ah * 2 ^ f.fSize) * Nat.sqrt (ah * 2 ^ f.fSize) ≠ 0))
  toI32 : ∀ a rm fl u, a < 2 ^ f.fSize → rm ≤ 4 →
    YieldsInt 32 (f.cvtToI32 a rm fl u) fl ((f.decode a).toInteger (roundingOf rm) (intLow 32 u) (intHigh 32 u))
  toI64 : ∀ a rm fl u, a < 2 ^ f.fSize → rm ≤ 4 →
    YieldsInt 64 (f.cvtToI64 a rm fl u) fl ((f.decode a).toInteger (roundingOf rm) (intLow 64 u) (intHigh 64 u))
  fromI32 : ∀ a rm fl u, a < 2 ^ 32 → rm ≤ 4 →
    f.Yields (f.cvtFromI32 a rm fl u) fl (f.format.ofInteger (roundingOf rm) (intOf 32 a u))
  fromI64 : ∀ a rm fl u, a < 2 ^ 64 → rm ≤ 4 →
    f.Yields (f.cvtFromI64 a rm fl u) fl (f.format.ofInteger (roundingOf rm) (intOf 64 a u))
  eqQuiet : ∀ a b fl, a < 2 ^ f.fSize → b < 2 ^ f.fSize →
    Decides (f.eqQuiet a b fl) fl ((f.decode a).eqQuiet (f.decode b))
  le : ∀ a b fl, a < 2 ^ f.fSize → b < 2 ^ f.fSize → Decides (f.le a b fl) fl ((f.decode a).leSignaling (f.decode b))
  lt : ∀ a b fl, a < 2 ^ f.fSize → b < 2 ^ f.fSize → Decides (f.lt a b fl) fl ((f.decode a).ltSignaling (f.decode b))
  min : ∀ a b fl, a < 2 ^ f.fSize → b < 2 ^ f.fSize → f.Yields (f.min a b fl) fl ((f.decode a).minNumber (f.decode b))
  max : ∀ a b fl, a < 2 ^ f.fSize → b < 2 ^ f.fSize → f.Yields (f.max a b fl) fl ((f.decode a).maxNumber (f.decode b))

theorem exactOps (hi : 63 ≤ f.bias) (hm : (f.mantSize : ℤ) ≤ f.bias + 1) : f.ExactOps where
  sqrt _ _ fl ha hrm := f.sqrt_yields ha hrm fl
  root _ h := f.sqrtremU_eq h
  toI32 _ _ fl u ha hrm := f.cvtToI_yields (by norm_num) (by push_cast; omega) hm ha hrm fl u
  toI64 _ _ fl u ha hrm := f.cvtToI_yields (by norm_num) (by push_cast; omega) hm ha hrm fl u
  fromI32 _ _ fl u ha hrm := f.cvtFromI_yields ha hrm fl u
  fromI64 _ _ fl u ha hrm := f.cvtFromI_yields ha hrm fl u
  eqQuiet _ _ fl ha hb := f.eqQuiet_decides ha hb fl
  le _ _ fl ha hb := f.le_decides ha hb fl
  lt _ _ fl ha hb := f.lt_decides ha hb fl
  min _ _ fl ha hb := f.min_yields ha hb fl
  max _ _ fl ha hb := f.max_yields ha hb fl

/-- The conversions between the two formats, on all operands. -/
structure ExactBetween : Prop where
  widen : ∀ a rm fl, a < 2 ^ sf32.fSize → sf64.Yields (cvtSf32Sf64 a fl) fl (sf64.format.convert rm (sf32.decode a))
  narrow : ∀ a rm fl, a < 2 ^ sf64.fSize → rm ≤ 4 →
    sf32.Yields (cvtSf64Sf32 a rm fl) fl (sf32.format.convert (roundingOf rm) (sf64.decode a))

/-- **Square root, conversions and comparisons are exact** in both formats. -/
theorem exact_ops : sf32.ExactOps ∧ sf64.ExactOps ∧ ExactBetween := by
  refine ⟨sf32.exactOps (by rw [bias32]; norm_num) (by rw [bias32]; decide),
    sf64.exactOps (by rw [bias64]; norm_num) (by rw [bias64]; decide), ⟨?_, ?_⟩⟩
  · exact fun _ rm fl ha => cvtSf32Sf64_yields ha rm fl
  · exact fun _ _ fl ha hrm => cvtSf64Sf32_yields ha hrm fl

end Sf
end Lish.SoftFp
