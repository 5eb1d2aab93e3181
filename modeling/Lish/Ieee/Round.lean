import Mathlib.Algebra.Order.Field.Power
import Mathlib.Data.Int.Log
import Lish.Ieee.Sticky
/-!
# Rounding to a binary format

A format has a precision and a largest exponent.  A nonzero magnitude is rounded once, to a multiple of its quantum; the
quantum is fixed below the least normal exponent, so that subnormals are covered.  Overflow and tininess are judged on
the rounding with an unbounded exponent range (tininess after rounding).
-/
namespace Lish.Ieee

/-- The five rounding-direction attributes, in the order of the RISC-V `frm` encoding. -/
inductive Rounding
  | rne | rtz | rdn | rup | rmm
  deriving DecidableEq, Repr

/-- Exception flags. -/
structure Flags where
  nv : Bool := false
  dz : Bool := false
  of : Bool := false
  uf : Bool := false
  nx : Bool := false
  deriving DecidableEq, Repr

/-- A floating-point datum: the payload of a NaN is not kept, the sign of a zero is. -/
inductive Datum
  | nan (signaling : Bool)
  | inf (neg : Bool)
  | num (neg : Bool) (mag : ℚ)
  deriving DecidableEq, Repr

/-- A binary interchange format: precision (with the leading bit) and largest exponent. -/
structure Format where
  prec : ℕ
  emax : ℤ

def Format.emin (F : Format) : ℤ := 1 - F.emax

/-- Distance between neighbours of exponent `e`. -/
def Format.quantum (F : Format) (e : ℤ) : ℚ := 2 ^ (e - (F.prec - 1))

/-- Largest finite magnitude. -/
def Format.maxFinite (F : Format) : ℚ := 2 ^ (F.emax + 1) - F.quantum F.emax

/-- Round the magnitude `q` of a number of sign `neg` to an integer. -/
def roundNat (m : Rounding) (neg : Bool) (q : ℚ) : ℕ :=
  let n := ⌊q⌋₊
  let r := q - n
  match m with
  | .rne => if r < 1 / 2 ∨ (r = 1 / 2 ∧ n % 2 = 0) then n else n + 1
  | .rtz => n
  | .rdn => if neg = true ∧ r ≠ 0 then n + 1 else n
  | .rup => if neg = false ∧ r ≠ 0 then n + 1 else n
  | .rmm => if r < 1 / 2 then n else n + 1

/-- Round `x` to a multiple of `u`. -/
def roundTo (m : Rounding) (neg : Bool) (u x : ℚ) : ℚ := roundNat m neg (x / u) * u

/-- Round with the format's precision and an unbounded exponent range. -/
def Format.roundUnbounded (F : Format) (m : Rounding) (neg : Bool) (x : ℚ) : ℚ :=
  roundTo m neg (F.quantum (Int.log 2 x)) x

/-- Round with the format's precision, subnormals at the quantum of the least exponent. -/
def Format.roundMag (F : Format) (m : Rounding) (neg : Bool) (x : ℚ) : ℚ :=
  roundTo m neg (F.quantum (max (Int.log 2 x) F.emin)) x

/-- An overflowing result of this sign becomes an infinity (else the largest finite number). -/
def Rounding.overflowsToInf (m : Rounding) (neg : Bool) : Bool :=
  match m with
  | .rne | .rmm => true
  | .rtz => false
  | .rdn => neg
  | .rup => !neg

/-- The rounded result of a nonzero exact magnitude `x`, with its flags. -/
def Format.round (F : Format) (m : Rounding) (neg : Bool) (x : ℚ) : Datum × Flags :=
  let y := F.roundMag m neg x
  if F.maxFinite < y then
    (if m.overflowsToInf neg then .inf neg else .num neg F.maxFinite, { of := true, nx := true })
  else
    (.num neg y, { uf := decide (y ≠ x ∧ F.roundUnbounded m neg x < 2 ^ F.emin), nx := decide (y ≠ x) })

/-! ## The operations -/

namespace Datum

def isNan : Datum → Bool
  | nan _ => true
  | _     => false

def isSignaling : Datum → Bool
  | nan s => s
  | _     => false

def isInf : Datum → Bool
  | inf _ => true
  | _     => false

def isZero : Datum → Bool
  | num _ q => q = 0
  | _       => false

/-- The sign bit; a NaN result carries none. -/
def neg : Datum → Bool
  | nan _   => false
  | inf s   => s
  | num s _ => s

/-- Exact value of a finite datum. -/
def toRat : Datum → ℚ
  | num s q => if s then -q else q
  | _       => 0

def flipSign : Datum → Datum
  | nan s   => nan s
  | inf s   => inf (!s)
  | num s q => num (!s) q

end Datum

/-- The canonical NaN of an invalid operation. -/
def invalid : Datum × Flags := (.nan false, { nv := true })

/-- Result of an operation with a NaN operand: invalid when one is signaling. -/
def propagate (signaling : Bool) : Datum × Flags := (.nan false, { nv := signaling })

/-- Round an exact sum; an exact zero takes the common sign of the addends, else the sign of the rounding direction. -/
def Format.roundSum (F : Format) (m : Rounding) (sx sy : Bool) (s : ℚ) : Datum × Flags :=
  if s = 0 then (.num (if sx = sy then sx else decide (m = .rdn)) 0, {})
  else F.round m (decide (s < 0)) |s|

def Format.add (F : Format) (m : Rounding) (x y : Datum) : Datum × Flags :=
  if x.isNan || y.isNan then propagate (x.isSignaling || y.isSignaling)
  else if x.isInf then
    if y.isInf && x.neg != y.neg then invalid else (x, {})
  else if y.isInf then (y, {})
  else F.roundSum m x.neg y.neg (x.toRat + y.toRat)

def Format.sub (F : Format) (m : Rounding) (x y : Datum) : Datum × Flags := F.add m x y.flipSign

def Format.mul (F : Format) (m : Rounding) (x y : Datum) : Datum × Flags :=
  let neg := x.neg != y.neg
  if x.isNan || y.isNan then propagate (x.isSignaling || y.isSignaling)
  else if x.isInf || y.isInf then
    if x.isZero || y.isZero then invalid else (.inf neg, {})
  else if x.isZero || y.isZero then (.num neg 0, {})
  else F.round m neg |x.toRat * y.toRat|

def Format.div (F : Format) (m : Rounding) (x y : Datum) : Datum × Flags :=
  let neg := x.neg != y.neg
  if x.isNan || y.isNan then propagate (x.isSignaling || y.isSignaling)
  else if x.isInf then
    if y.isInf then invalid else (.inf neg, {})
  else if y.isInf then (.num neg 0, {})
  else if y.isZero then
    if x.isZero then invalid else (.inf neg, { dz := true })
  else if x.isZero then (.num neg 0, {})
  else F.round m neg |x.toRat / y.toRat|

/-- Fused multiply-add `x * y + z`.  The product of an infinity and a zero is invalid whatever the addend. -/
def Format.fma (F : Format) (m : Rounding) (x y z : Datum) : Datum × Flags :=
  let neg := x.neg != y.neg
  let badProduct := (x.isInf && y.isZero) || (x.isZero && y.isInf)
  if x.isNan || y.isNan || z.isNan then
    propagate (x.isSignaling || y.isSignaling || z.isSignaling || badProduct)
  else if badProduct then invalid
  else if x.isInf || y.isInf then
    if z.isInf && neg != z.neg then invalid else (.inf neg, {})
  else if z.isInf then (z, {})
  else F.roundSum m neg z.neg (x.toRat * y.toRat + z.toRat)

theorem Datum.abs_toRat_num (s : Bool) {q : ℚ} (hq : 0 ≤ q) : |(Datum.num s q).toRat| = q := by
  cases s
  · exact abs_of_nonneg hq
  · exact (abs_neg q).trans (abs_of_nonneg hq)

/-! ## What two guard bits decide -/

theorem log_two_eq {x : ℚ} {e : ℤ} (hl : (2 : ℚ) ^ e ≤ x) (hu : x < 2 ^ (e + 1)) : Int.log 2 x = e := by
  have hx : 0 < x := lt_of_lt_of_le (zpow_pos (by norm_num) e) hl
  have h1 : e ≤ Int.log 2 x := (Int.zpow_le_iff_le_log (by norm_num) hx).1 (by exact_mod_cast hl)
  have h2 : Int.log 2 x < e + 1 := (Int.lt_zpow_iff_log_lt (by norm_num) hx).1 (by exact_mod_cast hu)
  omega

theorem Sticky.floor_quarter {j : ℕ} {q : ℚ} (h : Sticky j (4 * q)) : ⌊q⌋₊ = j / 4 := by
  have h1 : ((4 * (j / 4) : ℕ) : ℚ) ≤ 4 * q := (h.even_le_iff (by omega)).1 (by omega)
  have h2 : 4 * q < ((4 * (j / 4) + 4 : ℕ) : ℚ) := (h.lt_even_iff (by omega)).1 (by omega)
  push_cast at h1 h2
  rw [Nat.floor_eq_iff (by linarith [(Nat.cast_nonneg (j / 4) : (0 : ℚ) ≤ (j / 4 : ℕ))])]
  constructor <;> linarith

theorem Sticky.frac_lt_half {j : ℕ} {q : ℚ} (h : Sticky j (4 * q)) :
    q - (j / 4 : ℕ) < 1 / 2 ↔ j % 4 < 2 := by
  have h1 := h.lt_even_iff (e := 4 * (j / 4) + 2) (by omega)
  push_cast at h1
  constructor
  · intro hlt
    have := h1.2 (by linarith)
    omega
  · intro hlt
    have := h1.1 (by omega)
    linarith

theorem Sticky.half_lt_frac {j : ℕ} {q : ℚ} (h : Sticky j (4 * q)) :
    1 / 2 < q - (j / 4 : ℕ) ↔ 2 < j % 4 := by
  have h1 := h.even_lt_iff (e := 4 * (j / 4) + 2) (by omega)
  push_cast at h1
  constructor
  · intro hlt
    have := h1.2 (by linarith)
    omega
  · intro hlt
    have := h1.1 (by omega)
    linarith

theorem Sticky.frac_eq_half {j : ℕ} {q : ℚ} (h : Sticky j (4 * q)) :
    q - (j / 4 : ℕ) = 1 / 2 ↔ j % 4 = 2 := by
  have h1 := h.frac_lt_half
  have h2 := h.half_lt_frac
  rw [eq_iff_le_not_lt, ← not_lt, h1, h2]
  omega

theorem Sticky.frac_eq_zero {j : ℕ} {q : ℚ} (h : Sticky j (4 * q)) :
    q - (j / 4 : ℕ) = 0 ↔ j % 4 = 0 := by
  have h1 := h.even_lt_iff (e := 4 * (j / 4)) (by omega)
  have h2 := h.lt_even_iff (e := 4 * (j / 4)) (by omega)
  push_cast at h1 h2
  constructor
  · intro he
    have : ¬ 4 * (j / 4) < j := by rw [h1]; linarith
    omega
  · intro he
    have hn1 : ¬ (4 : ℚ) * (j / 4 : ℕ) < 4 * q := by rw [← h1]; omega
    have hn2 : ¬ (4 : ℚ) * q < 4 * (j / 4 : ℕ) := by rw [← h2]; omega
    linarith

/-- **Rounding read off a sticky integer** with two bits below the unit. -/
theorem roundNat_of_sticky (m : Rounding) (neg : Bool) {j : ℕ} {q : ℚ} (h : Sticky j (4 * q)) :
    roundNat m neg q = match m with
      | .rne => if j % 4 < 2 ∨ (j % 4 = 2 ∧ j / 4 % 2 = 0) then j / 4 else j / 4 + 1
      | .rtz => j / 4
      | .rdn => if neg = true ∧ j % 4 ≠ 0 then j / 4 + 1 else j / 4
      | .rup => if neg = false ∧ j % 4 ≠ 0 then j / 4 + 1 else j / 4
      | .rmm => if j % 4 < 2 then j / 4 else j / 4 + 1 := by
  unfold roundNat
  simp only [h.floor_quarter, h.frac_lt_half, h.frac_eq_half, h.frac_eq_zero, ne_eq]

theorem Sticky.exact_iff {j : ℕ} {q : ℚ} (h : Sticky j (4 * q)) (m : Rounding) (neg : Bool) :
    (roundNat m neg q : ℚ) = q ↔ j % 4 = 0 := by
  constructor
  · intro he
    have hf := h.floor_quarter
    rw [← he, Nat.floor_natCast] at hf
    rw [← h.frac_eq_zero, ← hf, he, sub_self]
  · intro h0
    have hz := h.frac_eq_zero.2 h0
    have hr : roundNat m neg q = j / 4 := by
      rw [roundNat_of_sticky m neg h]
      cases m <;> simp [h0]
    rw [hr]; linarith

/-- Numbers with one sticky integer two bits below the unit round alike. -/
theorem roundNat_congr (m : Rounding) (neg : Bool) {j : ℕ} {q q' : ℚ} (h : Sticky j (4 * q)) (h' : Sticky j (4 * q')) :
    roundNat m neg q = roundNat m neg q' := by
  rw [roundNat_of_sticky m neg h, roundNat_of_sticky m neg h']

theorem exact_congr (m : Rounding) (neg : Bool) {j : ℕ} {q q' : ℚ} (h : Sticky j (4 * q)) (h' : Sticky j (4 * q')) :
    (roundNat m neg q : ℚ) = q ↔ (roundNat m neg q' : ℚ) = q' := by
  rw [h.exact_iff, h'.exact_iff]

theorem roundNat_mem (m : Rounding) (neg : Bool) (q : ℚ) : roundNat m neg q = ⌊q⌋₊ ∨ roundNat m neg q = ⌊q⌋₊ + 1 := by
  unfold roundNat
  cases m <;> dsimp only <;> (try split_ifs) <;> simp

theorem roundNat_exact_iff (m : Rounding) (neg : Bool) {q : ℚ} (hq : 0 ≤ q) :
    (roundNat m neg q : ℚ) = q ↔ q - ⌊q⌋₊ = 0 := by
  have hfl := Nat.floor_le hq
  have hlt := Nat.lt_floor_add_one q
  constructor
  · intro h
    rw [← h, Nat.floor_natCast, sub_self]
  · intro h
    have : roundNat m neg q = ⌊q⌋₊ := by
      unfold roundNat
      simp only [h]
      cases m <;> simp
    rw [this]; linarith

/-- A multiple of its quantum is rounded to itself. -/
theorem Format.roundMag_exact (F : Format) (m : Rounding) (neg : Bool) {x : ℚ} {n : ℕ}
    (hx : x = n * F.quantum (max (Int.log 2 x) F.emin)) : F.roundMag m neg x = x := by
  have hu : F.quantum (max (Int.log 2 x) F.emin) ≠ 0 := by unfold quantum; positivity
  have hn : x / F.quantum (max (Int.log 2 x) F.emin) = n := by rw [div_eq_iff hu]; exact hx
  have hr : (roundNat m neg (n : ℚ) : ℚ) = n := by
    rw [roundNat_exact_iff m neg (Nat.cast_nonneg n), Nat.floor_natCast, sub_self]
  unfold roundMag roundTo
  rw [hn, hr, ← hx]

theorem Format.round_exact (F : Format) (m : Rounding) (neg : Bool) {x : ℚ} (h : F.roundMag m neg x = x)
    (hle : x ≤ F.maxFinite) : F.round m neg x = (.num neg x, {}) := by
  unfold Format.round
  simp only [h, if_neg (not_lt.2 hle), ne_eq, not_true, false_and, decide_false]

end Lish.Ieee
