import Mathlib.Analysis.Real.Sqrt
import Lish.Ieee.Border
/-!
# Rounding a real number

A root of a rational number need not be rational.  It is rounded as the rational numbers are; a rational number that compares alike with
every multiple of a small enough unit is rounded to the same datum, with the same flags (`roundReal_congr`).
-/
namespace Lish.Ieee

/-- Round the magnitude `z` of a number of sign `neg` to an integer. -/
noncomputable def roundNatReal (m : Rounding) (neg : Bool) (z : ℝ) : ℕ :=
  let n := ⌊z⌋₊
  let r := z - n
  match m with
  | .rne => if r < 1 / 2 ∨ (r = 1 / 2 ∧ n % 2 = 0) then n else n + 1
  | .rtz => n
  | .rdn => if neg = true ∧ r ≠ 0 then n + 1 else n
  | .rup => if neg = false ∧ r ≠ 0 then n + 1 else n
  | .rmm => if r < 1 / 2 then n else n + 1

/-- Round `z` to a multiple of `u`. -/
noncomputable def roundToReal (m : Rounding) (neg : Bool) (u : ℚ) (z : ℝ) : ℚ := roundNatReal m neg (z / u) * u

/-- The rounded result of a nonzero exact magnitude `z`, with its flags. -/
noncomputable def Format.roundReal (F : Format) (m : Rounding) (neg : Bool) (z : ℝ) : Datum × Flags :=
  let y := roundToReal m neg (F.quantum (max (Int.log 2 z) F.emin)) z
  if F.maxFinite < y then
    (if m.overflowsToInf neg then .inf neg else .num neg F.maxFinite, { of := true, nx := true })
  else
    (.num neg y,
      { uf := decide ((y : ℝ) ≠ z ∧ roundToReal m neg (F.quantum (Int.log 2 z)) z < 2 ^ F.emin)
        nx := decide ((y : ℝ) ≠ z) })

/-- The square root.  The root of a zero is that zero; a negative number has none. -/
noncomputable def Format.sqrt (F : Format) (m : Rounding) (x : Datum) : Datum × Flags :=
  if x.isNan then propagate x.isSignaling
  else if x.isZero then (x, {})
  else if x.neg then invalid
  else if x.isInf then (x, {})
  else F.roundReal m false (Real.sqrt (x.toRat : ℝ))

/-! ## Numbers that round alike -/

/-- `q` and `z` compare alike with every multiple of `u`. -/
def Alike (u q : ℚ) (z : ℝ) : Prop :=
  ∀ n : ℕ, (n * u ≤ q ↔ ((n * u : ℚ) : ℝ) ≤ z) ∧ (q ≤ n * u ↔ z ≤ ((n * u : ℚ) : ℝ))

variable {u q : ℚ} {z : ℝ}

theorem alike_self (u q : ℚ) : Alike u q q := fun _ => ⟨Rat.cast_le.symm, Rat.cast_le.symm⟩

theorem Alike.mul (h : Alike u q z) (k : ℕ) : Alike (k * u) q z := fun n => by
  rw [show (n * (k * u) : ℚ) = (n * k : ℕ) * u by push_cast; ring]
  exact h (n * k)

theorem Alike.scale (h : Alike u q z) {c : ℚ} (hc : 0 < c) : Alike (u * c) (q * c) (z * c) := fun n => by
  have hc' : (0 : ℝ) < c := by exact_mod_cast hc
  have hn := h n
  push_cast at hn ⊢
  rw [← mul_assoc, ← mul_assoc, mul_le_mul_iff_left₀ hc, mul_le_mul_iff_left₀ hc, mul_le_mul_iff_left₀ hc',
    mul_le_mul_iff_left₀ hc']
  exact hn

theorem Alike.le_iff (h : Alike u q z) {a : ℚ} {n : ℕ} (ha : a = n * u) : (a ≤ q ↔ (a : ℝ) ≤ z) ∧ (q ≤ a ↔ z ≤ (a : ℝ)) := by
  rw [ha]
  exact h n

/-- **Rounding to an integer** looks at halves only. -/
theorem roundNatReal_eq (m : Rounding) (neg : Bool) (h : Alike (1 / 2) q z) (hq : 0 ≤ q) :
    roundNatReal m neg z = roundNat m neg q ∧ (((roundNat m neg q : ℚ) : ℝ) = z ↔ (roundNat m neg q : ℚ) = q) := by
  have hint : ∀ n : ℕ, ((n : ℚ) ≤ q ↔ (n : ℝ) ≤ z) ∧ (q ≤ n ↔ z ≤ n) := fun n => by
    have hn := h.le_iff (a := n) (n := 2 * n) (by push_cast; ring)
    push_cast at hn
    exact hn
  have hz : 0 ≤ z := by
    have h0 := (hint 0).1.1 (by exact_mod_cast hq)
    exact_mod_cast h0
  have hfl : ⌊z⌋₊ = ⌊q⌋₊ := by
    rw [Nat.floor_eq_iff hz]
    have h1 := (hint ⌊q⌋₊).1.1 (Nat.floor_le hq)
    have h2 : ¬ ((⌊q⌋₊ + 1 : ℕ) : ℝ) ≤ z := fun hle => by
      have hle := (hint (⌊q⌋₊ + 1)).1.2 hle
      push_cast at hle
      linarith [Nat.lt_floor_add_one q]
    push_cast at h2
    exact ⟨h1, not_le.1 h2⟩
  have hhalf := h.le_iff (a := ⌊q⌋₊ + 1 / 2) (n := 2 * ⌊q⌋₊ + 1) (by push_cast; ring)
  push_cast at hhalf
  have hlt : z - ⌊q⌋₊ < 1 / 2 ↔ q - ⌊q⌋₊ < 1 / 2 := by
    have hle := not_congr hhalf.1
    rw [not_le, not_le] at hle
    constructor
    · intro hz'
      linarith [hle.2 (by linarith)]
    · intro hq'
      linarith [hle.1 (by linarith)]
  have heq : z - ⌊q⌋₊ = 1 / 2 ↔ q - ⌊q⌋₊ = 1 / 2 := by
    constructor
    · intro hz'
      linarith [hhalf.1.2 (by linarith), hhalf.2.2 (by linarith)]
    · intro hq'
      linarith [hhalf.1.1 (by linarith), hhalf.2.1 (by linarith)]
  have hex : ∀ n : ℕ, (n : ℝ) = z ↔ (n : ℚ) = q := fun n => by
    obtain ⟨h1, h2⟩ := hint n
    constructor
    · intro hz'
      exact le_antisymm (h1.2 hz'.le) (h2.2 hz'.ge)
    · intro hq'
      exact le_antisymm (h1.1 hq'.le) (h2.1 hq'.ge)
  have hzero : z - ⌊q⌋₊ = 0 ↔ q - ⌊q⌋₊ = 0 := by
    have hn := hex ⌊q⌋₊
    rw [sub_eq_zero, sub_eq_zero, eq_comm, hn, eq_comm]
  refine ⟨?_, ?_⟩
  · unfold roundNatReal roundNat
    cases m <;> simp only [hfl, hlt, heq, hzero, ne_eq]
  · have hn := hex (roundNat m neg q)
    push_cast
    exact hn

/-- Rounding to a multiple of a power of two that is at least twice the unit. -/
theorem roundToReal_eq (m : Rounding) (neg : Bool) {t e : ℤ} (h : Alike (2 ^ t) q z) (hq : 0 ≤ q) (ht : t + 1 ≤ e) :
    roundToReal m neg (2 ^ e) z = roundTo m neg (2 ^ e) q ∧ ((roundTo m neg (2 ^ e) q : ℝ) = z ↔ roundTo m neg (2 ^ e) q = q) := by
  obtain ⟨k, rfl⟩ : ∃ k : ℕ, e = t + 1 + k := ⟨(e - (t + 1)).toNat, by omega⟩
  have hu : (0 : ℚ) < 2 ^ (t + 1 + k) := by positivity
  have hu' : ((2 ^ (t + 1 + k) : ℚ) : ℝ) ≠ 0 := by exact_mod_cast hu.ne'
  have hunit : ((2 ^ k : ℕ) * 2 ^ t : ℚ) * (2 ^ (t + 1 + k))⁻¹ = 1 / 2 := by
    rw [zpow_add₀ (by norm_num), zpow_add₀ (by norm_num), zpow_natCast, zpow_one]
    push_cast
    field_simp
  have hscaled := (h.mul (2 ^ k)).scale (inv_pos.2 hu)
  rw [hunit] at hscaled
  obtain ⟨h1, h2⟩ := roundNatReal_eq m neg hscaled (by positivity)
  have hz : z * ((2 ^ (t + 1 + k) : ℚ)⁻¹ : ℚ) = z / ((2 ^ (t + 1 + k) : ℚ) : ℝ) := by rw [Rat.cast_inv, div_eq_mul_inv]
  rw [hz, ← div_eq_mul_inv] at h1 h2
  unfold roundToReal roundTo
  refine ⟨by rw [h1], ?_⟩
  rw [Rat.cast_mul, ← eq_div_iff hu', h2, ← eq_div_iff hu.ne']

theorem log_two_eq_real {z : ℝ} {e : ℤ} (hl : (2 : ℝ) ^ e ≤ z) (hu : z < 2 ^ (e + 1)) : Int.log 2 z = e := by
  have hz : 0 < z := lt_of_lt_of_le (zpow_pos (by norm_num) e) hl
  have h1 : e ≤ Int.log 2 z := (Int.zpow_le_iff_le_log (by norm_num) hz).1 (by exact_mod_cast hl)
  have h2 : Int.log 2 z < e + 1 := (Int.lt_zpow_iff_log_lt (by norm_num) hz).1 (by exact_mod_cast hu)
  omega

theorem Alike.log {t : ℤ} (h : Alike (2 ^ t) q z) (hq : (2 : ℚ) ^ t ≤ q) : Int.log 2 z = Int.log 2 q := by
  have hpos : 0 < q := lt_of_lt_of_le (zpow_pos (by norm_num) t) hq
  have hte : t ≤ Int.log 2 q := (Int.zpow_le_iff_le_log (by norm_num) hpos).1 (by exact_mod_cast hq)
  have hpow : ∀ e : ℤ, t ≤ e → ((2 : ℚ) ^ e ≤ q ↔ (2 : ℝ) ^ e ≤ z) := fun e he => by
    have hle := (h.le_iff (a := (2 : ℚ) ^ e) (n := 2 ^ (e - t).toNat) (by
      push_cast
      rw [← zpow_natCast, ← zpow_add₀ (by norm_num)]
      congr 1
      omega)).1
    push_cast at hle
    exact hle
  refine log_two_eq_real ((hpow _ hte).1 ?_) (not_le.1 fun hle => ?_)
  · exact_mod_cast (Int.zpow_le_iff_le_log (by norm_num) hpos).2 (le_refl (Int.log 2 q))
  · have hle := (hpow _ (by omega)).2 hle
    have hlog := (Int.zpow_le_iff_le_log (b := 2) (by norm_num) hpos).1 (by exact_mod_cast hle)
    omega

/-- **Numbers that round alike.**  A rational number that compares alike with every multiple of a unit, `prec` bits below it, is rounded
to the same datum. -/
theorem Format.roundReal_congr (F : Format) (hp : 1 ≤ F.prec) (m : Rounding) (neg : Bool) {t : ℤ} (h : Alike (2 ^ t) q z)
    (hq : (2 : ℚ) ^ (t + F.prec) ≤ q) : F.roundReal m neg z = F.round m neg q := by
  have hpos : 0 < q := lt_of_lt_of_le (zpow_pos (by norm_num) _) hq
  have hlog : t + F.prec ≤ Int.log 2 q := (Int.zpow_le_iff_le_log (by norm_num) hpos).1 (by exact_mod_cast hq)
  have hunit : (2 : ℚ) ^ t ≤ q := le_trans (zpow_le_zpow_right₀ (by norm_num) (by omega)) hq
  have hround : ∀ e : ℤ, Int.log 2 q ≤ e → roundToReal m neg (F.quantum e) z = roundTo m neg (F.quantum e) q ∧
      ((roundTo m neg (F.quantum e) q : ℝ) = z ↔ roundTo m neg (F.quantum e) q = q) := fun e he => by
    unfold Format.quantum
    exact roundToReal_eq m neg h hpos.le (by omega)
  obtain ⟨h1, h2⟩ := hround _ (le_max_left _ F.emin)
  obtain ⟨h3, -⟩ := hround _ le_rfl
  unfold Format.roundReal Format.round Format.roundMag Format.roundUnbounded
  simp only [h.log hunit, h1, h2, h3, ne_eq]

end Lish.Ieee
