import Lish.Ieee.Round
/-!
# Border — tiny results that round to a normal number

Tininess is judged with an unbounded exponent range, at half the quantum of the subnormals.  Under round to nearest there is
one interval of results that are tiny and yet become the least normal number; an exact multiple of the quantum is never
tiny and inexact.
-/
namespace Lish.Ieee

/-- The results in the quarter quantum at half a quantum below the least normal number. -/
def Format.Border (F : Format) (x : ℚ) : Prop :=
  (2 : ℚ) ^ F.emin - F.quantum F.emin / 2 ≤ x ∧ x < 2 ^ F.emin - F.quantum F.emin / 4

/-- Just below an even integer, round to nearest goes up from the half on. -/
theorem roundNat_below_even (neg : Bool) {n : ℕ} (hn : n % 2 = 0) {z : ℚ} (hl : (n : ℚ) - 1 ≤ z) (hu : z < n)
    (h0 : 0 ≤ z) : n ≤ roundNat .rne neg z ↔ (n : ℚ) - 1 / 2 ≤ z := by
  have hpos : 0 < n := by
    have hc : (0 : ℚ) < n := lt_of_le_of_lt h0 hu
    exact_mod_cast hc
  obtain ⟨k, rfl⟩ : ∃ k, n = k + 1 := ⟨n - 1, by omega⟩
  push_cast at hl hu ⊢
  have hfl : ⌊z⌋₊ = k := by
    rw [Nat.floor_eq_iff h0]
    constructor <;> linarith
  unfold roundNat
  simp only [hfl]
  have hodd : ¬ k % 2 = 0 := by omega
  simp only [hodd, and_false, or_false]
  split_ifs with hr
  · constructor
    · intro h; omega
    · intro h; linarith
  · exact ⟨fun _ => by linarith [not_lt.1 hr], fun _ => le_rfl⟩

theorem roundNat_ge (m : Rounding) (neg : Bool) {n : ℕ} {z : ℚ} (h : (n : ℚ) ≤ z) : n ≤ roundNat m neg z := by
  have hf : n ≤ ⌊z⌋₊ := Nat.le_floor h
  rcases roundNat_mem m neg z with hr | hr <;> omega

namespace Format

variable (F : Format)

theorem quantum_pos (e : ℤ) : 0 < F.quantum e := by unfold quantum; positivity

theorem quantum_succ (e : ℤ) : F.quantum (e - 1) = F.quantum e / 2 := by
  unfold quantum
  rw [show e - 1 - ((F.prec : ℤ) - 1) = e - (F.prec - 1) - 1 by ring, zpow_sub_one₀ (by norm_num)]
  ring

/-- The least number of an exponent in quanta. -/
theorem two_zpow_eq (hp : 1 ≤ F.prec) (e : ℤ) : (2 : ℚ) ^ e = (2 ^ (F.prec - 1) : ℕ) * F.quantum e := by
  unfold quantum
  push_cast
  rw [← zpow_natCast, ← zpow_add₀ (by norm_num)]
  congr 1
  omega

/-- A number from `2 ^ e` on does not round below it. -/
theorem roundTo_quantum_ge (hp : 1 ≤ F.prec) (m : Rounding) (neg : Bool) {x : ℚ} {e d : ℤ} (hd : e ≤ d)
    (hxd : (2 : ℚ) ^ d ≤ x) : (2 : ℚ) ^ e ≤ roundTo m neg (F.quantum d) x := by
  have hq := F.quantum_pos d
  have hle : (2 : ℚ) ^ e ≤ 2 ^ d := zpow_le_zpow_right₀ (by norm_num) hd
  refine hle.trans ?_
  rw [F.two_zpow_eq hp d] at hxd ⊢
  unfold roundTo
  have hn : ((2 ^ (F.prec - 1) : ℕ) : ℚ) ≤ x / F.quantum d := by rwa [le_div_iff₀ hq]
  exact mul_le_mul_of_nonneg_right (by exact_mod_cast roundNat_ge m neg hn) hq.le

theorem lt_of_roundUnbounded_lt (hp : 1 ≤ F.prec) (m : Rounding) (neg : Bool) {x : ℚ} (hx : 0 < x) {e : ℤ}
    (h : F.roundUnbounded m neg x < 2 ^ e) : x < 2 ^ e := by
  by_contra hc
  have hge : (2 : ℚ) ^ e ≤ x := not_lt.1 hc
  have hlog : e ≤ Int.log 2 x := (Int.zpow_le_iff_le_log (by norm_num) hx).1 (by exact_mod_cast hge)
  have hself : (2 : ℚ) ^ Int.log 2 x ≤ x := by exact_mod_cast Int.zpow_log_le_self (by norm_num) hx
  exact absurd (F.roundTo_quantum_ge hp m neg hlog hself) (not_le.2 h)

theorem log_lt {x : ℚ} (hx : 0 < x) {e : ℤ} (h : x < 2 ^ e) : Int.log 2 x < e :=
  (Int.lt_zpow_iff_log_lt (by norm_num) hx).1 (by exact_mod_cast h)

/-- Below the least normal number, the result is normal from half a quantum on. -/
theorem normal_iff (hp : 2 ≤ F.prec) (neg : Bool) {x : ℚ} (hx : 0 < x) (hlt : x < 2 ^ F.emin) :
    (2 : ℚ) ^ F.emin ≤ F.roundMag .rne neg x ↔ (2 : ℚ) ^ F.emin - F.quantum F.emin / 2 ≤ x := by
  have hq := F.quantum_pos F.emin
  have h2 := F.two_zpow_eq (by omega) F.emin
  have hmax : max (Int.log 2 x) F.emin = F.emin := max_eq_right (log_lt hx hlt).le
  have heven : 2 ^ (F.prec - 1) % 2 = 0 := by
    rw [show F.prec - 1 = F.prec - 2 + 1 by omega, pow_succ]; omega
  unfold roundMag roundTo
  rw [hmax, h2, mul_le_mul_iff_left₀ hq, Nat.cast_le]
  rw [h2] at hlt
  have hu : x / F.quantum F.emin < (2 ^ (F.prec - 1) : ℕ) := by rwa [div_lt_iff₀ hq]
  have hz : 0 ≤ x / F.quantum F.emin := by positivity
  by_cases hl : ((2 ^ (F.prec - 1) : ℕ) : ℚ) - 1 ≤ x / F.quantum F.emin
  · rw [roundNat_below_even neg heven hl hu hz, le_div_iff₀ hq]
    constructor <;> intro h <;> linarith
  · have hlow := not_le.1 hl
    constructor
    · intro h
      exfalso
      have hfl : ⌊x / F.quantum F.emin⌋₊ + 1 < 2 ^ (F.prec - 1) := by
        have h1 := Nat.floor_le hz
        have h3 : ((⌊x / F.quantum F.emin⌋₊ + 1 : ℕ) : ℚ) < (2 ^ (F.prec - 1) : ℕ) := by push_cast at hlow ⊢; linarith
        exact_mod_cast h3
      rcases roundNat_mem .rne neg (x / F.quantum F.emin) with hr | hr <;> omega
    · intro h
      exfalso
      rw [div_lt_iff₀ hq] at hlow
      linarith

/-- From half a quantum below the least normal number on, a result is tiny up to a quarter below. -/
theorem tiny_iff (hp : 2 ≤ F.prec) (neg : Bool) {x : ℚ} (hlt : x < 2 ^ F.emin)
    (hge : (2 : ℚ) ^ F.emin - F.quantum F.emin / 2 ≤ x) :
    F.roundUnbounded .rne neg x < 2 ^ F.emin ↔ x < 2 ^ F.emin - F.quantum F.emin / 4 := by
  have hq := F.quantum_pos F.emin
  have h2 := F.two_zpow_eq (by omega) F.emin
  have hN : (2 : ℚ) ≤ (2 ^ (F.prec - 1) : ℕ) := by
    have : 2 ^ 1 ≤ 2 ^ (F.prec - 1) := Nat.pow_le_pow_right (by norm_num) (by omega)
    exact_mod_cast this
  have hhalf : (2 : ℚ) ^ (F.emin - 1) = 2 ^ F.emin / 2 := by rw [zpow_sub_one₀ (by norm_num)]; ring
  have hlog : Int.log 2 x = F.emin - 1 := by
    apply log_two_eq
    · rw [hhalf]; nlinarith
    · rw [sub_add_cancel]; exact hlt
  have hqh : F.quantum (F.emin - 1) = F.quantum F.emin / 2 := F.quantum_succ F.emin
  have hq2 : 0 < F.quantum F.emin / 2 := by linarith
  unfold roundUnbounded roundTo
  rw [hlog, hqh]
  have hsplit : (2 : ℚ) ^ F.emin = (2 * 2 ^ (F.prec - 1) : ℕ) * (F.quantum F.emin / 2) := by
    rw [h2]; push_cast; ring
  rw [hsplit, mul_lt_mul_iff_left₀ hq2, Nat.cast_lt, ← not_le]
  rw [hsplit] at hlt hge
  have hz : 0 ≤ x / (F.quantum F.emin / 2) := by
    apply div_nonneg _ hq2.le
    have : (0 : ℚ) ≤ (2 * 2 ^ (F.prec - 1) : ℕ) * (F.quantum F.emin / 2) - F.quantum F.emin / 2 := by
      push_cast; push_cast at hN; nlinarith
    linarith
  rw [roundNat_below_even neg (by omega) (by rw [le_div_iff₀ hq2]; linarith) (by rwa [div_lt_iff₀ hq2]) hz,
    le_div_iff₀ hq2, ← not_le]
  constructor <;> intro h h' <;> exact h (by linarith)

/-- **Tiny and normal.**  A result raises underflow and is a normal number exactly on the border. -/
theorem uf_normal_iff (hp : 2 ≤ F.prec) (neg : Bool) {x : ℚ} (hx : 0 < x) :
    ((F.roundMag .rne neg x ≠ x ∧ F.roundUnbounded .rne neg x < 2 ^ F.emin) ∧ (2 : ℚ) ^ F.emin ≤ F.roundMag .rne neg x) ↔
      F.Border x := by
  have hq := F.quantum_pos F.emin
  unfold Border
  constructor
  · rintro ⟨⟨-, ht⟩, hn⟩
    have hlt := F.lt_of_roundUnbounded_lt (by omega) .rne neg hx ht
    have hge := (F.normal_iff hp neg hx hlt).1 hn
    exact ⟨hge, (F.tiny_iff hp neg hlt hge).1 ht⟩
  · rintro ⟨hge, hu⟩
    have hlt : x < 2 ^ F.emin := by linarith
    have hn := (F.normal_iff hp neg hx hlt).2 hge
    exact ⟨⟨fun h => by rw [h] at hn; linarith, (F.tiny_iff hp neg hlt hge).2 hu⟩, hn⟩

/-- On the border the rounded result is the least normal number. -/
theorem Border.roundMag (hp : 2 ≤ F.prec) (neg : Bool) {x : ℚ} (hx : 0 < x) (h : F.Border x) :
    F.roundMag .rne neg x = 2 ^ F.emin := by
  have hq := F.quantum_pos F.emin
  have h2 := F.two_zpow_eq (by omega) F.emin
  have hlt : x < 2 ^ F.emin := by linarith [h.2]
  refine le_antisymm ?_ ((F.normal_iff hp neg hx hlt).2 h.1)
  have hmax : max (Int.log 2 x) F.emin = F.emin := max_eq_right (log_lt hx hlt).le
  unfold Format.roundMag roundTo
  rw [hmax, h2]
  rw [h2] at hlt
  have hz : 0 ≤ x / F.quantum F.emin := by positivity
  have hfl : ⌊x / F.quantum F.emin⌋₊ < 2 ^ (F.prec - 1) := by
    rw [Nat.floor_lt hz, div_lt_iff₀ hq]
    exact hlt
  have hle : roundNat .rne neg (x / F.quantum F.emin) ≤ 2 ^ (F.prec - 1) := by
    rcases roundNat_mem .rne neg (x / F.quantum F.emin) with hr | hr <;> omega
  exact mul_le_mul_of_nonneg_right (by exact_mod_cast hle) hq.le

/-- The least normal number does not overflow. -/
theorem two_zpow_emin_le (hp : 1 ≤ F.prec) (he : F.emin ≤ F.emax) : (2 : ℚ) ^ F.emin ≤ F.maxFinite := by
  have hle : (2 : ℚ) ^ F.emin ≤ 2 ^ F.emax := zpow_le_zpow_right₀ (by norm_num) he
  have hq : F.quantum F.emax ≤ 2 ^ F.emax := zpow_le_zpow_right₀ (by norm_num) (by omega)
  have h2 : (2 : ℚ) ^ (F.emax + 1) = 2 * 2 ^ F.emax := by rw [zpow_add_one₀ (by norm_num)]; ring
  unfold maxFinite
  rw [h2]
  linarith

/-- A result that is not an infinity was not an overflow. -/
theorem round_rne_num (neg : Bool) {x q : ℚ} {s : Bool} (h : (F.round .rne neg x).1 = .num s q) :
    F.round .rne neg x = (.num neg (F.roundMag .rne neg x),
      { uf := decide (F.roundMag .rne neg x ≠ x ∧ F.roundUnbounded .rne neg x < 2 ^ F.emin),
        nx := decide (F.roundMag .rne neg x ≠ x) }) := by
  unfold Format.round at h ⊢
  dsimp only at h ⊢
  by_cases hov : F.maxFinite < F.roundMag .rne neg x
  · rw [if_pos hov] at h
    cases h
  · rw [if_neg hov]

/-- **Exact sums.**  A multiple of the least quantum is not both tiny and inexact. -/
theorem not_tiny_of_multiple (hp : 1 ≤ F.prec) (m : Rounding) (neg : Bool) {x : ℚ} (hx : 0 < x) {n : ℕ}
    (hn : x = n * F.quantum F.emin) : ¬ (F.roundMag m neg x ≠ x ∧ F.roundUnbounded m neg x < 2 ^ F.emin) := by
  rintro ⟨hne, ht⟩
  have hlt := F.lt_of_roundUnbounded_lt hp m neg hx ht
  have hmax : max (Int.log 2 x) F.emin = F.emin := max_eq_right (log_lt hx hlt).le
  exact hne (F.roundMag_exact m neg (n := n) (by rw [hmax]; exact hn))

end Format
end Lish.Ieee
