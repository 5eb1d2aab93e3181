import Mathlib.Algebra.Order.Floor.Semiring
import Mathlib.Data.Rat.Floor
import Mathlib.Tactic.Linarith
import Mathlib.Tactic.Ring
import Mathlib.Tactic.FieldSimp
import Mathlib.Tactic.NormNum
/-!
# Sticky integers

A sticky integer stands for a nonnegative rational: an even one for itself, an odd one for any number strictly between
its two even neighbours.  `shiftJam` shifts right and ors the lost bits into the low bit.  The relation is stable under
the aligned sum and difference and under further shifts, and two guard bits of it decide every rounding
(`Lish.Ieee.Round`).
-/
namespace Lish.Ieee

/-- `j` stands for `y` with a sticky low bit. -/
def Sticky (j : ℕ) (y : ℚ) : Prop :=
  (j % 2 = 0 ∧ y = j) ∨ (j % 2 = 1 ∧ (j : ℚ) - 1 < y ∧ y < j + 1)

/-- Shift right by `d`, or-ing the lost bits into the low bit. -/
def shiftJam (a d : ℕ) : ℕ := a / 2 ^ d ||| (if a % 2 ^ d = 0 then 0 else 1)

theorem or_one_eq (q : ℕ) : q ||| 1 = 2 * (q / 2) + 1 := by
  have hq : q = 2 ^ 1 * (q / 2) ||| q % 2 := by
    rw [← Nat.two_pow_add_eq_or_of_lt (by omega : q % 2 < 2 ^ 1)]; omega
  have hr : q % 2 ||| 1 = 1 := by
    rcases Nat.mod_two_eq_zero_or_one q with h | h <;> rw [h] <;> rfl
  conv_lhs => rw [hq, Nat.or_assoc, hr, ← Nat.two_pow_add_eq_or_of_lt (by norm_num : 1 < 2 ^ 1)]

theorem shiftJam_zero (a : ℕ) : shiftJam a 0 = a := by simp [shiftJam, Nat.mod_one]

theorem Sticky.self (n : ℕ) : Sticky n n := by
  rcases Nat.mod_two_eq_zero_or_one n with h | h
  · exact Or.inl ⟨h, rfl⟩
  · exact Or.inr ⟨h, by linarith, by linarith⟩

theorem Sticky.nonneg {j : ℕ} {y : ℚ} (h : Sticky j y) : 0 ≤ y := by
  rcases h with ⟨-, rfl⟩ | ⟨ho, hl, -⟩
  · positivity
  · have : (1 : ℚ) ≤ j := by exact_mod_cast (by omega : 1 ≤ j)
    linarith

/-- A number has one sticky integer. -/
theorem Sticky.unique {j k : ℕ} {y : ℚ} (hj : Sticky j y) (hk : Sticky k y) : j = k := by
  rcases hj with ⟨hje, hj⟩ | ⟨hjo, hjl, hju⟩ <;> rcases hk with ⟨hke, hk⟩ | ⟨hko, hkl, hku⟩
  · have : (j : ℚ) = k := by rw [← hj, ← hk]
    exact_mod_cast this
  · subst hj
    have h1 : k < j + 1 := by exact_mod_cast (by linarith : (k : ℚ) < j + 1)
    have h2 : j < k + 1 := by exact_mod_cast hku
    omega
  · subst hk
    have h1 : j < k + 1 := by exact_mod_cast (by linarith : (j : ℚ) < k + 1)
    have h2 : k < j + 1 := by exact_mod_cast hju
    omega
  · have h1 : j < k + 2 := by exact_mod_cast (by linarith : (j : ℚ) < k + 2)
    have h2 : k < j + 2 := by exact_mod_cast (by linarith : (k : ℚ) < j + 2)
    omega

/-- A sticky integer against an even bound: it is on the same side as its number. -/
theorem Sticky.lt_even_iff {j e : ℕ} {y : ℚ} (h : Sticky j y) (he : e % 2 = 0) : j < e ↔ y < e := by
  rcases h with ⟨hj, rfl⟩ | ⟨hj, hl, hu⟩
  · exact_mod_cast Iff.rfl
  · constructor
    · intro hlt
      have : (j : ℚ) + 1 ≤ e := by exact_mod_cast hlt
      linarith
    · intro hlt
      have : j < e + 1 := by exact_mod_cast (by linarith : (j : ℚ) < e + 1)
      omega

theorem Sticky.even_lt_iff {j e : ℕ} {y : ℚ} (h : Sticky j y) (he : e % 2 = 0) : e < j ↔ (e : ℚ) < y := by
  rcases h with ⟨hj, rfl⟩ | ⟨hj, hl, hu⟩
  · exact_mod_cast Iff.rfl
  · constructor
    · intro hlt
      have : (e : ℚ) + 1 ≤ j := by exact_mod_cast hlt
      linarith
    · intro hlt
      have : e < j + 1 := by exact_mod_cast (by linarith : (e : ℚ) < j + 1)
      omega

theorem Sticky.even_le_iff {j e : ℕ} {y : ℚ} (h : Sticky j y) (he : e % 2 = 0) : e ≤ j ↔ (e : ℚ) ≤ y := by
  rw [← Nat.not_lt, h.lt_even_iff he, not_lt]

theorem Sticky.le_even_iff {j e : ℕ} {y : ℚ} (h : Sticky j y) (he : e % 2 = 0) : j ≤ e ↔ y ≤ e := by
  rw [← Nat.not_lt, h.even_lt_iff he, not_lt]

/-- A quotient with the low bit set for a nonzero remainder. -/
theorem sticky_div (a : ℕ) {b : ℕ} (hb : 0 < b) : Sticky (a / b ||| (if a % b = 0 then 0 else 1)) ((a : ℚ) / b) := by
  have hp : (0 : ℚ) < b := by exact_mod_cast hb
  have hda := Nat.div_add_mod a b
  have hml := Nat.mod_lt a hb
  have hcast : (a : ℚ) = b * (a / b : ℕ) + (a % b : ℕ) := by exact_mod_cast hda.symm
  have hdiv : (a : ℚ) / b = (a / b : ℕ) + ((a % b : ℕ) : ℚ) / b := by
    conv_lhs => rw [hcast]
    field_simp
  have hr1 : ((a % b : ℕ) : ℚ) / b < 1 := by
    rw [div_lt_one hp]; exact_mod_cast hml
  by_cases h0 : a % b = 0
  · rw [if_pos h0, Nat.or_zero, hdiv, h0]
    simpa using Sticky.self (a / b)
  · have hr0 : (0 : ℚ) < ((a % b : ℕ) : ℚ) / b := div_pos (by exact_mod_cast Nat.pos_of_ne_zero h0) hp
    rw [if_neg h0, or_one_eq, hdiv]
    generalize a / b = q at *
    have hlo : ((2 * (q / 2) : ℕ) : ℚ) ≤ q := by exact_mod_cast (by omega : 2 * (q / 2) ≤ q)
    have hhi : (q : ℚ) ≤ (2 * (q / 2) + 1 : ℕ) := by exact_mod_cast (by omega : q ≤ 2 * (q / 2) + 1)
    right
    push_cast at hlo hhi ⊢
    exact ⟨by omega, by linarith, by linarith⟩

/-- `shiftJam a d` is the sticky integer of `a / 2 ^ d`. -/
theorem sticky_shiftJam (a d : ℕ) : Sticky (shiftJam a d) ((a : ℚ) / 2 ^ d) := by
  have h := sticky_div a (Nat.two_pow_pos d)
  push_cast at h
  exact h

/-- Shifting a sticky integer shifts the number it stands for. -/
theorem Sticky.shiftJam {j : ℕ} {y : ℚ} (h : Sticky j y) (d : ℕ) : Sticky (shiftJam j d) (y / 2 ^ d) := by
  rcases Nat.eq_zero_or_pos d with rfl | hd
  · simpa [shiftJam_zero] using h
  have hp : (0 : ℚ) < 2 ^ d := by positivity
  have hpe : 2 ^ d % 2 = 0 := by
    obtain ⟨k, rfl⟩ := Nat.exists_eq_succ_of_ne_zero hd.ne'
    rw [pow_succ]; omega
  have hs := sticky_shiftJam j d
  generalize Lish.Ieee.shiftJam j d = k at hs ⊢
  have hmul (e : ℕ) : e * 2 ^ d % 2 = 0 := by rw [Nat.mul_mod, hpe]; simp
  rcases hs with ⟨hk, he⟩ | ⟨hk, hl, hu⟩
  · have hj : j = k * 2 ^ d := by
      rw [div_eq_iff hp.ne'] at he
      exact_mod_cast he
    rcases h with ⟨-, rfl⟩ | ⟨ho, -, -⟩
    · exact Or.inl ⟨hk, he⟩
    · rw [hj, hmul] at ho; omega
  · right
    rw [lt_div_iff₀ hp] at hl ⊢
    rw [div_lt_iff₀ hp] at hu ⊢
    have hk1 : ((k - 1 : ℕ) : ℚ) = k - 1 := by push_cast [Nat.cast_sub (by omega : 1 ≤ k)]; rfl
    refine ⟨hk, ?_, ?_⟩
    · have h1 : (k - 1) * 2 ^ d < j := by
        have : (((k - 1) * 2 ^ d : ℕ) : ℚ) < j := by push_cast; rw [hk1]; exact hl
        exact_mod_cast this
      have h2 := (h.even_lt_iff (hmul (k - 1))).1 h1
      push_cast at h2; rw [hk1] at h2; exact h2
    · have h1 : j < (k + 1) * 2 ^ d := by
        have : (j : ℚ) < (((k + 1) * 2 ^ d : ℕ) : ℚ) := by push_cast; exact hu
        exact_mod_cast this
      have h2 := (h.lt_even_iff (hmul (k + 1))).1 h1
      push_cast at h2; exact h2

theorem shiftJam_shiftJam (a d e : ℕ) : shiftJam (shiftJam a d) e = shiftJam a (d + e) := by
  refine ((sticky_shiftJam a d).shiftJam e).unique ?_
  rw [div_div, ← pow_add]
  exact sticky_shiftJam a (d + e)

/-- An even integer added to a sticky integer. -/
theorem Sticky.add_even {j n : ℕ} {y : ℚ} (h : Sticky j y) (hn : n % 2 = 0) : Sticky (n + j) (n + y) := by
  rcases h with ⟨hj, rfl⟩ | ⟨hj, hl, hu⟩
  · exact Or.inl ⟨by omega, by push_cast; rfl⟩
  · exact Or.inr ⟨by omega, by push_cast; linarith, by push_cast; linarith⟩

/-- A sticky integer taken from an even integer. -/
theorem Sticky.even_sub {j n : ℕ} {y : ℚ} (h : Sticky j y) (hn : n % 2 = 0) (hle : j ≤ n) :
    Sticky (n - j) (n - y) := by
  rcases h with ⟨hj, rfl⟩ | ⟨hj, hl, hu⟩
  · exact Or.inl ⟨by omega, by push_cast [Nat.cast_sub hle]; rfl⟩
  · exact Or.inr ⟨by omega, by push_cast [Nat.cast_sub hle]; linarith, by push_cast [Nat.cast_sub hle]; linarith⟩

/-- `m` and `y` have the same sticky integer once `k` low bits are shifted out. -/
def StickyAt (k m : ℕ) (y : ℚ) : Prop := Sticky (shiftJam m k) (y / 2 ^ k)

theorem Sticky.at {m : ℕ} {y : ℚ} (h : Sticky m y) (k : ℕ) : StickyAt k m y := h.shiftJam k

theorem StickyAt.mono {k l m : ℕ} {y : ℚ} (h : StickyAt k m y) (hkl : k ≤ l) : StickyAt l m y := by
  obtain ⟨d, rfl⟩ := Nat.exists_eq_add_of_le hkl
  have := Sticky.shiftJam h d
  rwa [shiftJam_shiftJam, div_div, ← pow_add] at this

theorem shiftJam_mul_two_pow (m s k : ℕ) : shiftJam (m * 2 ^ s) (k + s) = shiftJam m k := by
  unfold shiftJam
  rw [pow_add, Nat.mul_div_mul_right _ _ (Nat.two_pow_pos s), Nat.mul_mod_mul_right]
  by_cases h : m % 2 ^ k = 0
  · simp [h]
  · rw [if_neg h, if_neg (Nat.mul_ne_zero h (Nat.two_pow_pos s).ne')]

/-- Scaling both sides up keeps the relation, `s` bits higher. -/
theorem StickyAt.scale {k m : ℕ} {y : ℚ} (h : StickyAt k m y) (s : ℕ) : StickyAt (k + s) (m * 2 ^ s) (y * 2 ^ s) := by
  unfold StickyAt at *
  rw [shiftJam_mul_two_pow, pow_add, mul_div_mul_right _ _ (by positivity)]
  exact h

/-- Shifting `d ≤ k` bits out, with the lost bits kept, keeps the relation. -/
theorem StickyAt.shiftJam {k m : ℕ} {y : ℚ} (h : StickyAt k m y) {d : ℕ} (hd : d ≤ k) :
    StickyAt (k - d) (shiftJam m d) (y / 2 ^ d) := by
  unfold StickyAt at *
  rw [shiftJam_shiftJam, div_div, ← pow_add, Nat.add_sub_cancel' hd]
  exact h

/-- More bits shifted out than were known to be sticky: the bits above decide. -/
theorem StickyAt.shiftJam_ge {k m : ℕ} {y : ℚ} (h : StickyAt k m y) {d : ℕ} (hd : k ≤ d) :
    Sticky (Lish.Ieee.shiftJam m d) (y / 2 ^ d) := h.mono hd

/-- A jammed shift passes through an aligned sum. -/
theorem shiftJam_add (m k : ℕ) {n : ℕ} (hn : n % 2 = 0) : shiftJam (n * 2 ^ k + m) k = n + shiftJam m k := by
  refine (sticky_shiftJam _ k).unique ?_
  have hp : (2 : ℚ) ^ k ≠ 0 := by positivity
  have h := (sticky_shiftJam m k).add_even hn
  push_cast
  rwa [add_div, mul_div_cancel_right₀ _ hp]

theorem StickyAt.add {k m n : ℕ} {y : ℚ} (h : StickyAt k m y) (hn : n % 2 = 0) :
    StickyAt k (n * 2 ^ k + m) ((n * 2 ^ k : ℕ) + y) := by
  have hp : (2 : ℚ) ^ k ≠ 0 := by positivity
  unfold StickyAt at *
  rw [shiftJam_add m k hn]
  push_cast
  rw [add_div, mul_div_cancel_right₀ _ hp]
  exact h.add_even hn

theorem StickyAt.sub {k m n : ℕ} {y : ℚ} (h : StickyAt k m y) (hn : n % 2 = 0) (hm : m ≤ n * 2 ^ k) :
    StickyAt k (n * 2 ^ k - m) ((n * 2 ^ k : ℕ) - y) := by
  have hp : (0 : ℚ) < 2 ^ k := by positivity
  have hle : Lish.Ieee.shiftJam m k ≤ n := by
    rw [(sticky_shiftJam m k).le_even_iff hn, div_le_iff₀ hp]
    exact_mod_cast hm
  have hj : Lish.Ieee.shiftJam (n * 2 ^ k - m) k = n - Lish.Ieee.shiftJam m k := by
    refine (sticky_shiftJam _ k).unique ?_
    have h := (sticky_shiftJam m k).even_sub hn hle
    push_cast [Nat.cast_sub hm]
    rwa [sub_div, mul_div_cancel_right₀ _ hp.ne']
  unfold StickyAt at *
  rw [hj]
  push_cast
  rw [sub_div, mul_div_cancel_right₀ _ hp.ne']
  exact h.even_sub hn hle

end Lish.Ieee
