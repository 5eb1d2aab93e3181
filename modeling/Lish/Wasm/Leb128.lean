import Mathlib.Data.List.Basic
import Mathlib.Tactic.Ring
import Mathlib.Tactic.Linarith
/-!
# Leb128 — variable-length integers of the Wasm binary format

Groups of seven bits, the lowest first, with the high bit of a byte set when another byte follows.  The decoders are
the grammars of the format for the integers of `N` bits; the encoders write the fewest groups.
-/
namespace Lish
namespace Leb128

/-! ## The grammars -/

/-- The unsigned integer of at most `N` bits at the start of the bytes, with what follows it. -/
def decodeU (N : ℕ) : List (BitVec 8) → Option (ℕ × List (BitVec 8))
  | [] => none
  | n :: rest =>
    if n.toNat < 2 ^ 7 then
      if n.toNat < 2 ^ N then some (n.toNat, rest) else none
    else if 7 < N then
      (decodeU (N - 7) rest).map fun m => (2 ^ 7 * m.1 + (n.toNat - 2 ^ 7), m.2)
    else none

/-- The signed integer of at most `N` bits at the start of the bytes, with what follows it. -/
def decodeS (N : ℕ) : List (BitVec 8) → Option (ℤ × List (BitVec 8))
  | [] => none
  | n :: rest =>
    if n.toNat < 2 ^ 6 then
      if n.toNat < 2 ^ (N - 1) then some ((n.toNat : ℤ), rest) else none
    else if n.toNat < 2 ^ 7 then
      if 2 ^ 7 - 2 ^ (N - 1) ≤ n.toNat then some ((n.toNat : ℤ) - 2 ^ 7, rest) else none
    else if 7 < N then
      (decodeS (N - 7) rest).map fun m => (2 ^ 7 * m.1 + ((n.toNat : ℤ) - 2 ^ 7), m.2)
    else none

/-! ## The shortest encodings -/

def encodeU (v : ℕ) : List (BitVec 8) :=
  if v < 128 then [BitVec.ofNat 8 v] else BitVec.ofNat 8 (v % 128 + 128) :: encodeU (v / 128)
termination_by v
decreasing_by omega

def encodeS (v : ℤ) : List (BitVec 8) :=
  if -64 ≤ v ∧ v < 64 then [BitVec.ofNat 8 (v % 128).toNat]
  else BitVec.ofNat 8 ((v % 128).toNat + 128) :: encodeS (v / 128)
termination_by v.natAbs
decreasing_by omega

/-! ## Decoding an encoding -/

theorem toNat_group {n : ℕ} (h : n < 128) : (BitVec.ofNat 8 n).toNat = n := by
  rw [BitVec.toNat_ofNat]
  omega

theorem toNat_more {n : ℕ} (h : n < 128) : (BitVec.ofNat 8 (n + 128)).toNat = n + 128 := by
  rw [BitVec.toNat_ofNat]
  omega

theorem decodeU_last {N : ℕ} {b : BitVec 8} {rest : List (BitVec 8)} (h : b.toNat < 128) (hN : b.toNat < 2 ^ N) :
    decodeU N (b :: rest) = some (b.toNat, rest) := by
  rw [decodeU, if_pos (show b.toNat < 2 ^ 7 from h), if_pos hN]

theorem decodeU_more {N : ℕ} {b : BitVec 8} {rest : List (BitVec 8)} (h : 128 ≤ b.toNat) (hN : 7 < N) :
    decodeU N (b :: rest) = (decodeU (N - 7) rest).map fun m => (128 * m.1 + (b.toNat - 128), m.2) := by
  rw [decodeU, if_neg (show ¬b.toNat < 2 ^ 7 by omega), if_pos hN]
  rfl

theorem two_pow_groups {N : ℕ} (hN : 7 < N) : 2 ^ N = 2 ^ (N - 7) * 128 := by
  rw [show (128 : ℕ) = 2 ^ 7 from rfl, ← pow_add]
  congr 1
  omega

/-- **An unsigned integer that fits is read back, whatever follows it.** -/
theorem decodeU_encodeU (v N : ℕ) (rest : List (BitVec 8)) (h : v < 2 ^ N) : decodeU N (encodeU v ++ rest) = some (v, rest) := by
  induction v using Nat.strongRecOn generalizing N with
  | ind v ih =>
    rw [encodeU]
    by_cases hv : v < 128
    · have hb := toNat_group hv
      rw [if_pos hv, List.singleton_append, decodeU_last (by omega) (by omega), hb]
    · have hb := toNat_more (n := v % 128) (by omega)
      have hN : 7 < N := by
        by_contra hN
        have : 2 ^ N ≤ 2 ^ 7 := Nat.pow_le_pow_right (by omega) (by omega)
        omega
      have hd : v / 128 < 2 ^ (N - 7) := by
        rw [two_pow_groups hN] at h
        omega
      have hval : 128 * (v / 128) + (v % 128 + 128 - 128) = v := by omega
      rw [if_neg hv, List.cons_append, decodeU_more (by omega) hN, ih (v / 128) (by omega) (N - 7) hd, Option.map_some, hb, hval]

theorem decodeS_last {N : ℕ} {b : BitVec 8} {rest : List (BitVec 8)} (h : b.toNat < 64) (hN : b.toNat < 2 ^ (N - 1)) :
    decodeS N (b :: rest) = some ((b.toNat : ℤ), rest) := by
  rw [decodeS, if_pos (show b.toNat < 2 ^ 6 from h), if_pos hN]

theorem decodeS_lastNeg {N : ℕ} {b : BitVec 8} {rest : List (BitVec 8)} (h : 64 ≤ b.toNat) (h' : b.toNat < 128)
    (hN : 128 - 2 ^ (N - 1) ≤ b.toNat) : decodeS N (b :: rest) = some ((b.toNat : ℤ) - 128, rest) := by
  rw [decodeS, if_neg (show ¬b.toNat < 2 ^ 6 by omega), if_pos (show b.toNat < 2 ^ 7 from h'),
    if_pos (show 2 ^ 7 - 2 ^ (N - 1) ≤ b.toNat from hN)]
  rfl

theorem decodeS_more {N : ℕ} {b : BitVec 8} {rest : List (BitVec 8)} (h : 128 ≤ b.toNat) (hN : 7 < N) :
    decodeS N (b :: rest) = (decodeS (N - 7) rest).map fun m => (128 * m.1 + ((b.toNat : ℤ) - 128), m.2) := by
  rw [decodeS, if_neg (show ¬b.toNat < 2 ^ 6 by omega), if_neg (show ¬b.toNat < 2 ^ 7 by omega), if_pos hN]
  rfl

/-- **A signed integer that fits is read back, whatever follows it.** -/
theorem decodeS_encodeS (v : ℤ) (N : ℕ) (rest : List (BitVec 8)) (hlo : -2 ^ (N - 1) ≤ v) (hhi : v < 2 ^ (N - 1)) :
    decodeS N (encodeS v ++ rest) = some (v, rest) := by
  induction hn : v.natAbs using Nat.strongRecOn generalizing v N with
  | ind n ih =>
    have hcast : ((2 ^ (N - 1) : ℕ) : ℤ) = 2 ^ (N - 1) := by push_cast; rfl
    rw [encodeS]
    by_cases hv : -64 ≤ v ∧ v < 64
    · have hb := toNat_group (n := (v % 128).toNat) (by omega)
      rw [if_pos hv, List.singleton_append]
      by_cases hs : 0 ≤ v
      · have hval : ((v % 128).toNat : ℤ) = v := by omega
        rw [decodeS_last (by omega) (by omega), hb, hval]
      · have hval : ((v % 128).toNat : ℤ) - 128 = v := by omega
        rw [decodeS_lastNeg (by omega) (by omega) (by omega), hb, hval]
    · have hb := toNat_more (n := (v % 128).toNat) (by omega)
      have hN : 7 < N := by
        by_contra hN
        have : 2 ^ (N - 1) ≤ 2 ^ 6 := Nat.pow_le_pow_right (by omega) (by omega)
        omega
      have hp : (2 : ℤ) ^ (N - 1) = 2 ^ (N - 7 - 1) * 128 := by
        rw [show (128 : ℤ) = 2 ^ 7 from rfl, ← pow_add]
        congr 1
        omega
      have hval : 128 * (v / 128) + ((((v % 128).toNat + 128 : ℕ) : ℤ) - 128) = v := by omega
      rw [if_neg hv, List.cons_append, decodeS_more (by omega) hN,
        ih (v / 128).natAbs (by omega) (v / 128) (N - 7) (by omega) (by omega) rfl, Option.map_some, hb, hval]

/-! ## Nothing shorter -/

/-- The groups that hold a value hold its encoding. -/
theorem encodeU_length_le (k v : ℕ) (h : v < 128 ^ (k + 1)) : (encodeU v).length ≤ k + 1 := by
  induction k generalizing v with
  | zero =>
    rw [encodeU, if_pos (by omega)]
    exact Nat.le_refl 1
  | succ k ih =>
    rw [encodeU]
    split
    · exact Nat.succ_le_succ (Nat.zero_le _)
    · have hd : v / 128 < 128 ^ (k + 1) := by
        rw [pow_succ 128 (k + 1)] at h
        omega
      exact Nat.succ_le_succ (ih (v / 128) hd)

theorem encodeS_length_le (k : ℕ) (v : ℤ) (hlo : -(64 * 128 ^ k) ≤ v) (hhi : v < 64 * 128 ^ k) :
    (encodeS v).length ≤ k + 1 := by
  induction k generalizing v with
  | zero =>
    rw [encodeS, if_pos (by omega)]
    exact Nat.le_refl 1
  | succ k ih =>
    rw [encodeS]
    split
    · exact Nat.succ_le_succ (Nat.zero_le _)
    · rw [pow_succ] at hlo hhi
      exact Nat.succ_le_succ (ih (v / 128) (by omega) (by omega))

/-- The bytes that a decoder consumes bound what it reads. -/
theorem decodeU_bound {N v : ℕ} {bs rest : List (BitVec 8)} (h : decodeU N bs = some (v, rest)) :
    ∃ k, bs.length = rest.length + (k + 1) ∧ v < 128 ^ (k + 1) := by
  induction bs generalizing N v with
  | nil => cases h
  | cons b bs ih =>
    have hb : b.toNat < 256 := b.isLt
    rw [decodeU] at h
    by_cases hl : b.toNat < 2 ^ 7
    · rw [if_pos hl] at h
      split at h
      · obtain ⟨rfl, rfl⟩ := Prod.mk.inj (Option.some.inj h)
        exact ⟨0, rfl, by omega⟩
      · cases h
    · rw [if_neg hl] at h
      split at h
      · obtain ⟨⟨m, r⟩, hm, he⟩ := Option.map_eq_some_iff.1 h
        obtain ⟨rfl, rfl⟩ := Prod.mk.inj he
        obtain ⟨k, hk, hv⟩ := ih hm
        refine ⟨k + 1, by rw [List.length_cons, hk]; omega, ?_⟩
        rw [pow_succ 128 (k + 1)]
        dsimp only
        omega
      · cases h

theorem decodeS_bound {N : ℕ} {v : ℤ} {bs rest : List (BitVec 8)} (h : decodeS N bs = some (v, rest)) :
    ∃ k, bs.length = rest.length + (k + 1) ∧ -(64 * 128 ^ k) ≤ v ∧ v < 64 * 128 ^ k := by
  induction bs generalizing N v with
  | nil => cases h
  | cons b bs ih =>
    have hb : b.toNat < 256 := b.isLt
    rw [decodeS] at h
    by_cases hl : b.toNat < 2 ^ 6
    · rw [if_pos hl] at h
      split at h
      · obtain ⟨rfl, rfl⟩ := Prod.mk.inj (Option.some.inj h)
        exact ⟨0, rfl, by omega, by omega⟩
      · cases h
    · rw [if_neg hl] at h
      by_cases hl' : b.toNat < 2 ^ 7
      · rw [if_pos hl'] at h
        split at h
        · obtain ⟨rfl, rfl⟩ := Prod.mk.inj (Option.some.inj h)
          exact ⟨0, rfl, by omega, by omega⟩
        · cases h
      · rw [if_neg hl'] at h
        split at h
        · obtain ⟨⟨m, r⟩, hm, he⟩ := Option.map_eq_some_iff.1 h
          obtain ⟨rfl, rfl⟩ := Prod.mk.inj he
          obtain ⟨k, hk, hlo, hhi⟩ := ih hm
          refine ⟨k + 1, by rw [List.length_cons, hk]; omega, ?_, ?_⟩
          · rw [pow_succ]
            dsimp only at hlo ⊢
            omega
          · rw [pow_succ]
            dsimp only at hhi ⊢
            omega
        · cases h

/-- **No bytes that are read as `v` are fewer than its encoding.** -/
theorem encodeU_shortest {N v : ℕ} {bs rest : List (BitVec 8)} (h : decodeU N (bs ++ rest) = some (v, rest)) :
    (encodeU v).length ≤ bs.length := by
  obtain ⟨k, hk, hv⟩ := decodeU_bound h
  rw [List.length_append] at hk
  have := encodeU_length_le k v hv
  omega

theorem encodeS_shortest {N : ℕ} {v : ℤ} {bs rest : List (BitVec 8)} (h : decodeS N (bs ++ rest) = some (v, rest)) :
    (encodeS v).length ≤ bs.length := by
  obtain ⟨k, hk, hlo, hhi⟩ := decodeS_bound h
  rw [List.length_append] at hk
  have := encodeS_length_le k v hlo hhi
  omega

end Leb128
end Lish
