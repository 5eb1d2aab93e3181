import Lish.Core.PageTable
/-!
# RamWord — page-table entries in RAM

The aligned 64-bit words of a RAM are its page tables.  Storing one word changes no other.
-/
namespace Lish

/-! ## Little-endian values -/

theorem leValue_bit (byte : U64 → U8) (addr : U64) (n : ℕ) {j : ℕ} (hj : j < 64) :
    (leValue byte addr n).getLsbD j =
      (decide (j < 8 * n) && (byte (addr + BitVec.ofNat 64 (j / 8))).getLsbD (j % 8)) := by
  induction n with
  | zero => simp [leValue]
  | succ n ih =>
    rw [leValue, BitVec.getLsbD_or, ih, BitVec.getLsbD_shiftLeft, BitVec.getLsbD_setWidth]
    rcases Nat.lt_trichotomy (j / 8) n with h | h | h
    · simp [show j < 8 * n by omega, show j < 8 * (n + 1) by omega]
    · subst h
      simp [show ¬ j < 8 * (j / 8) by omega, show j < 8 * (j / 8 + 1) by omega, show j - 8 * (j / 8) = j % 8 by omega, hj]
      intro; omega
    · have hge : 8 ≤ j - 8 * n := by omega
      simp [show ¬ j < 8 * n by omega, show ¬ j < 8 * (n + 1) by omega, BitVec.getLsbD_of_ge _ _ hge]

theorem leValue_congr {byte byte' : U64 → U8} {addr : U64} {n : ℕ}
    (h : ∀ i < n, byte (addr + BitVec.ofNat 64 i) = byte' (addr + BitVec.ofNat 64 i)) :
    leValue byte addr n = leValue byte' addr n := by
  induction n with
  | zero => rfl
  | succ n ih => rw [leValue, leValue, ih fun i hi => h i (by omega), h n (by omega)]

theorem byteOf_bit (val : U64) (i : ℕ) {k : ℕ} (hk : k < 8) : (byteOf val i).getLsbD k = val.getLsbD (8 * i + k) := by
  unfold byteOf
  rw [BitVec.getLsbD_setWidth, BitVec.getLsbD_ushiftRight]
  simp [hk]

/-- The bytes of a word are the word. -/
theorem leValue_byteOf {byte : U64 → U8} {addr val : U64}
    (h : ∀ i < 8, byte (addr + BitVec.ofNat 64 i) = byteOf val i) : leValue byte addr 8 = val := by
  apply BitVec.eq_of_getLsbD_eq
  intro j hj
  rw [leValue_bit _ _ _ hj, h _ (by omega), byteOf_bit _ _ (by omega), show 8 * (j / 8) + j % 8 = j by omega]
  simp [show j < 8 * 8 by omega]

/-! ## Words -/

/-- The page tables a RAM holds. -/
def ramWord (ram : U64 → Option U8) : Tables := fun a =>
  if InRam ram a 8 then some (leValue (fun x => (ram x).getD 0) a 8) else none

def Aligned (a : U64) : Prop := a.toNat % 8 = 0

theorem inRam_of_word {ram : U64 → Option U8} {a v : U64} (h : ramWord ram a = some v) : InRam ram a 8 := by
  unfold ramWord at h
  split_ifs at h with hin
  exact hin

section store

variable {ram : U64 → Option U8} {p v a : U64}

theorem offset_self (a : U64) {i : ℕ} (hi : i < 8) : (a + BitVec.ofNat 64 i - a).toNat = i := by
  rw [show a + BitVec.ofNat 64 i - a = BitVec.ofNat 64 i by abel, BitVec.toNat_ofNat]
  omega

theorem offset_ne (ha : Aligned a) (hp : Aligned p) (hne : a ≠ p) {i : ℕ} (hi : i < 8) :
    ¬ (a + BitVec.ofNat 64 i - p).toNat < 8 := by
  have hne' : a.toNat ≠ p.toNat := fun h => hne (BitVec.eq_of_toNat_eq h)
  have h1 := a.isLt
  have h2 := p.isLt
  unfold Aligned at ha hp
  rw [BitVec.toNat_sub, BitVec.toNat_add, BitVec.toNat_ofNat]
  omega

/-- A store into RAM adds and removes none. -/
theorem storeBytes_isSome (hp : InRam ram p 8) (x : U64) : (storeBytes ram p v 8 x).isSome = (ram x).isSome := by
  unfold storeBytes
  split_ifs with h
  · have hx : x = p + BitVec.ofNat 64 (x - p).toNat := by
      rw [BitVec.ofNat_toNat, BitVec.setWidth_eq]
      abel
    have hs := hp.2 _ h
    rw [← hx] at hs
    rw [hs]
    rfl
  · rfl

theorem inRam_store (hp : InRam ram p 8) : InRam (storeBytes ram p v 8) a 8 ↔ InRam ram a 8 := by
  unfold InRam
  simp only [storeBytes_isSome hp]

/-- **Storing a word** changes that word only. -/
theorem ramWord_store (ha : Aligned a) (hal : Aligned p) (hp : InRam ram p 8) :
    ramWord (storeBytes ram p v 8) a = if a = p then some v else ramWord ram a := by
  unfold ramWord
  by_cases hap : a = p
  · subst hap
    rw [if_pos rfl, if_pos ((inRam_store hp).2 hp), Option.some.injEq]
    apply leValue_byteOf
    intro i hi
    unfold storeBytes
    rw [offset_self a hi, if_pos hi]
    rfl
  · rw [if_neg hap]
    have heq : leValue (fun x => (storeBytes ram p v 8 x).getD 0) a 8 = leValue (fun x => (ram x).getD 0) a 8 := by
      apply leValue_congr
      intro i hi
      unfold storeBytes
      rw [if_neg (offset_ne ha hal hap hi)]
    simp only [inRam_store hp, heq]

end store

/-! ## Entries are aligned -/

theorem aligned_pteAddrAt {table : U64} (ht : table.toNat % 4096 = 0) (va : U64) (level : ℕ) :
    Aligned (Machine.pteAddrAt table va level) := by
  unfold Aligned Machine.pteAddrAt
  rw [BitVec.toNat_add, BitVec.toNat_mul, show (8 : U64).toNat = 8 from rfl]
  omega

theorem table_aligned (x : U64) : (x <<< 12).toNat % 4096 = 0 := by
  rw [BitVec.toNat_shiftLeft, Nat.shiftLeft_eq]
  omega

theorem aligned_pathAt (word : Tables) (va : U64) (level : ℕ) {table : U64} (ht : table.toNat % 4096 = 0) :
    ∀ a ∈ Tables.pathAt word va level table, Aligned a := by
  induction level generalizing table with
  | zero =>
    intro a ha
    rw [Tables.pathAt] at ha
    rcases List.mem_cons.1 ha with rfl | ha
    · exact aligned_pteAddrAt ht va 0
    · cases hw : word (Machine.pteAddrAt table va 0) with
      | none => rw [hw] at ha; cases ha
      | some pte =>
        rw [hw] at ha
        dsimp only at ha
        cases he : Machine.entryOf pte <;> rw [he] at ha <;> cases ha
  | succ level ih =>
    intro a ha
    rw [Tables.pathAt] at ha
    rcases List.mem_cons.1 ha with rfl | ha
    · exact aligned_pteAddrAt ht va _
    · cases hw : word (Machine.pteAddrAt table va (level + 1)) with
      | none => rw [hw] at ha; cases ha
      | some pte =>
        rw [hw] at ha
        dsimp only at ha
        cases he : Machine.entryOf pte with
        | bad => rw [he] at ha; cases ha
        | leaf => rw [he] at ha; cases ha
        | table next =>
          rw [he] at ha
          have hn : next.toNat % 4096 = 0 := by
            unfold Machine.entryOf at he
            split_ifs at he
            cases he
            exact table_aligned _
          exact ih hn a ha

theorem aligned_path (word : Tables) (satp ctx : U64) (access : Access) (va : U64) :
    ∀ a ∈ Tables.path word satp ctx access va, Aligned a := by
  intro a ha
  unfold Tables.path at ha
  split_ifs at ha
  · cases ha
  · cases hl : Tables.levelsOf satp with
    | none => rw [hl] at ha; cases ha
    | some levels =>
      rw [hl] at ha
      dsimp only at ha
      split_ifs at ha
      · cases ha
      · exact aligned_pathAt word va _ (table_aligned _) a ha

end Lish
