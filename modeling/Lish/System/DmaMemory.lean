import Mathlib.Data.List.GetD
import Lish.Core.RamWord
import Lish.System.Virtio
/-!
# DmaMemory — what devices write is what they read

A write through `guestWrite` changes the bytes of its range and no other, keeps the extent of RAM, and a value written is
read back.
-/
namespace Lish

namespace FlatMemory

theorem offset_congr {r r' : FlatMemory} (hb : r'.base = r.base) (hl : r'.len = r.len) (addr : U64) (n : ℕ) :
    r'.offset addr n = r.offset addr n := by
  unfold offset
  rw [hb, hl]

theorem offset_some {r : FlatMemory} {addr : U64} {n off : ℕ} (h : r.offset addr n = some off) :
    r.base ≤ addr ∧ off = (addr - r.base).toNat ∧ off + n ≤ r.len := by
  unfold offset at h
  dsimp only at h
  split_ifs at h with h1 h2
  obtain rfl := Option.some.inj h
  exact ⟨BitVec.not_lt.1 h1, rfl, h2.2⟩

theorem readBytes_congr {r r' : FlatMemory} {off n : ℕ} (h : ∀ i < n, r'.mem (off + i) = r.mem (off + i)) :
    r'.readBytes off n = r.readBytes off n := by
  induction n with
  | zero => rfl
  | succ n ih => rw [readBytes, readBytes, ih fun i hi => h i (by omega), h n (by omega)]

theorem readBytes_bit (r : FlatMemory) (off n : ℕ) {j : ℕ} (hj : j < 64) :
    (r.readBytes off n).getLsbD j = (decide (j < 8 * n) && (r.mem (off + j / 8)).getLsbD (j % 8)) := by
  induction n with
  | zero => simp [readBytes]
  | succ n ih =>
    rw [readBytes, BitVec.getLsbD_or, ih, BitVec.getLsbD_shiftLeft, BitVec.getLsbD_setWidth]
    rcases Nat.lt_trichotomy (j / 8) n with h | h | h
    · simp [show j < 8 * n by omega, show j < 8 * (n + 1) by omega]
    · subst h
      simp [show ¬ j < 8 * (j / 8) by omega, show j < 8 * (j / 8 + 1) by omega, show j - 8 * (j / 8) = j % 8 by omega, hj]
      intro; omega
    · have hge : 8 ≤ j - 8 * n := by omega
      simp [show ¬ j < 8 * n by omega, show ¬ j < 8 * (n + 1) by omega, BitVec.getLsbD_of_ge _ _ hge]

/-- The bytes of a value are the value. -/
theorem readBytes_byteOf {r : FlatMemory} {off n : ℕ} {v : U64} (h : ∀ i < n, r.mem (off + i) = byteOf v i) {j : ℕ} (hj : j < 64) :
    (r.readBytes off n).getLsbD j = (decide (j < 8 * n) && v.getLsbD j) := by
  rw [readBytes_bit r off n hj]
  by_cases hn : j < 8 * n
  · rw [h (j / 8) (by omega), byteOf_bit _ _ (by omega), show 8 * (j / 8) + j % 8 = j by omega]
  · simp [hn]

end FlatMemory

theorem byteOf_zero (i : ℕ) : byteOf 0 i = 0 := by
  rw [byteOf, show (0 : U64) = 0#64 from rfl, BitVec.zero_ushiftRight]
  rfl

namespace Dma

variable {d : Dma} {addr addr' : U64} {bytes : List U8} {n : ℕ}

/-- The extent of RAM is the same. -/
def SameRam (d d' : Dma) : Prop := d'.ram.base = d.ram.base ∧ d'.ram.len = d.ram.len

theorem SameRam.refl (d : Dma) : SameRam d d := ⟨rfl, rfl⟩

theorem SameRam.trans {d d' d'' : Dma} (h : SameRam d d') (h' : SameRam d' d'') : SameRam d d'' :=
  ⟨h'.1.trans h.1, h'.2.trans h.2⟩

theorem SameRam.offset {d d' : Dma} (h : SameRam d d') (addr : U64) (n : ℕ) : d'.ram.offset addr n = d.ram.offset addr n :=
  FlatMemory.offset_congr h.1 h.2 addr n

theorem guestWrite_sameRam (d : Dma) (addr : U64) (bytes : List U8) : SameRam d (d.guestWrite addr bytes).2 := by
  unfold guestWrite
  cases d.ram.offset addr bytes.length <;> exact ⟨rfl, rfl⟩

/-- A relation that every write of a device respects. -/
structure DmaRel (R : Dma → Dma → Prop) : Prop where
  refl : ∀ d, R d d
  trans : ∀ d d' d'', R d d' → R d' d'' → R d d''
  write : ∀ d addr bytes, R d (guestWrite d addr bytes).2
  ticket : ∀ d : Dma, R d { d with nextBlockRequestId := d.nextBlockRequestId + 1 }

theorem dmaRel_sameRam : DmaRel SameRam := ⟨.refl, fun _ _ _ => .trans, guestWrite_sameRam, fun _ => ⟨rfl, rfl⟩⟩

theorem guestWrite_id (d : Dma) (addr : U64) (bytes : List U8) :
    (d.guestWrite addr bytes).2.nextBlockRequestId = d.nextBlockRequestId := by
  unfold guestWrite
  cases d.ram.offset addr bytes.length <;> rfl

theorem guestWrite_fst (d : Dma) (addr : U64) (bytes : List U8) :
    (d.guestWrite addr bytes).1 = (d.ram.offset addr bytes.length).isSome := by
  unfold guestWrite
  cases d.ram.offset addr bytes.length <;> rfl

theorem guestWrite_mem {off : ℕ} (h : d.ram.offset addr bytes.length = some off) (i : ℕ) :
    (d.guestWrite addr bytes).2.ram.mem i =
      if off ≤ i ∧ i < off + bytes.length then bytes.getD (i - off) 0 else d.ram.mem i := by
  unfold guestWrite
  rw [h]

/-- The bytes of RAM a range names, by their index; none of them if it is not in RAM. -/
def Covers (d : Dma) (addr : U64) (n i : ℕ) : Prop := ∃ off, d.ram.offset addr n = some off ∧ off ≤ i ∧ i < off + n

/-- **A write** changes no byte outside its range. -/
theorem guestWrite_frame (i : ℕ) (h : ¬ d.Covers addr bytes.length i) : (d.guestWrite addr bytes).2.ram.mem i = d.ram.mem i := by
  cases ho : d.ram.offset addr bytes.length with
  | none =>
    unfold guestWrite
    rw [ho]
  | some off =>
    rw [guestWrite_mem ho, if_neg]
    exact fun hi => h ⟨off, ho, hi⟩

theorem read_congr {d d' : Dma} (h : SameRam d d') (hm : ∀ i, d.Covers addr n i → d'.ram.mem i = d.ram.mem i) :
    d'.read addr n = d.read addr n := by
  unfold read
  rw [h.offset]
  cases ho : d.ram.offset addr n with
  | none => rfl
  | some off =>
    rw [Option.map_some, Option.map_some, FlatMemory.readBytes_congr fun i hi => hm (off + i) ⟨off, ho, by omega, by omega⟩]

theorem leBytes_length (v : U64) (n : ℕ) : (leBytes v n).length = n := by
  unfold leBytes
  rw [List.length_map, List.length_range]

theorem leBytes_getD (v : U64) {n i : ℕ} (hi : i < n) : (leBytes v n).getD i 0 = byteOf v i := by
  unfold leBytes
  rw [List.getD_eq_getElem _ _ (by simpa using hi), List.getElem_map, List.getElem_range]

/-- **A value written** is read back. -/
theorem read_write {off : ℕ} (v : U64) (h : d.ram.offset addr n = some off) {j : ℕ} (hj : j < 64) :
    ∃ w, (d.guestWrite addr (leBytes v n)).2.read addr n = some w ∧ w.getLsbD j = (decide (j < 8 * n) && v.getLsbD j) := by
  have hl : d.ram.offset addr (leBytes v n).length = some off := by rw [leBytes_length, h]
  refine ⟨(d.guestWrite addr (leBytes v n)).2.ram.readBytes off n, ?_, ?_⟩
  · unfold read
    rw [(guestWrite_sameRam d addr _).offset, h, Option.map_some]
  · apply FlatMemory.readBytes_byteOf _ hj
    intro i hi
    rw [guestWrite_mem hl, leBytes_length, if_pos ⟨by omega, by omega⟩, show off + i - off = i by omega, leBytes_getD v hi]

/-- A value of the width of its range is read back whole. -/
theorem read_write_setWidth {off w : ℕ} (h : d.ram.offset addr n = some off) (hn : w = 8 * n) (hw : w ≤ 64) (v : BitVec w) :
    ((d.guestWrite addr (leBytes (v.setWidth 64) n)).2.read addr n).map (·.setWidth w) = some v := by
  obtain ⟨x, hx, -⟩ := read_write (v.setWidth 64) h (j := 0) (by decide)
  rw [hx, Option.map_some, Option.some.injEq]
  apply BitVec.eq_of_getLsbD_eq
  intro j hj
  obtain ⟨y, hy, hb⟩ := read_write (v.setWidth 64) h (j := j) (by omega)
  obtain rfl : x = y := Option.some.inj (hx.symm.trans hy)
  rw [BitVec.getLsbD_setWidth, hb, BitVec.getLsbD_setWidth]
  simp [hj, show j < 64 by omega, show j < 8 * n by omega]

theorem read16_write16 (v : U16) (h : (d.ram.offset addr 2).isSome) : (d.write16 addr v).read16 addr = some v := by
  obtain ⟨off, ho⟩ := Option.isSome_iff_exists.1 h
  exact read_write_setWidth ho rfl (by decide) v

theorem read32_write32 (v : U32) (h : (d.ram.offset addr 4).isSome) : (d.write32 addr v).read32 addr = some v := by
  obtain ⟨off, ho⟩ := Option.isSome_iff_exists.1 h
  exact read_write_setWidth ho rfl (by decide) v

theorem read_zero {off : ℕ} (ho : d.ram.offset addr n = some off)
    (hz : ∀ i < n, d.ram.mem (off + i) = 0) : d.read addr n = some 0 := by
  have hb : ∀ i < n, d.ram.mem (off + i) = byteOf 0 i := fun i hi => (hz i hi).trans (byteOf_zero i).symm
  unfold read
  rw [ho, Option.map_some, Option.some.injEq]
  apply BitVec.eq_of_getLsbD_eq
  intro j hj
  rw [FlatMemory.readBytes_byteOf hb hj, show (0 : U64) = 0#64 from rfl, BitVec.getLsbD_zero, Bool.and_false]

theorem write_zero {i : ℕ} (h : d.ram.mem i = 0) : (d.write32 addr 0).ram.mem i = 0 := by
  unfold write32 guestWrite
  cases d.ram.offset addr (leBytes ((0 : U32).setWidth 64) 4).length with
  | none => exact h
  | some off =>
    dsimp only
    split_ifs with hin
    · rw [leBytes_length] at hin
      rw [leBytes_getD _ (by omega)]
      exact byteOf_zero _
    · exact h

theorem read16_congr {d d' : Dma} (h : SameRam d d') (hm : ∀ i, d.Covers addr 2 i → d'.ram.mem i = d.ram.mem i) :
    d'.read16 addr = d.read16 addr := by
  unfold read16
  rw [read_congr h hm]

theorem read32_congr {d d' : Dma} (h : SameRam d d') (hm : ∀ i, d.Covers addr 4 i → d'.ram.mem i = d.ram.mem i) :
    d'.read32 addr = d.read32 addr := by
  unfold read32
  rw [read_congr h hm]

theorem read16_isSome (d : Dma) (addr : U64) : (d.read16 addr).isSome = (d.ram.offset addr 2).isSome := by
  unfold read16 read
  rw [Option.isSome_map, Option.isSome_map]

theorem write16_sameRam (d : Dma) (addr : U64) (v : U16) : SameRam d (d.write16 addr v) := guestWrite_sameRam d addr _

theorem write32_sameRam (d : Dma) (addr : U64) (v : U32) : SameRam d (d.write32 addr v) := guestWrite_sameRam d addr _

/-! ## Ranges of addresses -/

/-- The address of a byte of RAM lies in a range. -/
def Within (d : Dma) (range : U64 × ℕ) (i : ℕ) : Prop :=
  range.1.toNat ≤ d.ram.base.toNat + i ∧ d.ram.base.toNat + i < range.1.toNat + range.2

theorem SameRam.within {d d' : Dma} (h : SameRam d d') (range : U64 × ℕ) (i : ℕ) : d'.Within range i ↔ d.Within range i := by
  unfold Within
  rw [h.1]

theorem Covers.within {i : ℕ} (h : d.Covers addr n i) : d.Within (addr, n) i := by
  obtain ⟨off, ho, h1, h2⟩ := h
  obtain ⟨hle, rfl, -⟩ := FlatMemory.offset_some ho
  rw [BitVec.toNat_sub_of_le hle] at h1 h2
  have := BitVec.le_def.1 hle
  exact ⟨by dsimp only; omega, by dsimp only; omega⟩

theorem guestWrite_outside (i : ℕ) (hn : bytes.length ≤ n) (h : ¬ d.Within (addr, n) i) :
    (d.guestWrite addr bytes).2.ram.mem i = d.ram.mem i :=
  guestWrite_frame i fun hc => h ⟨hc.within.1, by have := hc.within.2; dsimp only at this ⊢; omega⟩

theorem write16_outside (v : U16) (i : ℕ) (h : ¬ d.Within (addr, 2) i) : (d.write16 addr v).ram.mem i = d.ram.mem i :=
  guestWrite_outside i (leBytes_length _ _).le h

theorem write32_outside (v : U32) (i : ℕ) (h : ¬ d.Within (addr, 4) i) : (d.write32 addr v).ram.mem i = d.ram.mem i :=
  guestWrite_outside i (leBytes_length _ _).le h

end Dma
end Lish
