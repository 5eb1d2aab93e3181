import Lish.Core.Compressed
/-!
# Bus — memory and device accesses of the hart

A bus answers physical accesses of four widths.  Where it has RAM, an access is a little-endian one of the bytes and
touches nothing else (`RamBus`); a bus made of RAM refuses every other access (`PureRam`).
-/
namespace Lish

/-- Access width in bytes: 1, 2, 4 or 8. -/
inductive Width
  | w1 | w2 | w4 | w8
  deriving DecidableEq, Repr

def Width.bytes : Width → ℕ
  | w1 => 1
  | w2 => 2
  | w4 => 4
  | w8 => 8

/-- The access interface the hart executes against.  `read w` and `write w` are `read8` to `write64`; values are
zero-extended and truncated to the width. -/
class Bus (β : Type) where
  read : Width → β → U64 → Except Exception U64 × β
  write : Width → β → U64 → U64 → Except Exception Unit × β
  /-- For a directly accessible page, the offset with `linear_index = va + off`. -/
  jitFastOff : β → U64 → U64 → Bool → Option U64 := fun _ _ _ _ => none
  /-- Halfword instruction fetch. -/
  fetch16 : β → U64 → Except Exception U16 × β := fun bus addr =>
    match read .w2 bus addr with
    | (.ok v, bus) => (.ok (v.setWidth 16), bus)
    | (.error _, bus) => (.error (.instructionAccessFault addr), bus)
  /-- A whole instruction word, when four bytes can be read without a fault or a device access. -/
  fetch32IfSafe : β → U64 → Option U32 × β := fun bus _ => (none, bus)
  /-- Hardware interrupt lines, level-triggered. -/
  irqLines : β → U64 × β := fun bus => (0, bus)

/-! ## Little-endian bytes -/

/-- The value of the `n` bytes from `addr`. -/
def leValue (byte : U64 → U8) (addr : U64) : ℕ → U64
  | 0 => 0
  | n + 1 => leValue byte addr n ||| ((byte (addr + BitVec.ofNat 64 n)).setWidth 64 <<< (8 * n))

/-- Byte `i` of a value. -/
def byteOf (val : U64) (i : ℕ) : U8 := (val >>> (8 * i)).setWidth 8

/-- The memory with the low `n` bytes of `val` stored from `addr`. -/
def storeBytes (byte : U64 → Option U8) (addr val : U64) (n : ℕ) : U64 → Option U8 := fun a =>
  if (a - addr).toNat < n then some (byteOf val (a - addr).toNat) else byte a

/-- All `n` bytes from `addr` are RAM, and the range does not wrap. -/
def InRam (byte : U64 → Option U8) (addr : U64) (n : ℕ) : Prop :=
  addr.toNat + n ≤ 2 ^ 64 ∧ ∀ i < n, (byte (addr + BitVec.ofNat 64 i)).isSome

instance (byte : U64 → Option U8) (addr : U64) (n : ℕ) : Decidable (InRam byte addr n) := inferInstanceAs (Decidable (_ ∧ _))

/-- A bus with RAM among its devices: in RAM, accesses are plain little-endian ones. -/
class RamBus (β : Type) extends Bus β where
  /-- The RAM bytes; `none` where there is none. -/
  ram : β → U64 → Option U8
  read_ram : ∀ w bus addr, InRam (ram bus) addr w.bytes →
    read w bus addr = (.ok (leValue (fun a => (ram bus a).getD 0) addr w.bytes), bus)
  write_ram : ∀ w bus addr val, InRam (ram bus) addr w.bytes →
    ∃ bus', write w bus addr val = (.ok (), bus') ∧ ram bus' = storeBytes (ram bus) addr val w.bytes

/-- A bus made of RAM: every other data access is refused and changes nothing. -/
class PureRam (β : Type) extends RamBus β where
  read_refused : ∀ w bus addr, ¬ InRam (ram bus) addr w.bytes → ∃ e, read w bus addr = (.error e, bus)
  write_refused : ∀ w bus addr val, ¬ InRam (ram bus) addr w.bytes → ∃ e, write w bus addr val = (.error e, bus)

/-- A bus that names the address of an access it refuses. -/
class RefusingBus (β : Type) [Bus β] : Prop where
  read_error : ∀ w (b : β) addr e, (Bus.read w b addr).1 = .error e → e = .loadAccessFault addr
  write_error : ∀ w (b : β) addr val e, (Bus.write w b addr val).1 = .error e → e = .storeAccessFault addr

/-! ## Flat memory -/

/-- Flat guest memory of `len` bytes starting at `base`, for architecture tests. -/
structure FlatMemory where
  base : U64
  len : ℕ
  mem : ℕ → U8
  fits : base.toNat + len ≤ 2 ^ 64
  len_lt : len < 2 ^ 64

namespace FlatMemory

theorem fits_empty : (0 : U64).toNat + 0 ≤ 2 ^ 64 := by decide

/-- No memory. -/
def empty : FlatMemory := ⟨0, 0, fun _ => 0, fits_empty, Nat.two_pow_pos 64⟩

/-- The index of an access that lies in the memory. -/
def offset (m : FlatMemory) (addr : U64) (len : ℕ) : Option ℕ :=
  if addr < m.base then none
  else
    let off := (addr - m.base).toNat
    if off + len < 2 ^ 64 ∧ off + len ≤ m.len then some off else none

def readBytes (m : FlatMemory) (off : ℕ) : ℕ → U64
  | 0 => 0
  | n + 1 => m.readBytes off n ||| ((m.mem (off + n)).setWidth 64 <<< (8 * n))

def writeBytes (m : FlatMemory) (off n : ℕ) (val : U64) : FlatMemory :=
  { m with mem := fun i => if off ≤ i ∧ i < off + n then byteOf val (i - off) else m.mem i }

instance : Bus FlatMemory where
  read w m addr := match m.offset addr w.bytes with
    | some off => (.ok (m.readBytes off w.bytes), m)
    | none => (.error (.loadAccessFault addr), m)
  write w m addr val := match m.offset addr w.bytes with
    | some off => (.ok (), m.writeBytes off w.bytes val)
    | none => (.error (.storeAccessFault addr), m)
  fetch32IfSafe m addr := match m.offset addr 4 with
    | some off => (some ((m.readBytes off 4).setWidth 32), m)
    | none => (none, m)

instance : RefusingBus FlatMemory where
  read_error w b addr e h := by
    change (match b.offset addr w.bytes with
      | some off => ((.ok (b.readBytes off w.bytes), b) : Except Exception U64 × FlatMemory)
      | none => (.error (.loadAccessFault addr), b)).1 = .error e at h
    cases ho : b.offset addr w.bytes with
    | none =>
      rw [ho] at h
      exact (Except.error.inj h).symm
    | some off =>
      rw [ho] at h
      cases h
  write_error w b addr val e h := by
    change (match b.offset addr w.bytes with
      | some off => ((.ok (), b.writeBytes off w.bytes val) : Except Exception Unit × FlatMemory)
      | none => (.error (.storeAccessFault addr), b)).1 = .error e at h
    cases ho : b.offset addr w.bytes with
    | none =>
      rw [ho] at h
      exact (Except.error.inj h).symm
    | some off =>
      rw [ho] at h
      cases h

/-- The byte at an address of the memory. -/
def byteAt (m : FlatMemory) (a : U64) : Option U8 :=
  if m.base ≤ a ∧ (a - m.base).toNat < m.len then some (m.mem (a - m.base).toNat) else none

theorem add_sub_base {m : FlatMemory} {addr : U64} {i : ℕ} (ha : m.base ≤ addr) (hi : addr.toNat + i < 2 ^ 64) :
    m.base ≤ addr + BitVec.ofNat 64 i ∧ (addr + BitVec.ofNat 64 i - m.base).toNat = (addr - m.base).toNat + i := by
  rw [BitVec.le_def] at ha ⊢
  have hsum : (addr + BitVec.ofNat 64 i).toNat = addr.toNat + i := by
    rw [BitVec.toNat_add, BitVec.toNat_ofNat, Nat.add_mod_mod, Nat.mod_eq_of_lt hi]
  rw [BitVec.toNat_sub_of_le (by rw [BitVec.le_def]; omega), BitVec.toNat_sub_of_le (by rwa [BitVec.le_def]), hsum]
  omega

/-- The accesses the memory admits are those all of whose bytes it has. -/
theorem offset_eq (m : FlatMemory) (addr : U64) {n : ℕ} (hn : 0 < n) :
    m.offset addr n = if InRam m.byteAt addr n then some (addr - m.base).toNat else none := by
  have hfit := m.fits
  have hlen := m.len_lt
  by_cases hb : m.base ≤ addr
  · have hb' : ¬ addr < m.base := BitVec.not_lt.2 hb
    have hsub : (addr - m.base).toNat = addr.toNat - m.base.toNat := BitVec.toNat_sub_of_le hb
    have hble := BitVec.le_def.1 hb
    have hiff : InRam m.byteAt addr n ↔ (addr - m.base).toNat + n < 2 ^ 64 ∧ (addr - m.base).toNat + n ≤ m.len := by
      constructor
      · rintro ⟨hw, hall⟩
        have hlast := hall (n - 1) (by omega)
        obtain ⟨h1, h2⟩ := add_sub_base hb (i := n - 1) (by omega)
        unfold byteAt at hlast
        split_ifs at hlast with hc
        · rw [h2] at hc; omega
        · simp at hlast
      · rintro ⟨h1, h2⟩
        refine ⟨by omega, fun i hi => ?_⟩
        obtain ⟨h3, h4⟩ := add_sub_base hb (i := i) (by omega)
        unfold byteAt
        rw [if_pos ⟨h3, by omega⟩]
        rfl
    unfold offset
    rw [if_neg hb']
    simp only [hiff]
  · have hnot : ¬ InRam m.byteAt addr n := by
      rintro ⟨-, hall⟩
      have h0 := hall 0 hn
      have hz : addr + BitVec.ofNat 64 0 = addr := by simp
      rw [hz, byteAt, if_neg (fun h => hb h.1)] at h0
      cases h0
    unfold offset
    rw [if_pos (BitVec.not_le.1 hb), if_neg hnot]

theorem readBytes_eq (m : FlatMemory) (addr : U64) {n : ℕ} (h : InRam m.byteAt addr n) :
    m.readBytes (addr - m.base).toNat n = leValue (fun a => (m.byteAt a).getD 0) addr n := by
  induction n with
  | zero => rfl
  | succ n ih =>
    have hn : InRam m.byteAt addr n := ⟨by have := h.1; omega, fun i hi => h.2 i (by omega)⟩
    have hb : m.base ≤ addr := by
      have h0 := h.2 0 (by omega)
      have hz : addr + BitVec.ofNat 64 0 = addr := by simp
      rw [hz] at h0
      by_contra hc
      rw [byteAt, if_neg (fun h => hc h.1)] at h0
      cases h0
    obtain ⟨h3, h4⟩ := add_sub_base hb (i := n) (by have := h.1; omega)
    have hlast := h.2 n (by omega)
    have hbyte : m.byteAt (addr + BitVec.ofNat 64 n) = some (m.mem ((addr - m.base).toNat + n)) := by
      unfold byteAt at hlast ⊢
      split_ifs at hlast ⊢ with hc
      · rw [h4]
      · cases hlast
    rw [readBytes, leValue, ih hn, hbyte]
    rfl

theorem byteAt_writeBytes (m : FlatMemory) (addr val : U64) {n : ℕ} (hn : 0 < n) (h : InRam m.byteAt addr n) :
    (m.writeBytes (addr - m.base).toNat n val).byteAt = storeBytes m.byteAt addr val n := by
  have hoff := m.offset_eq addr hn
  rw [if_pos h, offset] at hoff
  have hb : m.base ≤ addr := by
    by_contra hc
    rw [if_pos (BitVec.not_le.1 hc)] at hoff
    cases hoff
  rw [if_neg (BitVec.not_lt.2 hb)] at hoff
  have hin : (addr - m.base).toNat + n ≤ m.len := by
    by_contra hc
    rw [if_neg (fun h => hc h.2)] at hoff
    cases hoff
  have hle := BitVec.le_def.1 hb
  have hsub : (addr - m.base).toNat = addr.toNat - m.base.toNat := BitVec.toNat_sub_of_le hb
  have hfit := m.fits
  funext a
  unfold byteAt storeBytes writeBytes
  dsimp only
  have ha := a.isLt; have haddr := addr.isLt
  by_cases hab : m.base ≤ a
  · have hsa : (a - m.base).toNat = a.toNat - m.base.toNat := BitVec.toNat_sub_of_le hab
    have hableN := BitVec.le_def.1 hab
    have hd : (a - addr).toNat = if addr.toNat ≤ a.toNat then a.toNat - addr.toNat else a.toNat + 2 ^ 64 - addr.toNat := by
      rw [BitVec.toNat_sub]
      split_ifs <;> omega
    rw [hsa, hsub, hd]
    by_cases hc : addr.toNat ≤ a.toNat
    · rw [if_pos hc]
      by_cases hlt : a.toNat - addr.toNat < n
      · rw [if_pos hlt, if_pos ⟨hab, by omega⟩, if_pos (by omega)]
        congr 2; omega
      · rw [if_neg hlt]
        split_ifs <;> first | rfl | omega
    · have hx : ¬ a.toNat + 2 ^ 64 - addr.toNat < n := by omega
      rw [if_neg hc, if_neg hx]
      split_ifs <;> first | rfl | omega
  · have hlt := BitVec.lt_def.1 (BitVec.not_le.1 hab)
    have hd : (a - addr).toNat = a.toNat + 2 ^ 64 - addr.toNat := by
      rw [BitVec.toNat_sub]; omega
    have hx : ¬ a.toNat + 2 ^ 64 - addr.toNat < n := by omega
    rw [hd, if_neg hx, if_neg (fun h => hab h.1), if_neg (fun h => hab h.1)]

instance : PureRam FlatMemory where
  ram := byteAt
  read_ram w m addr h := by
    have hn : 0 < w.bytes := by cases w <;> decide
    change (match m.offset addr w.bytes with | some off => _ | none => _) = _
    rw [m.offset_eq addr hn, if_pos h]
    dsimp only
    rw [m.readBytes_eq addr h]
  write_ram w m addr val h := by
    have hn : 0 < w.bytes := by cases w <;> decide
    refine ⟨m.writeBytes (addr - m.base).toNat w.bytes val, ?_, m.byteAt_writeBytes addr val hn h⟩
    change (match m.offset addr w.bytes with | some off => _ | none => _) = _
    rw [m.offset_eq addr hn, if_pos h]
  read_refused w m addr h := by
    have hn : 0 < w.bytes := by cases w <;> decide
    refine ⟨.loadAccessFault addr, ?_⟩
    change (match m.offset addr w.bytes with | some off => _ | none => _) = _
    rw [m.offset_eq addr hn, if_neg h]
  write_refused w m addr val h := by
    have hn : 0 < w.bytes := by cases w <;> decide
    refine ⟨.storeAccessFault addr, ?_⟩
    change (match m.offset addr w.bytes with | some off => _ | none => _) = _
    rw [m.offset_eq addr hn, if_neg h]

end FlatMemory

end Lish
