import Lish.System.Dtb
import Lish.System.VirtioQueue
import Mathlib.Data.List.GetD
/-!
# Boot — where the images of the machine are in RAM

The firmware and the kernel stand at fixed addresses, the device tree, the initrd and the information for the firmware
below the top of RAM.  Nothing checks that they stay apart; this is when they do.
-/
namespace Lish

/-! ## Ranges of bytes -/

/-- Bytes from an offset on. -/
abbrev Placed := ℕ × List U8

namespace Placed

def Covers (r : Placed) (i : ℕ) : Prop := r.1 ≤ i ∧ i < r.1 + r.2.length

/-- No byte is in both. -/
def Apart (r r' : Placed) : Prop := ∀ i, ¬ (r.Covers i ∧ r'.Covers i)

/-- A memory that holds the bytes. -/
def HeldBy (r : Placed) (mem : ℕ → U8) : Prop := ∀ i < r.2.length, mem (r.1 + i) = r.2.getD i 0

/-- A memory with the bytes in place. -/
def put (mem : ℕ → U8) (r : Placed) : ℕ → U8 :=
  fun i => if r.1 ≤ i ∧ i < r.1 + r.2.length then r.2.getD (i - r.1) 0 else mem i

theorem apart_iff (r r' : Placed) :
    Apart r r' ↔ r.2.length = 0 ∨ r'.2.length = 0 ∨ r.1 + r.2.length ≤ r'.1 ∨ r'.1 + r'.2.length ≤ r.1 := by
  unfold Apart Covers
  constructor
  · intro h
    have h1 := h r.1
    have h2 := h r'.1
    omega
  · intro h i
    omega

theorem apart_comm {r r' : Placed} (h : Apart r r') : Apart r' r := fun i hi => h i hi.symm

theorem heldBy_put (mem : ℕ → U8) (r : Placed) : r.HeldBy (put mem r) := fun i hi => by
  unfold put
  rw [if_pos ⟨by omega, by omega⟩, Nat.add_sub_cancel_left]

theorem heldBy_put_apart {mem : ℕ → U8} {r r' : Placed} (h : r.HeldBy mem) (ha : Apart r r') : r.HeldBy (put mem r') := fun i hi => by
  have hn : ¬ (r'.1 ≤ r.1 + i ∧ r.1 + i < r'.1 + r'.2.length) := fun hc => ha (r.1 + i) ⟨⟨by omega, by omega⟩, hc⟩
  unfold put
  rw [if_neg hn]
  exact h i hi

/-- What is put in place stays there when everything is apart. -/
theorem heldBy_foldl (rs : List Placed) {mem : ℕ → U8} (hp : rs.Pairwise Apart) {r : Placed}
    (hr : r ∈ rs ∨ r.HeldBy mem ∧ ∀ r' ∈ rs, Apart r r') : r.HeldBy (rs.foldl put mem) := by
  induction rs generalizing mem with
  | nil => exact (hr.resolve_left List.not_mem_nil).1
  | cons q rs ih =>
    obtain ⟨hq, hrs⟩ := List.pairwise_cons.1 hp
    rw [List.foldl_cons]
    refine ih hrs ?_
    rcases hr with hr | ⟨hm, ha⟩
    · rcases List.mem_cons.1 hr with rfl | hr
      · exact Or.inr ⟨heldBy_put mem r, hq⟩
      · exact Or.inl hr
    · exact Or.inr ⟨heldBy_put_apart hm (ha q List.mem_cons_self), fun r' hr' => ha r' (List.mem_cons_of_mem q hr')⟩

end Placed

/-! ## The layout -/

def TOP_LAYOUT_MARGIN : ℕ := 0x200000
def FW_DYNAMIC_INFO_SIZE : ℕ := 0x1000

structure VirtImages where
  opensbi : List U8
  kernel : List U8
  cmdline : List U8
  initrd : Option (List U8)
  disk : Option (List U8)
  /-- The size of a disk that a host service keeps. -/
  externalDiskSize : Option U64
  net : Option (Fin 6 → U8)

/-- `x & !(n - 1)`. -/
def alignDown (x n : ℕ) : ℕ := x / n * n

namespace VirtImages

def nVirtio (images : VirtImages) : ℕ :=
  (images.disk.isSome || images.externalDiskSize.isSome).toNat + images.net.isSome.toNat

/-- The disk, in memory or at the host's, and then the network device. -/
def virtio (images : VirtImages) : List VirtioDev :=
  (match images.disk, images.externalDiskSize with
    | some disk, _ => [VirtioDev.new (.block disk)]
    | none, some size => [VirtioDev.new (.externalBlock size none)]
    | none, none => []) ++
  (images.net.map fun mac => VirtioDev.new (.net mac [] [])).toList

/-- The device tree before the initrd has a place. -/
def dtb0 (images : VirtImages) (ramBytes : U64) : List U8 := buildVirtFdt ramBytes images.cmdline 0 0 images.nVirtio

/-- Just below the margin at the top, page aligned. -/
def dtbOff (images : VirtImages) (ramBytes : U64) : ℕ :=
  alignDown (ramBytes.toNat - TOP_LAYOUT_MARGIN - (images.dtb0 ramBytes).length) 0x1000

/-- Below the device tree, 1 MiB aligned. -/
def initrdOff (images : VirtImages) (ramBytes : U64) (ir : List U8) : ℕ :=
  alignDown (images.dtbOff ramBytes - ir.length) 0x100000

/-- What the information for the firmware is below of. -/
def below (images : VirtImages) (ramBytes : U64) : ℕ :=
  match images.initrd with
  | some ir => images.initrdOff ramBytes ir
  | none => images.dtbOff ramBytes

def dynOff (images : VirtImages) (ramBytes : U64) : ℕ := alignDown (images.below ramBytes - FW_DYNAMIC_INFO_SIZE) 0x1000

def initrdStart (images : VirtImages) (ramBytes : U64) : U64 :=
  match images.initrd with
  | some ir => RAM_BASE + BitVec.ofNat 64 (images.initrdOff ramBytes ir)
  | none => 0

def initrdEnd (images : VirtImages) (ramBytes : U64) : U64 :=
  match images.initrd with
  | some ir => images.initrdStart ramBytes + BitVec.ofNat 64 ir.length
  | none => 0

/-- The device tree that the machine boots with. -/
def dtb (images : VirtImages) (ramBytes : U64) : List U8 :=
  buildVirtFdt ramBytes images.cmdline (images.initrdStart ramBytes) (images.initrdEnd ramBytes) images.nVirtio

end VirtImages

/-- The record the firmware finds through a2. -/
def fwDynamicInfo : List U64 := [
  0x4942534f, -- magic "OSBI"
  2, -- version
  RAM_BASE + KERNEL_OFFSET, -- next_addr = kernel Image
  1, -- next_mode = PRV_S
  0, -- options
  0] -- boot_hart

/-- `ram[off..off + src.len()].copy_from_slice(src)`: a range that leaves RAM panics. -/
def copyInto (len : ℕ) (mem : ℕ → U8) (off : ℕ) (src : List U8) : Option (ℕ → U8) :=
  if off + src.length ≤ len then some (Placed.put mem (off, src)) else none

def VirtImages.copyInitrd (images : VirtImages) (ramBytes : U64) (mem : ℕ → U8) : Option (ℕ → U8) :=
  match images.initrd with
  | some ir => copyInto ramBytes.toNat mem (images.initrdOff ramBytes ir) ir
  | none => some mem

/-- The bytes of RAM at boot, written one range after the other. -/
def VirtImages.load (images : VirtImages) (ramBytes : U64) : Option (ℕ → U8) := do
  let mem ← copyInto ramBytes.toNat (fun _ => 0) 0 images.opensbi
  let mem ← copyInto ramBytes.toNat mem KERNEL_OFFSET.toNat images.kernel
  let mem ← images.copyInitrd ramBytes mem
  let mem ← copyInto ramBytes.toNat mem (images.dtbOff ramBytes) (images.dtb ramBytes)
  fwDynamicInfo.zipIdx.foldlM
    (fun mem e => copyInto ramBytes.toNat mem (images.dynOff ramBytes + e.2 * 8) (Dma.leBytes e.1 8)) mem

/-- The machine with its images in RAM; none where the constructor panics.  The host's allocation is at `ptr`. -/
def VirtMachine.newInner (ptr : U64) (passes : ℕ) (ramBytes : U64) (images : VirtImages) (directSbi : Bool) : Option VirtMachine := do
  let kernelEnd ← checkedAdd KERNEL_OFFSET (BitVec.ofNat 64 images.kernel.length)
  let minimumRam ← checkedAdd kernelEnd (BitVec.ofNat 64 (TOP_LAYOUT_MARGIN + FW_DYNAMIC_INFO_SIZE))
  if h : minimumRam ≤ ramBytes ∧ ramBytes.toNat < 2 ^ 63 ∧ ptr.toNat + ramBytes.toNat ≤ 2 ^ 64 then
    let mem ← images.load ramBytes
    let ram : GuestRam := ⟨ramBytes.toNat, mem, ptr, by have := h.2.1; have : RAM_BASE.toNat = 2 ^ 31 := rfl; omega, h.2.2⟩
    some (VirtMachine.new ram images.virtio directSbi (RAM_BASE + BitVec.ofNat 64 (images.dtbOff ramBytes))
      (RAM_BASE + BitVec.ofNat 64 (images.dynOff ramBytes)) passes)
  else none

/-! ## What the constructor returns -/

namespace VirtImages

variable {images : VirtImages} {ramBytes : U64}

/-- The ranges of RAM, in the order in which they are written. -/
def regions (images : VirtImages) (ramBytes : U64) : List Placed :=
  [(0, images.opensbi), (KERNEL_OFFSET.toNat, images.kernel)] ++
  (images.initrd.map fun ir => (images.initrdOff ramBytes ir, ir)).toList ++
  [(images.dtbOff ramBytes, images.dtb ramBytes), (images.dynOff ramBytes, fwDynamicInfo.flatMap fun v => Dma.leBytes v 8)]

end VirtImages

theorem copyInto_eq_some {len off : ℕ} {mem mem' : ℕ → U8} {src : List U8} :
    copyInto len mem off src = some mem' ↔ off + src.length ≤ len ∧ Placed.put mem (off, src) = mem' := by
  unfold copyInto
  split
  · rename_i h
    rw [Option.some.injEq, and_iff_right h]
  · rename_i h
    exact ⟨fun hc => (by cases hc), fun hc => absurd hc.1 h⟩

theorem alignDown_le (x n : ℕ) : alignDown x n ≤ x := Nat.div_mul_le_self x n

theorem put_nil (mem : ℕ → U8) (off : ℕ) : Placed.put mem (off, []) = mem := by
  funext i
  exact if_neg (by simp)

theorem put_append (mem : ℕ → U8) (off : ℕ) (a b : List U8) :
    Placed.put (Placed.put mem (off, a)) (off + a.length, b) = Placed.put mem (off, a ++ b) := by
  funext i
  unfold Placed.put
  dsimp only
  rw [List.length_append]
  by_cases hb : off + a.length ≤ i ∧ i < off + a.length + b.length
  · rw [if_pos hb, if_pos (by omega), List.getD_append_right _ _ _ _ (by omega)]
    congr 1
    omega
  · rw [if_neg hb]
    by_cases ha : off ≤ i ∧ i < off + a.length
    · rw [if_pos ha, if_pos (by omega), List.getD_append _ _ _ _ (by omega)]
    · rw [if_neg ha, if_neg (by omega)]

/-- The words of a record, one after the other, are its bytes. -/
theorem copyWords {len base : ℕ} (vs : List U64) (k : ℕ) (mem : ℕ → U8) (h : base + (k + vs.length) * 8 ≤ len) :
    (vs.zipIdx k).foldlM (fun mem e => copyInto len mem (base + e.2 * 8) (Dma.leBytes e.1 8)) mem =
      some (Placed.put mem (base + k * 8, vs.flatMap fun v => Dma.leBytes v 8)) := by
  induction vs generalizing k mem with
  | nil => exact congrArg some (put_nil mem _).symm
  | cons v vs ih =>
    rw [List.length_cons] at h
    have hv : (Dma.leBytes v 8).length = 8 := Dma.leBytes_length v 8
    have hc : copyInto len mem (base + k * 8) (Dma.leBytes v 8) = some (Placed.put mem (base + k * 8, Dma.leBytes v 8)) :=
      copyInto_eq_some.2 ⟨by omega, rfl⟩
    rw [List.zipIdx_cons, List.foldlM_cons, hc]
    show (vs.zipIdx (k + 1)).foldlM _ _ = _
    rw [ih (k + 1) _ (by omega), List.flatMap_cons, ← put_append, hv, show base + (k + 1) * 8 = base + k * 8 + 8 by omega]

section constructor

variable {ptr ramBytes : U64} {passes : ℕ} {images : VirtImages} {directSbi : Bool} {m : VirtMachine}

theorem length_fwDynamicInfo : (fwDynamicInfo.flatMap fun v => Dma.leBytes v 8).length = 48 := rfl

/-- The record is below the margin. -/
theorem dynOff_le (images : VirtImages) (ramBytes : U64) : images.dynOff ramBytes ≤ ramBytes.toNat - TOP_LAYOUT_MARGIN := by
  have hd : images.dtbOff ramBytes ≤ ramBytes.toNat - TOP_LAYOUT_MARGIN := (alignDown_le _ _).trans (Nat.sub_le _ _)
  have hb : images.below ramBytes ≤ images.dtbOff ramBytes := by
    unfold VirtImages.below
    split
    · exact (alignDown_le _ _).trans (Nat.sub_le _ _)
    · exact le_rfl
  exact (alignDown_le _ _).trans ((Nat.sub_le _ _).trans (hb.trans hd))

/-- The ranges are in RAM. -/
structure Fits (images : VirtImages) (ramBytes : U64) : Prop where
  kernel : KERNEL_OFFSET.toNat + images.kernel.length ≤ ramBytes.toNat
  firmware : images.opensbi.length ≤ ramBytes.toNat
  initrd : ∀ ir, images.initrd = some ir → images.initrdOff ramBytes ir + ir.length ≤ ramBytes.toNat
  dtb : images.dtbOff ramBytes + (images.dtb ramBytes).length ≤ ramBytes.toNat

/-- Loading writes the ranges one after the other, and panics exactly when one leaves RAM. -/
theorem load_eq_some {mem : ℕ → U8} (hr : 0x200030 ≤ ramBytes.toNat) :
    images.load ramBytes = some mem ↔ Fits images ramBytes ∧ (images.regions ramBytes).foldl Placed.put (fun _ => 0) = mem := by
  have hdyn := dynOff_le images ramBytes
  have hmargin : TOP_LAYOUT_MARGIN = 0x200000 := rfl
  have hwords : ∀ mem', fwDynamicInfo.zipIdx.foldlM
      (fun mem e => copyInto ramBytes.toNat mem (images.dynOff ramBytes + e.2 * 8) (Dma.leBytes e.1 8)) mem' =
      some (Placed.put mem' (images.dynOff ramBytes, fwDynamicInfo.flatMap fun v => Dma.leBytes v 8)) := fun mem' => by
    have hlen : images.dynOff ramBytes + (0 + fwDynamicInfo.length) * 8 ≤ ramBytes.toNat := by
      rw [show fwDynamicInfo.length = 6 from rfl]
      omega
    have hw := copyWords fwDynamicInfo 0 mem' hlen
    rwa [Nat.zero_mul, Nat.add_zero] at hw
  unfold VirtImages.load VirtImages.regions
  simp only [Option.bind_eq_bind, hwords]
  constructor
  · intro h
    obtain ⟨mem1, h1, h⟩ := Option.bind_eq_some_iff.1 h
    obtain ⟨mem2, h2, h⟩ := Option.bind_eq_some_iff.1 h
    obtain ⟨mem3, h3, h⟩ := Option.bind_eq_some_iff.1 h
    obtain ⟨mem4, h4, h⟩ := Option.bind_eq_some_iff.1 h
    obtain ⟨hf, rfl⟩ := copyInto_eq_some.1 h1
    obtain ⟨hk, rfl⟩ := copyInto_eq_some.1 h2
    obtain ⟨hd, rfl⟩ := copyInto_eq_some.1 h4
    rw [Nat.zero_add] at hf
    unfold VirtImages.copyInitrd at h3
    cases hi : images.initrd with
    | none =>
      rw [hi] at h3
      obtain rfl := Option.some.inj h3
      exact ⟨⟨hk, hf, fun ir hir => (by rw [hi] at hir; cases hir), hd⟩, Option.some.inj h⟩
    | some ir =>
      rw [hi] at h3
      obtain ⟨hir, rfl⟩ := copyInto_eq_some.1 h3
      refine ⟨⟨hk, hf, fun ir' hir' => ?_, hd⟩, Option.some.inj h⟩
      rw [hi] at hir'
      obtain rfl := Option.some.inj hir'
      exact hir
  · rintro ⟨hfits, rfl⟩
    rw [copyInto_eq_some.2 ⟨by rw [Nat.zero_add]; exact hfits.firmware, rfl⟩, Option.bind_some,
      copyInto_eq_some.2 ⟨hfits.kernel, rfl⟩, Option.bind_some]
    unfold VirtImages.copyInitrd
    cases hi : images.initrd with
    | none =>
      dsimp only
      rw [Option.bind_some, copyInto_eq_some.2 ⟨hfits.dtb, rfl⟩, Option.bind_some]
      rfl
    | some ir =>
      dsimp only
      rw [copyInto_eq_some.2 ⟨hfits.initrd ir hi, rfl⟩, Option.bind_some, copyInto_eq_some.2 ⟨hfits.dtb, rfl⟩, Option.bind_some]
      rfl

/-- The size check counts the kernel, its offset and the margin. -/
theorem minimumRam_toNat {kernelEnd minimumRam : U64} (hk : images.kernel.length < 2 ^ 63)
    (he : checkedAdd KERNEL_OFFSET (BitVec.ofNat 64 images.kernel.length) = some kernelEnd)
    (hm : checkedAdd kernelEnd (BitVec.ofNat 64 (TOP_LAYOUT_MARGIN + FW_DYNAMIC_INFO_SIZE)) = some minimumRam) :
    minimumRam.toNat = images.kernel.length + 0x401000 := by
  have h1 : (BitVec.ofNat 64 images.kernel.length).toNat = images.kernel.length := by
    rw [BitVec.toNat_ofNat]
    omega
  have h2 : KERNEL_OFFSET.toNat = 0x200000 := rfl
  have h3 : (BitVec.ofNat 64 (TOP_LAYOUT_MARGIN + FW_DYNAMIC_INFO_SIZE)).toNat = 0x201000 := rfl
  rw [VirtioDev.checkedAdd_toNat hm, VirtioDev.checkedAdd_toNat he]
  omega

/-- **What the constructor returns**: a machine whose RAM is its images, written one after the other. -/
theorem newInner_spec (h : VirtMachine.newInner ptr passes ramBytes images directSbi = some m) :
    images.kernel.length + 0x401000 ≤ ramBytes.toNat ∧ ramBytes.toNat < 2 ^ 63 ∧ Fits images ramBytes ∧
    m.hart.bus.ram.len = ramBytes.toNat ∧ m.hart.bus.ram.mem = (images.regions ramBytes).foldl Placed.put (fun _ => 0) ∧
    m.hart.cpu.x 11 = RAM_BASE + BitVec.ofNat 64 (images.dtbOff ramBytes) ∧
    m.hart.cpu.x 12 = RAM_BASE + BitVec.ofNat 64 (images.dynOff ramBytes) := by
  unfold VirtMachine.newInner at h
  obtain ⟨kernelEnd, hend, h⟩ := Option.bind_eq_some_iff.1 h
  obtain ⟨minimumRam, hmin, h⟩ := Option.bind_eq_some_iff.1 h
  split at h
  · rename_i hsize
    obtain ⟨mem, hload, h⟩ := Option.bind_eq_some_iff.1 h
    obtain rfl := Option.some.inj h
    have hle : minimumRam.toNat ≤ ramBytes.toNat := hsize.1
    have hmr : 0x201000 ≤ minimumRam.toNat := by
      rw [VirtioDev.checkedAdd_toNat hmin]
      exact Nat.le_add_left _ _
    obtain ⟨hfits, rfl⟩ := (load_eq_some (by omega)).1 hload
    have hk := hfits.kernel
    rw [minimumRam_toNat (by omega) hend hmin] at hle
    refine ⟨hle, hsize.2.1, hfits, rfl, rfl, ?_, ?_⟩
    · cases directSbi <;> rfl
    · cases directSbi <;> rfl
  · cases h

/-- It returns whenever RAM is large enough and no range leaves it. -/
theorem newInner_isSome (hk : images.kernel.length + 0x401000 ≤ ramBytes.toNat) (hr : ramBytes.toNat < 2 ^ 63)
    (hptr : ptr.toNat + ramBytes.toNat ≤ 2 ^ 64) (hfits : Fits images ramBytes) :
    ∃ m, VirtMachine.newInner ptr passes ramBytes images directSbi = some m := by
  have h1 : (BitVec.ofNat 64 images.kernel.length).toNat = images.kernel.length := by
    rw [BitVec.toNat_ofNat]
    omega
  have h2 : KERNEL_OFFSET.toNat = 0x200000 := rfl
  have h3 : (BitVec.ofNat 64 (TOP_LAYOUT_MARGIN + FW_DYNAMIC_INFO_SIZE)).toNat = 0x201000 := rfl
  have h4 : checkedAdd KERNEL_OFFSET (BitVec.ofNat 64 images.kernel.length) =
      some (KERNEL_OFFSET + BitVec.ofNat 64 images.kernel.length) := if_pos (by omega)
  have h5 := VirtioDev.checkedAdd_toNat h4
  have h6 : checkedAdd (KERNEL_OFFSET + BitVec.ofNat 64 images.kernel.length)
      (BitVec.ofNat 64 (TOP_LAYOUT_MARGIN + FW_DYNAMIC_INFO_SIZE)) = some _ := if_pos (by omega)
  have h7 := minimumRam_toNat (by omega) h4 h6
  obtain ⟨mem, hload⟩ : ∃ mem, images.load ramBytes = some mem := ⟨_, (load_eq_some (by omega)).2 ⟨hfits, rfl⟩⟩
  have hle : KERNEL_OFFSET + BitVec.ofNat 64 images.kernel.length + BitVec.ofNat 64 (TOP_LAYOUT_MARGIN + FW_DYNAMIC_INFO_SIZE) ≤
      ramBytes := by
    rw [BitVec.le_def]
    omega
  unfold VirtMachine.newInner
  rw [h4, Option.bind_eq_bind, Option.bind_some, h6, Option.bind_eq_bind, Option.bind_some, dif_pos ⟨hle, hr, hptr⟩, hload]
  exact ⟨_, rfl⟩

/-! ## When the ranges stay apart -/

/-- Every range is in RAM and holds its bytes, no two overlap, and the addresses that the guest gets are theirs. -/
structure Laid (images : VirtImages) (ramBytes : U64) (m : VirtMachine) : Prop where
  apart : (images.regions ramBytes).Pairwise Placed.Apart
  inside : ∀ r ∈ images.regions ramBytes, r.1 + r.2.length ≤ m.hart.bus.ram.len
  held : ∀ r ∈ images.regions ramBytes, r.HeldBy m.hart.bus.ram.mem
  dtbAddr : m.hart.cpu.x 11 = RAM_BASE + BitVec.ofNat 64 (images.dtbOff ramBytes)
  dynAddr : m.hart.cpu.x 12 = RAM_BASE + BitVec.ofNat 64 (images.dynOff ramBytes)
  /-- The tree, as the calls that make it, gives the initrd's first address and the one after its last. -/
  initrdAddrs : ∀ ir, images.initrd = some ir → ir ≠ [] → ∃ calls, images.dtb ramBytes = Fdt.build calls ∧
    FdtCall.prop (asciiBytes "linux,initrd-start") (beBytes (RAM_BASE + BitVec.ofNat 64 (images.initrdOff ramBytes ir)) 8) ∈ calls ∧
    FdtCall.prop (asciiBytes "linux,initrd-end")
      (beBytes (RAM_BASE + BitVec.ofNat 64 (images.initrdOff ramBytes ir + ir.length)) 8) ∈ calls

/-- Where a device tree of `D` bytes goes in a RAM of `T` bytes. -/
def treeOff (T D : ℕ) : ℕ := alignDown (T - TOP_LAYOUT_MARGIN - D) 0x1000

/-- Where the lowest of the tree and an initrd of `I` bytes starts. -/
def lowEnd (T D : ℕ) (I : Option ℕ) : ℕ := I.elim (treeOff T D) fun i => alignDown (treeOff T D - i) 0x100000

/-- **When there is room**, for a RAM of `T` bytes, a firmware of `F`, a kernel of `K`, a device tree of `D` bytes before
it names an initrd, and an initrd of `I`. -/
structure Roomy (T F K D : ℕ) (I : Option ℕ) : Prop where
  tree : 0x1000 ≤ treeOff T D
  initrd : ∀ i, I = some i → 0 < i → 0x100000 ≤ lowEnd T D I
  firmware : F ≤ lowEnd T D I - 0x1000
  kernel : 0 < K → F ≤ 0x200000 ∧ 0x200000 + K ≤ treeOff T D ∧
    (0x200000 + K ≤ lowEnd T D I - 0x1000 ∨ lowEnd T D I - 0x1000 + 48 ≤ 0x200000) ∧
    ∀ i, I = some i → 0 < i → 0x200000 + K ≤ lowEnd T D I ∨ lowEnd T D I + i ≤ 0x200000

theorem alignDown_spec (x : ℕ) {n : ℕ} (hn : 0 < n) :
    alignDown x n % n = 0 ∧ alignDown x n ≤ x ∧ x < alignDown x n + n := by
  unfold alignDown
  refine ⟨Nat.mul_mod_left _ _, Nat.div_mul_le_self x n, ?_⟩
  have := Nat.lt_div_mul_add hn (a := x)
  omega

theorem treeOff_spec (T D : ℕ) : treeOff T D % 0x1000 = 0 ∧ treeOff T D ≤ T - TOP_LAYOUT_MARGIN - D ∧
    T - TOP_LAYOUT_MARGIN - D < treeOff T D + 0x1000 := by
  unfold treeOff
  exact alignDown_spec _ (Nat.succ_pos _)

theorem lowEnd_some (T D i : ℕ) : lowEnd T D (some i) % 0x100000 = 0 ∧ lowEnd T D (some i) ≤ treeOff T D - i := by
  unfold lowEnd
  rw [Option.elim_some]
  exact ⟨(alignDown_spec _ (Nat.succ_pos _)).1, alignDown_le _ _⟩

theorem lowEnd_none (T D : ℕ) : lowEnd T D none = treeOff T D := by
  unfold lowEnd
  rw [Option.elim_none]

theorem dtbOff_eq (images : VirtImages) (ramBytes : U64) :
    images.dtbOff ramBytes = treeOff ramBytes.toNat (images.dtb0 ramBytes).length := by
  unfold VirtImages.dtbOff treeOff
  rfl

theorem below_eq (images : VirtImages) (ramBytes : U64) :
    images.below ramBytes = lowEnd ramBytes.toNat (images.dtb0 ramBytes).length (images.initrd.map List.length) := by
  unfold VirtImages.below VirtImages.initrdOff lowEnd
  rw [dtbOff_eq]
  cases images.initrd with
  | none => rw [Option.map_none, Option.elim_none]
  | some ir => rw [Option.map_some, Option.elim_some]

theorem dynOff_eq (images : VirtImages) (ramBytes : U64) : images.dynOff ramBytes = images.below ramBytes - 0x1000 := by
  have hb : images.below ramBytes % 0x1000 = 0 := by
    rw [below_eq]
    cases images.initrd with
    | none =>
      rw [Option.map_none, lowEnd_none]
      exact (treeOff_spec _ _).1
    | some ir =>
      have := (lowEnd_some ramBytes.toNat (images.dtb0 ramBytes).length ir.length).1
      rw [Option.map_some]
      omega
  have hpos : 0 < 0x1000 := Nat.succ_pos _
  have hs := alignDown_spec (images.below ramBytes - 0x1000) hpos
  unfold VirtImages.dynOff
  rw [show FW_DYNAMIC_INFO_SIZE = 0x1000 from rfl]
  omega

theorem length_dtb (images : VirtImages) (ramBytes : U64) :
    (images.dtb0 ramBytes).length ≤ (images.dtb ramBytes).length ∧
    (images.dtb ramBytes).length ≤ (images.dtb0 ramBytes).length + 76 := length_buildVirtFdt _ _ _ _ _

theorem length_dtb0_pos (images : VirtImages) (ramBytes : U64) : 60 ≤ (images.dtb0 ramBytes).length := by
  unfold VirtImages.dtb0 buildVirtFdt
  rw [length_build]
  omega

theorem roomy_none (T F K D : ℕ) : Roomy T F K D none ↔ 0x1000 ≤ treeOff T D ∧ F ≤ treeOff T D - 0x1000 ∧
    (0 < K → F ≤ 0x200000 ∧ 0x200000 + K ≤ treeOff T D ∧
      (0x200000 + K ≤ treeOff T D - 0x1000 ∨ treeOff T D - 0x1000 + 48 ≤ 0x200000)) := by
  constructor
  · rintro ⟨h1, -, h3, h4⟩
    rw [lowEnd_none] at h3 h4
    exact ⟨h1, h3, fun hK => ⟨(h4 hK).1, (h4 hK).2.1, (h4 hK).2.2.1⟩⟩
  · rintro ⟨h1, h3, h4⟩
    refine ⟨h1, fun i h => (by cases h), ?_, fun hK => ?_⟩
    · rw [lowEnd_none]
      exact h3
    · rw [lowEnd_none]
      exact ⟨(h4 hK).1, (h4 hK).2.1, (h4 hK).2.2, fun i h => (by cases h)⟩

theorem roomy_some (T F K D i : ℕ) : Roomy T F K D (some i) ↔ 0x1000 ≤ treeOff T D ∧
    (0 < i → 0x100000 ≤ lowEnd T D (some i)) ∧ F ≤ lowEnd T D (some i) - 0x1000 ∧
    (0 < K → F ≤ 0x200000 ∧ 0x200000 + K ≤ treeOff T D ∧
      (0x200000 + K ≤ lowEnd T D (some i) - 0x1000 ∨ lowEnd T D (some i) - 0x1000 + 48 ≤ 0x200000) ∧
      (0 < i → 0x200000 + K ≤ lowEnd T D (some i) ∨ lowEnd T D (some i) + i ≤ 0x200000)) := by
  constructor
  · rintro ⟨h1, h2, h3, h4⟩
    exact ⟨h1, h2 i rfl, h3, fun hK => ⟨(h4 hK).1, (h4 hK).2.1, (h4 hK).2.2.1, (h4 hK).2.2.2 i rfl⟩⟩
  · rintro ⟨h1, h2, h3, h4⟩
    refine ⟨h1, fun j h => ?_, h3, fun hK => ⟨(h4 hK).1, (h4 hK).2.1, (h4 hK).2.2.1, fun j h => ?_⟩⟩
    · obtain rfl := Option.some.inj h
      exact h2
    · obtain rfl := Option.some.inj h
      exact (h4 hK).2.2.2

/-- The ranges stay apart exactly when there is room. -/
theorem apart_iff_roomy (hk : images.kernel.length + 0x401000 ≤ ramBytes.toNat) :
    (images.regions ramBytes).Pairwise Placed.Apart ↔
      Roomy ramBytes.toNat images.opensbi.length images.kernel.length (images.dtb0 ramBytes).length
        (images.initrd.map List.length) := by
  have hlen := length_dtb images ramBytes
  have hpos := length_dtb0_pos images ramBytes
  have htree := treeOff_spec ramBytes.toNat (images.dtb0 ramBytes).length
  have hko : KERNEL_OFFSET.toNat = 0x200000 := rfl
  have hmargin : TOP_LAYOUT_MARGIN = 0x200000 := rfl
  have hdyn := dynOff_eq images ramBytes
  have hbelow := below_eq images ramBytes
  have hdtb := dtbOff_eq images ramBytes
  have hrec := length_fwDynamicInfo
  rw [hmargin] at htree
  unfold VirtImages.regions
  cases hi : images.initrd with
  | none =>
    rw [hi, Option.map_none, lowEnd_none] at hbelow
    rw [hbelow] at hdyn
    rw [Option.map_none, Option.map_none, roomy_none]
    simp only [Option.toList_none, List.cons_append, List.nil_append, List.pairwise_cons, List.mem_cons, List.not_mem_nil,
      or_false, forall_eq_or_imp, forall_eq, List.Pairwise.nil, and_true, false_implies, implies_true, Placed.apart_iff, hrec,
      hko, hdyn, hdtb]
    generalize treeOff ramBytes.toNat (images.dtb0 ramBytes).length = d at htree ⊢
    constructor
    · rintro ⟨⟨hfk, hfd, hfr⟩, ⟨hkd, hkr⟩, hdr⟩
      exact ⟨by omega, by omega, fun hK => ⟨by omega, by omega, by omega⟩⟩
    · rintro ⟨h1, h3, h4⟩
      refine ⟨⟨?_, ?_, ?_⟩, ⟨?_, ?_⟩, ?_⟩
      all_goals omega
  | some ir =>
    have hs := lowEnd_some ramBytes.toNat (images.dtb0 ramBytes).length ir.length
    have hoff : images.initrdOff ramBytes ir = lowEnd ramBytes.toNat (images.dtb0 ramBytes).length (some ir.length) := by
      unfold VirtImages.initrdOff lowEnd
      rw [Option.elim_some, dtbOff_eq]
    rw [hi, Option.map_some] at hbelow
    rw [hbelow] at hdyn
    rw [Option.map_some, Option.map_some, roomy_some]
    simp only [Option.toList_some, List.cons_append, List.nil_append, List.pairwise_cons, List.mem_cons, List.not_mem_nil,
      or_false, forall_eq_or_imp, forall_eq, List.Pairwise.nil, and_true, false_implies, implies_true, Placed.apart_iff, hrec,
      hko, hdyn, hdtb, hoff]
    generalize treeOff ramBytes.toNat (images.dtb0 ramBytes).length = d at htree hs ⊢
    generalize lowEnd ramBytes.toNat (images.dtb0 ramBytes).length (some ir.length) = low at hs ⊢
    constructor
    · rintro ⟨⟨hfk, hfi, hfd, hfr⟩, ⟨hki, hkd, hkr⟩, ⟨hid, hir⟩, hdr⟩
      refine ⟨?_, fun hI => ?_, ?_, fun hK => ⟨?_, ?_, ?_, fun hI => ?_⟩⟩
      · clear hfk hfi hfd hfr hki hkd hkr hid hir
        omega
      · clear hfk hfi hfd hfr hki hkd hkr hid hdr
        omega
      · clear hfk hfi hfd hki hkd hkr hid hir hdr
        omega
      · clear hfi hfd hfr hki hkd hkr hid hir hdr
        omega
      · clear hfk hfi hfd hfr hki hkr hid hir hdr
        omega
      · clear hfk hfi hfd hfr hki hkd hid hir hdr
        omega
      · clear hfk hfi hfd hfr hkd hkr hid hir hdr
        omega
    · rintro ⟨h1, h2, h3, h4⟩
      refine ⟨⟨?_, ?_, ?_, ?_⟩, ⟨?_, ?_, ?_⟩, ⟨?_, ?_⟩, ?_⟩
      all_goals omega

/-- The end of the initrd is after its start. -/
theorem initrdStart_lt {ir : List U8} (hi : images.initrd = some ir) (hne : ir ≠ [])
    (hend : images.initrdOff ramBytes ir + ir.length < 2 ^ 63) : images.initrdStart ramBytes < images.initrdEnd ramBytes := by
  have hpos := List.length_pos_iff.2 hne
  have hbase : RAM_BASE.toNat = 2 ^ 31 := rfl
  have hstart : (images.initrdStart ramBytes).toNat = 2 ^ 31 + images.initrdOff ramBytes ir := by
    unfold VirtImages.initrdStart
    rw [hi]
    dsimp only
    rw [BitVec.toNat_add, BitVec.toNat_ofNat, hbase]
    omega
  have hend' : (images.initrdEnd ramBytes).toNat = (images.initrdStart ramBytes).toNat + ir.length := by
    unfold VirtImages.initrdEnd
    rw [hi]
    dsimp only
    rw [BitVec.toNat_add, BitVec.toNat_ofNat, hstart]
    omega
  rw [BitVec.lt_def, hend']
  omega

/-- The tree names the initrd's first address and the one after its last. -/
theorem initrd_named {ir : List U8} (hi : images.initrd = some ir) (hne : ir ≠ [])
    (hend : images.initrdOff ramBytes ir + ir.length < 2 ^ 63) :
    ∃ calls, images.dtb ramBytes = Fdt.build calls ∧
      FdtCall.prop (asciiBytes "linux,initrd-start") (beBytes (RAM_BASE + BitVec.ofNat 64 (images.initrdOff ramBytes ir)) 8) ∈ calls ∧
      FdtCall.prop (asciiBytes "linux,initrd-end")
        (beBytes (RAM_BASE + BitVec.ofNat 64 (images.initrdOff ramBytes ir + ir.length)) 8) ∈ calls := by
  have hlt := initrdStart_lt hi hne hend
  have hstart : images.initrdStart ramBytes = RAM_BASE + BitVec.ofNat 64 (images.initrdOff ramBytes ir) := by
    unfold VirtImages.initrdStart
    rw [hi]
  have hend : images.initrdEnd ramBytes = RAM_BASE + BitVec.ofNat 64 (images.initrdOff ramBytes ir + ir.length) := by
    rw [BitVec.ofNat_add, ← BitVec.add_assoc, ← hstart]
    unfold VirtImages.initrdEnd
    rw [hi]
  have hprops : initrdProps (images.initrdStart ramBytes) (images.initrdEnd ramBytes) =
      [.prop (asciiBytes "linux,initrd-start") (beBytes (images.initrdStart ramBytes) 8),
        .prop (asciiBytes "linux,initrd-end") (beBytes (images.initrdEnd ramBytes) 8)] := if_pos hlt
  refine ⟨_, rfl, ?_, ?_⟩
  · rw [← hstart]
    unfold virtCalls
    rw [hprops]
    exact List.mem_append_left _ (List.mem_append_right _ List.mem_cons_self)
  · rw [← hend]
    unfold virtCalls
    rw [hprops]
    exact List.mem_append_left _ (List.mem_append_right _ (List.mem_cons_of_mem _ List.mem_cons_self))

/-- What the constructor returns is laid out when its ranges stay apart. -/
theorem laid_of_apart (h : VirtMachine.newInner ptr passes ramBytes images directSbi = some m)
    (ha : (images.regions ramBytes).Pairwise Placed.Apart) : Laid images ramBytes m := by
  obtain ⟨hk, hr, hfits, hlen, hmem, hx11, hx12⟩ := newInner_spec h
  refine ⟨ha, fun r hin => ?_, fun r hin => ?_, hx11, hx12, fun ir hi hne => ?_⟩
  · have hdyn := dynOff_le images ramBytes
    have hmargin : TOP_LAYOUT_MARGIN = 0x200000 := rfl
    rw [hlen]
    unfold VirtImages.regions at hin
    rcases List.mem_append.1 hin with hin | hin
    · rcases List.mem_append.1 hin with hin | hin
      · rcases List.mem_cons.1 hin with rfl | hin
        · rw [Nat.zero_add]
          exact hfits.firmware
        · obtain rfl := List.mem_singleton.1 hin
          exact hfits.kernel
      · obtain ⟨ir, hi, rfl⟩ := Option.map_eq_some_iff.1 (Option.mem_toList.1 hin)
        exact hfits.initrd ir hi
    · rcases List.mem_cons.1 hin with rfl | hin
      · exact hfits.dtb
      · obtain rfl := List.mem_singleton.1 hin
        rw [length_fwDynamicInfo]
        omega
  · rw [hmem]
    exact Placed.heldBy_foldl _ ha (Or.inl hin)
  · have := hfits.initrd ir hi
    exact initrd_named hi hne (by omega)

end constructor

/-! ## Two boots of 8 MiB -/

/-- A firmware of the given length, a kernel and an initrd of one byte each. -/
def plainImages (firmware : ℕ) (initrd : Option (List U8)) : VirtImages where
  opensbi := List.replicate firmware 0
  kernel := [0]
  cmdline := []
  initrd := initrd
  disk := none
  externalDiskSize := none
  net := none

theorem length_plainTree (firmware : ℕ) (initrd : Option (List U8)) :
    ((plainImages firmware initrd).dtb0 0x800000).length = 1939 := by
  have hsize : ((virtCalls 0x800000 [] 0 0 0).map FdtCall.size).sum = 1588 := by decide +kernel
  have hnames : ∑ n ∈ propNames (virtCalls 0x800000 [] 0 0 0), (n.length + 1) = 291 := by decide +kernel
  show (Fdt.build (virtCalls 0x800000 [] 0 0 0)).length = 1939
  rw [length_build, hsize, hnames]

theorem plain_boots {firmware : ℕ} {initrd : Option (List U8)} (hf : firmware ≤ 0x800000)
    (hi : ∀ ir, initrd = some ir → ir.length ≤ 0x100000) (ptr : U64) (hptr : ptr.toNat + 0x800000 ≤ 2 ^ 64) (direct : Bool) :
    ∃ m, VirtMachine.newInner ptr 0 0x800000 (plainImages firmware initrd) direct = some m := by
  have hT : (0x800000 : U64).toNat = 0x800000 := rfl
  have hlen := length_dtb (plainImages firmware initrd) 0x800000
  have htree := treeOff_spec 0x800000 1939
  have hmargin : TOP_LAYOUT_MARGIN = 0x200000 := rfl
  have hd := dtbOff_eq (plainImages firmware initrd) 0x800000
  rw [length_plainTree] at hlen hd
  rw [hT] at hd
  have hk : (plainImages firmware initrd).kernel.length = 1 := rfl
  have hko : KERNEL_OFFSET.toNat = 0x200000 := rfl
  refine newInner_isSome (by rw [hT, hk]; omega) (by rw [hT]; omega) (by rw [hT]; exact hptr) ⟨?_, ?_, fun ir hir => ?_, ?_⟩
  · rw [hT, hk, hko]
    omega
  · rw [hT]
    show (List.replicate firmware 0).length ≤ _
    rw [List.length_replicate]
    exact hf
  · have hle := hi ir hir
    have hoff : (plainImages firmware initrd).initrdOff 0x800000 ir ≤ (plainImages firmware initrd).dtbOff 0x800000 - ir.length :=
      alignDown_le _ _
    rw [hT]
    omega
  · rw [hT]
    omega

end Lish
