import Lish.System.Devices
import Lish.System.Virtio
/-!
# VirtBus — the memory map of the machine

RAM, and the devices the hart reaches through it.  RAM comes first: where there is RAM, an access is one of its bytes.
-/
namespace Lish

def TEST_BASE : ℕ := 0x00100000
def CLINT_BASE : ℕ := 0x02000000
def CLINT_SIZE : ℕ := 0x10000
def PLIC_BASE : ℕ := 0x0c000000
def PLIC_SIZE : ℕ := 0x04000000
def UART_BASE : ℕ := 0x10000000
def UART_SIZE : ℕ := 0x100
def GOLDFISH_RTC_BASE : ℕ := 0x00101000
def GOLDFISH_RTC_SIZE : ℕ := 0x1000
def VIRTIO_BASE : ℕ := 0x10001000
def VIRTIO_SIZE : ℕ := 0x1000
def VIRTIO_COUNT : ℕ := 8

/-- The bytes of guest RAM, and where the host keeps them. -/
structure GuestRam where
  len : ℕ
  mem : ℕ → U8
  ptr : U64
  fits : RAM_BASE.toNat + len ≤ 2 ^ 64
  ptr_fits : ptr.toNat + len ≤ 2 ^ 64

namespace GuestRam

theorem len_lt (r : GuestRam) : r.len < 2 ^ 64 := by
  have := r.fits
  have : 0 < RAM_BASE.toNat := by decide
  omega

/-- RAM at its guest-physical addresses. -/
def flat (r : GuestRam) : FlatMemory := ⟨RAM_BASE, r.len, r.mem, r.fits, r.len_lt⟩

end GuestRam

/-- The machine but for its hart. -/
structure VirtBus where
  ram : GuestRam
  mtime : U64
  mtimecmp : U64
  msip : Bool
  rtc : GoldfishRtc
  plic : Plic
  uart : Uart
  virtio : List VirtioDev
  powerOff : Bool
  directSbi : Bool
  jit : JitPageState
  nextBlockRequestId : U64
  /-- The most passes over a queue that this model follows; `hung` tells that one needed more. -/
  passes : ℕ
  hung : Bool

namespace VirtBus

/-! ## Interrupt lines -/

/-- The level-triggered sources, from the device lines. -/
def sources (b : VirtBus) : U32 :=
  let uart : U32 := if b.uart.irq then 1#32 <<< UART_IRQ else 0
  let rtc : U32 := if b.rtc.irq then 1#32 <<< GOLDFISH_RTC_IRQ else 0
  b.virtio.zipIdx.foldl (fun p (dev, i) => if dev.irqPending then p ||| (1#32 <<< (VIRTIO_IRQ_BASE + i)) else p) (uart ||| rtc)

def refreshPlic (b : VirtBus) : VirtBus := { b with plic := { b.plic with pending := b.sources } }

/-- The hart's hardware lines. -/
def lines (b : VirtBus) : U64 :=
  (if !b.directSbi && decide (b.mtime ≥ b.mtimecmp) then IRQ_MTIP else 0) ||| (if b.msip then IRQ_MSIP else 0) |||
    (if b.refreshPlic.plic.pendingCtx 0 then IRQ_MEIP else 0) ||| (if b.refreshPlic.plic.pendingCtx 1 then IRQ_SEIP else 0)

/-! ## Host side of the serial port -/

def uartTake (b : VirtBus) : List U8 × VirtBus := (b.uart.txOut, { b with uart := { b.uart with txOut := [] } })

def uartInput (b : VirtBus) (bytes : List U8) : VirtBus := { b with uart := { b.uart with rx := b.uart.rx ++ bytes } }

/-! ## Virtio devices -/

/-- What a device reaches. -/
def dma (b : VirtBus) : Dma := ⟨b.ram.flat, b.jit, b.nextBlockRequestId⟩

def setDma (b : VirtBus) (m : Dma) : VirtBus :=
  { b with ram := { b.ram with mem := m.ram.mem }, jit := m.jit, nextBlockRequestId := m.nextBlockRequestId }

/-- Process a queue of a device. -/
def processQueue (b : VirtBus) (i qi : ℕ) : VirtBus :=
  match b.virtio[i]? with
  | none => b
  | some dev =>
    match dev.process b.passes qi b.dma with
    | none => { b with hung := true }
    | some (dev, m) => { b.setDma m with virtio := b.virtio.set i dev }

/-- Poll every queue: a synchronous device model can otherwise lose a notification. -/
def pollVirtio (b : VirtBus) : VirtBus :=
  (List.range b.virtio.length).foldl (fun b i => (b.processQueue i 0).processQueue i 1) b

/-! ## Device registers -/

/-- An address lies in a window. -/
def window (base size : ℕ) (addr : U64) : Option U64 :=
  if base ≤ addr.toNat ∧ addr.toNat < base + size then some (addr - BitVec.ofNat 64 base) else none

/-- Index and register of an address of the virtio window. -/
def virtioSlot (off : U64) : ℕ × U64 := (off.toNat / VIRTIO_SIZE, BitVec.ofNat 64 (off.toNat % VIRTIO_SIZE))

def clintRead (b : VirtBus) (off : U64) : U64 :=
  match off.toNat with
  | 0x0 => if b.msip then 1 else 0
  | 0x4000 => b.mtimecmp
  | 0xbff8 => b.mtime
  | _ => 0

def clintWrite (b : VirtBus) (off val : U64) : VirtBus :=
  match off.toNat with
  | 0x0 => { b with msip := val &&& 1 != 0 }
  | 0x4000 => { b with mtimecmp := val }
  | _ => b

def mmioRead (b : VirtBus) (addr : U64) (size : ℕ) : Option U64 × VirtBus :=
  match window TEST_BASE 0x1000 addr, window CLINT_BASE CLINT_SIZE addr, window PLIC_BASE PLIC_SIZE addr,
    window UART_BASE UART_SIZE addr, window GOLDFISH_RTC_BASE GOLDFISH_RTC_SIZE addr,
    window VIRTIO_BASE (VIRTIO_COUNT * VIRTIO_SIZE) addr with
  | some _, _, _, _, _, _ => (some 0, b)
  | _, some off, _, _, _, _ => (some (b.clintRead off), b)
  | _, _, some off, _, _, _ => (some ((b.plic.read off).1.setWidth 64), { b with plic := (b.plic.read off).2 })
  | _, _, _, some off, _, _ => (some ((b.uart.read off).1.setWidth 64), { b with uart := (b.uart.read off).2 })
  | _, _, _, _, some off, _ => (some ((b.rtc.read off).1.setWidth 64), { b with rtc := (b.rtc.read off).2 })
  | _, _, _, _, _, some off =>
    (b.virtio[(virtioSlot off).1]?.map fun dev => (dev.readSized (virtioSlot off).2 size).setWidth 64, b)
  | _, _, _, _, _, _ => (none, b)

/-- A register write to a virtio device; a notify processes the queue. -/
def virtioWrite (b : VirtBus) (i : ℕ) (off : U64) (val : U32) : VirtBus :=
  match b.virtio[i]? with
  | none => b
  | some dev =>
    match dev.write off val with
    | (none, dev) => { b with virtio := b.virtio.set i dev }
    | (some q, dev) => { b with virtio := b.virtio.set i dev }.processQueue i q.toNat

/-- Power off, reboot or failure. -/
def testWrite (b : VirtBus) (val : U64) : VirtBus :=
  let v := val &&& 0xffff
  if v = 0x5555 ∨ v = 0x7777 ∨ v = 0x3333 then { b with powerOff := true } else b

def mmioWrite (b : VirtBus) (addr val : U64) : Option VirtBus :=
  match window TEST_BASE 0x1000 addr, window CLINT_BASE CLINT_SIZE addr, window PLIC_BASE PLIC_SIZE addr,
    window UART_BASE UART_SIZE addr, window GOLDFISH_RTC_BASE GOLDFISH_RTC_SIZE addr,
    window VIRTIO_BASE (VIRTIO_COUNT * VIRTIO_SIZE) addr with
  | some _, _, _, _, _, _ => some (b.testWrite val)
  | _, some off, _, _, _, _ => some (b.clintWrite off val)
  | _, _, some off, _, _, _ => some { b with plic := b.plic.write off (val.setWidth 32) }
  | _, _, _, some off, _, _ => some { b with uart := b.uart.write off (val.setWidth 8) }
  | _, _, _, _, some off, _ => some { b with rtc := b.rtc.write off (val.setWidth 32) }
  | _, _, _, _, _, some off => some (b.virtioWrite (virtioSlot off).1 (virtioSlot off).2 (val.setWidth 32))
  | _, _, _, _, _, _ => none

/-! ## The bus -/

/-- A value cut to a width. -/
def cut (w : Width) (val : U64) : U64 := (val.setWidth (8 * w.bytes)).setWidth 64

def storeRam (b : VirtBus) (off n : ℕ) (val : U64) : VirtBus :=
  { b with ram := { b.ram with mem := (b.ram.flat.writeBytes off n val).mem } }

def busRead (w : Width) (b : VirtBus) (addr : U64) : Except Exception U64 × VirtBus :=
  match b.ram.flat.offset addr w.bytes with
  | some off => (.ok (b.ram.flat.readBytes off w.bytes), b)
  | none =>
    match b.mmioRead addr w.bytes with
    | (some v, b) => (.ok (cut w v), b)
    | (none, b) => (.error (.loadAccessFault addr), b)

def busWrite (w : Width) (b : VirtBus) (addr val : U64) : Except Exception Unit × VirtBus :=
  let b := { b with jit := b.jit.noteStore addr }
  match b.ram.flat.offset addr w.bytes with
  | some off => (.ok (), b.storeRam off w.bytes val)
  | none =>
    match b.mmioWrite addr (cut w val) with
    | some b => (.ok (), b)
    | none => (.error (.storeAccessFault addr), b)

/-- Direct access for compiled code: pages that lie wholly in RAM, and for stores hold no compiled code. -/
def jitFastOff (b : VirtBus) (va pa : U64) (store : Bool) : Option U64 :=
  if pa < RAM_BASE ∨ pa ||| 0xfff ≥ RAM_BASE + BitVec.ofNat 64 b.ram.len then none
  else if store && b.jit.addressMarked pa then none
  else some (b.ram.ptr + (pa - RAM_BASE) - va)

instance : Bus VirtBus where
  read := busRead
  write := busWrite
  jitFastOff := jitFastOff
  fetch32IfSafe b addr := ((b.ram.flat.offset addr 4).map fun off => (b.ram.flat.readBytes off 4).setWidth 32, b)
  irqLines b := (b.lines, b.refreshPlic)

instance : RamBus VirtBus where
  ram b := b.ram.flat.byteAt
  read_ram w b addr h := by
    have hn : 0 < w.bytes := by cases w <;> decide
    change busRead w b addr = _
    unfold busRead
    rw [b.ram.flat.offset_eq addr hn, if_pos h]
    dsimp only
    rw [b.ram.flat.readBytes_eq addr h]
  write_ram w b addr val h := by
    have hn : 0 < w.bytes := by cases w <;> decide
    refine ⟨{ b with jit := b.jit.noteStore addr }.storeRam (addr - RAM_BASE).toNat w.bytes val, ?_, ?_⟩
    · change busWrite w b addr val = _
      unfold busWrite
      dsimp only
      rw [b.ram.flat.offset_eq addr hn, if_pos h]
      rfl
    · exact b.ram.flat.byteAt_writeBytes addr val hn h

instance : RefusingBus VirtBus where
  read_error w b addr e h := by
    change (busRead w b addr).1 = .error e at h
    unfold busRead at h
    cases ho : b.ram.flat.offset addr w.bytes with
    | some off =>
      rw [ho] at h
      cases h
    | none =>
      rw [ho] at h
      rcases hm : b.mmioRead addr w.bytes with ⟨_ | v, b'⟩
      · simp only [hm] at h
        exact (Except.error.inj h).symm
      · simp only [hm] at h
        cases h
  write_error w b addr val e h := by
    change (busWrite w b addr val).1 = .error e at h
    unfold busWrite at h
    dsimp only at h
    cases ho : b.ram.flat.offset addr w.bytes with
    | some off =>
      rw [ho] at h
      cases h
    | none =>
      rw [ho] at h
      rcases hm : mmioWrite { b with jit := b.jit.noteStore addr } addr (cut w val) with _ | b'
      · simp only [hm] at h
        exact (Except.error.inj h).symm
      · simp only [hm] at h
        cases h

end VirtBus
end Lish
