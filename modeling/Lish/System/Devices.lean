import Lish.Core.Arch
/-!
# Devices — interrupt controller, serial port and real-time clock

The registers of the platform's other devices, and the lines they raise.
-/
namespace Lish

/-! ## Interrupt controller -/

def PLIC_SOURCES : ℕ := 32
def PLIC_CONTEXTS : ℕ := 2
def UART_IRQ : ℕ := 10
def GOLDFISH_RTC_IRQ : ℕ := 11
/-- Virtio device `i` is source `VIRTIO_IRQ_BASE + i`. -/
def VIRTIO_IRQ_BASE : ℕ := 1

/-- Interrupt controller: context 0 is the hart's M-mode, context 1 its S-mode. -/
structure Plic where
  priority : ℕ → U32
  /-- Driven by the device lines. -/
  pending : U32
  enable : Fin 2 → U32
  threshold : Fin 2 → U32
  /-- In service: claimed and not yet completed. -/
  claimed : U32

namespace Plic

def new : Plic := ⟨fun _ => 0, 0, fun _ => 0, fun _ => 0, 0⟩

/-- Best claimable source for a context; 0 if none. -/
def best (p : Plic) (ctx : Fin 2) : ℕ :=
  let elig := p.pending &&& p.enable ctx &&& ~~~p.claimed
  ((List.range PLIC_SOURCES).foldl (fun (b : ℕ × U32) i =>
    if elig.getLsbD i ∧ p.priority i > p.threshold ctx ∧ p.priority i ≥ b.2 then (i, p.priority i) else b) (0, 0)).1

/-- Does a context have a deliverable external interrupt? -/
def pendingCtx (p : Plic) (ctx : Fin 2) : Bool := p.best ctx != 0

/-- The context of a register block. -/
def context (n : ℕ) : Option (Fin 2) := if h : n < PLIC_CONTEXTS then some ⟨n, h⟩ else none

def read (p : Plic) (off : U64) : U32 × Plic :=
  let n := off.toNat
  if n ≤ 0xfff then (if n / 4 < PLIC_SOURCES then p.priority (n / 4) else 0, p)
  else if n = 0x1000 then (p.pending, p)
  else if n = 0x1004 then (0, p)
  else if 0x2000 ≤ n ∧ n < 0x2000 + PLIC_CONTEXTS * 0x80 then
    match context ((n - 0x2000) / 0x80) with
    | some ctx => (if (n - 0x2000) % 0x80 = 0 then p.enable ctx else 0, p)
    | none => (0, p)
  else if n ≥ 0x200000 then
    match context ((n - 0x200000) / 0x1000) with
    | none => (0, p)
    | some ctx =>
      match (n - 0x200000) % 0x1000 with
      | 0 => (p.threshold ctx, p)
      | 4 =>
        let id := p.best ctx
        (BitVec.ofNat 32 id, if id ≠ 0 then { p with claimed := p.claimed ||| (1#32 <<< id) } else p)
      | _ => (0, p)
  else (0, p)

def write (p : Plic) (off : U64) (val : U32) : Plic :=
  let n := off.toNat
  if n ≤ 0xfff then
    if n / 4 ≠ 0 ∧ n / 4 < PLIC_SOURCES then { p with priority := fun i => if i = n / 4 then val else p.priority i } else p
  else if 0x2000 ≤ n ∧ n < 0x2000 + PLIC_CONTEXTS * 0x80 then
    match context ((n - 0x2000) / 0x80) with
    | some ctx =>
      -- source 0 is never enabled
      if (n - 0x2000) % 0x80 = 0 then { p with enable := fun i => if i = ctx then val &&& ~~~1 else p.enable i } else p
    | none => p
  else if n ≥ 0x200000 then
    match context ((n - 0x200000) / 0x1000) with
    | none => p
    | some ctx =>
      match (n - 0x200000) % 0x1000 with
      | 0 => { p with threshold := fun i => if i = ctx then val else p.threshold i }
      | 4 => if val.toNat < PLIC_SOURCES then { p with claimed := p.claimed &&& ~~~(1#32 <<< val.toNat) } else p
      | _ => p
  else p

end Plic

/-! ## Serial port -/

/-- Minimal ns16550. -/
structure Uart where
  /-- Interrupt enable. -/
  ier : U8
  lcr : U8
  mcr : U8
  scr : U8
  rx : List U8
  txOut : List U8
  /-- Transmitter-empty interrupt pending. -/
  threIp : Bool

namespace Uart

def new : Uart := ⟨0, 0, 0, 0, [], [], false⟩

def dlab (u : Uart) : Bool := u.lcr &&& 0x80 != 0

def read (u : Uart) (off : U64) : U8 × Uart :=
  match off.toNat with
  | 0 => if u.dlab then (0, u) else (u.rx.headD 0, { u with rx := u.rx.tail })
  | 1 => (if u.dlab then 0 else u.ier, u)
  | 2 =>
    if u.ier &&& 1 ≠ 0 ∧ u.rx ≠ [] then (0xc4, u)
    else if u.threIp then (0xc2, { u with threIp := false })
    else (0xc1, u)
  | 3 => (u.lcr, u)
  | 4 => (u.mcr, u)
  | 5 => (if u.rx ≠ [] then 0x61 else 0x60, u)
  | 6 => (0xb0, u)
  | 7 => (u.scr, u)
  | _ => (0, u)

def write (u : Uart) (off : U64) (val : U8) : Uart :=
  match off.toNat with
  | 0 => if u.dlab then u else { u with txOut := u.txOut ++ [val], threIp := u.threIp || u.ier &&& 2 != 0 }
  | 1 => if u.dlab then u else { u with ier := val, threIp := u.threIp || (val &&& 2 != 0 && u.ier &&& 2 == 0) }
  | 3 => { u with lcr := val }
  | 4 => { u with mcr := val }
  | 7 => { u with scr := val }
  | _ => u

/-- The interrupt line: received data, or transmitter empty. -/
def irq (u : Uart) : Bool := (u.ier &&& 1 != 0 && !u.rx.isEmpty) || u.threIp

end Uart

/-! ## Real-time clock -/

/-- Goldfish real-time clock: the host's Unix time, with the guest's adjustment and one alarm. -/
structure GoldfishRtc where
  hostNs : U64
  guestOffsetNs : ℤ
  latchedTimeHigh : U32
  writeTimeHigh : U32
  alarmHigh : U32
  alarmNs : U64
  alarmArmed : Bool
  irqEnabled : Bool
  irqPending : Bool

namespace GoldfishRtc

def new : GoldfishRtc := ⟨0, 0, 0, 0, 0, 0, false, false, false⟩

/-- The time of the guest, clamped to 64 bits. -/
def timeNs (r : GoldfishRtc) : U64 := BitVec.ofNat 64 (min (r.hostNs.toNat + r.guestOffsetNs).toNat (2 ^ 64 - 1))

def updateAlarm (r : GoldfishRtc) : GoldfishRtc :=
  if r.alarmArmed ∧ r.irqEnabled ∧ r.timeNs ≥ r.alarmNs then { r with alarmArmed := false, irqPending := true } else r

def setHostTimeNs (r : GoldfishRtc) (ns : U64) : GoldfishRtc := { r with hostNs := ns }.updateAlarm

/-- Reading the low word latches the high one. -/
def read (r : GoldfishRtc) (off : U64) : U32 × GoldfishRtc :=
  match off.toNat with
  | 0x00 => (r.timeNs.setWidth 32, { r with latchedTimeHigh := (r.timeNs >>> 32).setWidth 32 })
  | 0x04 => (r.latchedTimeHigh, r)
  | 0x08 => (r.alarmNs.setWidth 32, r)
  | 0x0c => ((r.alarmNs >>> 32).setWidth 32, r)
  | 0x10 => (if r.irqEnabled then 1 else 0, r)
  | 0x18 => (if r.alarmArmed then 1 else 0, r)
  | _ => (0, r)

/-- The high word is written first; the low one commits. -/
def write (r : GoldfishRtc) (off : U64) (val : U32) : GoldfishRtc :=
  match off.toNat with
  | 0x04 => { r with writeTimeHigh := val }
  | 0x00 =>
    let requested := r.writeTimeHigh.setWidth 64 <<< 32 ||| val.setWidth 64
    { r with guestOffsetNs := (requested.toNat : ℤ) - r.hostNs.toNat }.updateAlarm
  | 0x0c => { r with alarmHigh := val }
  | 0x08 => { r with alarmNs := r.alarmHigh.setWidth 64 <<< 32 ||| val.setWidth 64, alarmArmed := true }.updateAlarm
  | 0x10 => { r with irqEnabled := val != 0 }.updateAlarm
  | 0x14 => { r with alarmArmed := false, irqPending := false }
  | 0x1c => { r with irqPending := false }
  | _ => r

def irq (r : GoldfishRtc) : Bool := r.irqPending

end GoldfishRtc
end Lish
