import Lish.Core.Exec
import Lish.System.CodeCache
import Lish.System.VirtBus
/-!
# VirtMachine — the machine: clock, host calls and slices

The hart with its bus, run in slices by an interpreter.  Three clocks make the guest's time: retired instructions, ticks
slept in WFI, and the host's clock once it is used.
-/
namespace Lish

def RTC_FREQ : ℕ := 10000000
def KERNEL_OFFSET : U64 := 0x200000
def INTERPRETER_SYNC_INTERVAL : U64 := 64

structure VirtMachine where
  hart : Machine VirtBus
  codeCache : CodePageCache
  insnsPerTick : U64
  /-- Ticks accrued while the hart was halted in WFI. -/
  idleTicks : U64
  /-- Ticks of the host's clock, once it is used. -/
  realtimeTicks : Option U64
  powerOff : Bool
  unsupportedSbi : Option (U64 × U64)

namespace VirtMachine

/-- A machine at reset, with its images in RAM: the device tree and the firmware information at their addresses. -/
def new (ram : GuestRam) (virtio : List VirtioDev) (directSbi : Bool) (dtbAddr dynAddr : U64) (passes : ℕ) : VirtMachine where
  hart := {
    cpu :=
      let c := Cpu.new.enableSystem 0
      let c := { c with
        pc := if directSbi then RAM_BASE + KERNEL_OFFSET else RAM_BASE
        x := fun r => if r = 11 then dtbAddr else if r = 12 then dynAddr else 0 }
      if directSbi then
        { (c.modifySys fun s => { s with
            mode := .supervisor, medeleg := 0xb109, mideleg := IRQ_SSIP ||| IRQ_STIP ||| IRQ_SEIP, mcounteren := 7,
            satp := 0 }).refreshJitTlbContext with hostSbi := true }
      else c
    bus := {
      ram := ram
      mtime := 0
      mtimecmp := BitVec.allOnes 64
      msip := false
      rtc := .new
      plic := .new
      uart := .new
      virtio := virtio
      powerOff := false
      directSbi := directSbi
      jit := .new ram.len
      nextBlockRequestId := 1
      passes := passes
      hung := false } }
  codeCache := .new
  insnsPerTick := 100
  idleTicks := 0
  realtimeTicks := none
  powerOff := false
  unsupportedSbi := none

def mapBus (m : VirtMachine) (g : VirtBus → VirtBus) : VirtMachine := { m with hart := { m.hart with bus := g m.hart.bus } }

def mapCpu (m : VirtMachine) (g : Cpu → Cpu) : VirtMachine := { m with hart := { m.hart with cpu := g m.hart.cpu } }

/-! ## Time -/

/-- The time the hart reads. -/
def visibleTime (m : VirtMachine) : U64 :=
  match m.hart.cpu.sys with
  | none => m.hart.bus.mtime
  | some s => if s.timeScale = 0 then s.mtime else m.hart.cpu.insnCount / s.timeScale + s.timeOffset

/-- Enable or advance the host's clock by a duration. -/
def advanceRealtimeNs (m : VirtMachine) (ns : U64) : VirtMachine :=
  let ticks := BitVec.ofNat 64 (ns.toNat * RTC_FREQ / 1000000000)
  let wall := m.realtimeTicks.getD 0
  { m with realtimeTicks := some (if wall.toNat + ticks.toNat < 2 ^ 64 then wall + ticks else BitVec.allOnes 64) }

def later (a b : U64) : U64 := if a ≤ b then b else a

/-- The clock at the next sync: once the host's clock is used, it never falls behind what the guest has seen. -/
def nextMtime (m : VirtMachine) : U64 :=
  match m.realtimeTicks with
  | some wall => later (later m.hart.bus.mtime wall) m.visibleTime
  | none => m.hart.cpu.insnCount / m.insnsPerTick + m.idleTicks

/-- The supervisor timer interrupt of direct SBI follows the comparator. -/
def setStip (b : VirtBus) (s : SysCsrs) : SysCsrs :=
  { s with mip := if b.mtime ≥ b.mtimecmp then s.mip ||| IRQ_STIP else s.mip &&& ~~~IRQ_STIP }

/-- Scale and offset of the hart's time between syncs: a zero scale freezes it. -/
def interpolation (m : VirtMachine) (mtime : U64) : U64 × U64 :=
  let instructionTicks := m.hart.cpu.insnCount / m.insnsPerTick
  let wallCaughtUp : Bool := m.realtimeTicks.all fun wall => decide (mtime ≤ wall)
  if wallCaughtUp ∧ instructionTicks ≤ mtime then (m.insnsPerTick, mtime - instructionTicks) else (0, 0)

def syncDevices (m : VirtMachine) : VirtMachine :=
  let mtime := m.nextMtime
  let (scale, offset) := m.interpolation mtime
  let m := m.mapBus fun b => { b with mtime := mtime }
  m.mapCpu fun c => c.modifySys fun s =>
    let s := { s with mtime := mtime, timeScale := scale, timeOffset := offset }
    if m.hart.bus.directSbi then setStip m.hart.bus s else s

/-- Poll the devices and synchronize before a dispatch of compiled code. -/
def syncJitDevices (m : VirtMachine) : VirtMachine :=
  let m := (m.mapBus VirtBus.pollVirtio).syncDevices
  { m with powerOff := m.powerOff || m.hart.bus.powerOff }

/-! ## The host side of the devices -/

def consoleInput (m : VirtMachine) (bytes : List U8) : VirtMachine := m.mapBus fun b => b.uartInput bytes

def isNet (d : VirtioDev) : Bool := d.deviceId == 1

/-- Deliver a frame to the network device. -/
def netInput (m : VirtMachine) (frame : List U8) : VirtMachine :=
  m.mapBus fun b => match b.virtio.findIdx? isNet with
    | some i => { b with virtio := b.virtio.modify i fun d => d.netInput frame }
    | none => b

/-- Collect the frames the guest has sent. -/
def netTakeOutput (m : VirtMachine) : VirtMachine :=
  m.mapBus fun b => match b.virtio.findIdx? isNet with
    | some i => { b with virtio := b.virtio.modify i fun d => d.netTakeOutput.2 }
    | none => b

def pendingBlockRequest (m : VirtMachine) : Option PendingBlockRequest :=
  m.hart.bus.virtio.findSome? VirtioDev.pendingBlockRequest

/-- Complete the request of the first device that has one. -/
def completeBlockRequest (m : VirtMachine) (id : U64) (data : List U8) (ok : Bool) : Bool × VirtMachine :=
  let b := m.hart.bus
  match b.virtio.findIdx? (·.pendingBlockRequest.isSome) with
  | none => (false, m)
  | some i =>
    match b.virtio[i]? with
    | none => (false, m)
    | some dev =>
      let (done, dev, dma) := dev.completeBlockRequest id data ok b.dma
      let m := m.mapBus fun b => { b.setDma dma with virtio := b.virtio.set i dev }
      (done, if done then m.syncDevices else m)

def setRtcUnixNs (m : VirtMachine) (ns : U64) : VirtMachine := m.mapBus fun b => { b with rtc := b.rtc.setHostTimeNs ns }

/-! ## Supervisor calls -/

def SBI_NOT_SUPPORTED : U64 := -2
def SBI_INVALID_PARAM : U64 := -3
def SBI_ALREADY_STARTED : U64 := -7
@[match_pattern] def SBI_BASE : ℕ := 0x10
@[match_pattern] def SBI_TIME : ℕ := 0x54494d45
@[match_pattern] def SBI_IPI : ℕ := 0x00735049
@[match_pattern] def SBI_RFENCE : ℕ := 0x52464e43
@[match_pattern] def SBI_HSM : ℕ := 0x48534d
@[match_pattern] def SBI_SRST : ℕ := 0x53525354

/-- A new deadline replaces the old one, and its interrupt. -/
def setTimer (m : VirtMachine) (deadline : U64) : VirtMachine :=
  let m := m.mapBus fun b => { b with mtimecmp := deadline }
  m.mapCpu fun c => c.modifySys (setStip m.hart.bus)

def sbiPowerOff (m : VirtMachine) : VirtMachine := { m.mapBus fun b => { b with powerOff := true } with powerOff := true }

def bumpIcacheGen (m : VirtMachine) : VirtMachine := m.mapCpu fun c => { c with icacheGen := c.icacheGen + 1 }

/-- The call of an extension and function: error, value and the machine after it. -/
def sbiCall (m : VirtMachine) (ext function arg0 arg1 : U64) : U64 × U64 × VirtMachine :=
  match ext.toNat, function.toNat with
  | SBI_BASE, 0 => (0, 2 <<< 24, m)
  | SBI_BASE, 1 => (0, 0x52563634, m)
  | SBI_BASE, 2 => (0, 1, m)
  | SBI_BASE, 3 =>
    (0, if [SBI_BASE, SBI_TIME, SBI_IPI, SBI_RFENCE, SBI_HSM, SBI_SRST].contains arg0.toNat then 1 else 0, m)
  | SBI_BASE, 4 | SBI_BASE, 5 => (0, 0, m)
  | SBI_BASE, 6 => (0, 1, m)
  | SBI_TIME, 0 => (0, 0, m.setTimer arg0)
  | SBI_IPI, 0 => (if arg1 ≠ 0 ∧ arg1 ≠ BitVec.allOnes 64 then SBI_INVALID_PARAM else 0, 0, m)
  | SBI_RFENCE, 0 => (0, 0, m.bumpIcacheGen)
  | SBI_RFENCE, 1 | SBI_RFENCE, 2 | SBI_RFENCE, 3 | SBI_RFENCE, 4 | SBI_RFENCE, 5 | SBI_RFENCE, 6 => (0, 0, m)
  | SBI_HSM, 0 => (SBI_ALREADY_STARTED, 0, m)
  | SBI_HSM, 1 => (SBI_INVALID_PARAM, 0, m)
  | SBI_HSM, 2 => (if arg0 = 0 then 0 else SBI_INVALID_PARAM, 0, m)
  | SBI_HSM, 3 => (SBI_NOT_SUPPORTED, 0, m)
  | SBI_SRST, 0 => if arg0 ≤ 2 then (0, 0, m.sbiPowerOff) else (SBI_INVALID_PARAM, 0, m)
  -- SBI 0.1
  | 0, _ => (0, 0, m.setTimer arg0)
  | 1, _ => (0, 0, m.mapBus fun b => { b with uart := b.uart.write 0 (arg0.setWidth 8) })
  | 2, _ => (0, BitVec.allOnes 64, m)
  | 5, _ => (0, 0, m.bumpIcacheGen)
  | 3, _ | 4, _ | 6, _ | 7, _ => (0, 0, m)
  | 8, _ => (0, 0, m.sbiPowerOff)
  | _, _ => (SBI_NOT_SUPPORTED, 0, { m with unsupportedSbi := some (ext, function) })

def serviceSbi (m : VirtMachine) : VirtMachine :=
  let x := m.hart.cpu.x
  let (error, value, m) := m.sbiCall (x 17) (x 16) (x 10) (x 11)
  m.mapCpu fun c => { c with x := fun r => if r = 10 then error else if r = 11 then value else c.x r }

end VirtMachine
end Lish
