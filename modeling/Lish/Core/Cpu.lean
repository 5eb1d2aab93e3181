import Lish.Core.Bus
/-!
# Cpu — the hart: registers, TLB rows, traps and CSRs

Everything the hart does without its bus, and address translation.  The TLB rows are direct-mapped: a row is indexed by
the low twelve bits of the virtual page number, and a tag is the whole page number under the permission context.
-/
namespace Lish

def tlbSize : ℕ := 4096
def TLB_INVALID : U64 := BitVec.allOnes 64
def TLB_VPN_BITS : ℕ := 52
def TLB_VPN_MASK : U64 := (1#64 <<< TLB_VPN_BITS) - 1
def TLB_CONTEXT_SHIFT : ℕ := TLB_VPN_BITS
def MAP_GENERATION_MASK : U64 := 0xffffffff
def IRQ_POLL_INTERVAL : U32 := 32

/-- Memory access type, for translation and fault selection; its value is the TLB row. -/
inductive Access
  | fetch | load | store
  deriving DecidableEq, Repr

def Access.row : Access → Fin 3
  | fetch => 0
  | load => 1
  | store => 2

/-- The fused JIT-TLB row of a load or a store. -/
def jitRow (store : Bool) : Fin 2 := if store then 1 else 0

/-- Direct-mapped rows. -/
abbrev TlbRows (rows : ℕ) := Fin rows → Fin tlbSize → U64

def TlbRows.set {rows : ℕ} (t : TlbRows rows) (row : Fin rows) (idx : Fin tlbSize) (v : U64) : TlbRows rows :=
  fun r i => if r = row ∧ i = idx then v else t r i

/-- RV64 hart state. -/
structure Cpu where
  x : Fin 32 → U64
  pc : U64
  /-- Retired instruction count. -/
  insnCount : U64
  /-- LR/SC reservation address. -/
  reservation : Option U64
  /-- Ring of the last user ecalls (a7, satp). -/
  syscallLog : Fin 64 → U64 × U64
  syscallLogPos : Fin 64
  f : Fin 32 → U64
  fcsr : U32
  sys : Option SysCsrs
  hostSbi : Bool
  excCounts : Fin 16 → U64
  irqCounts : Fin 16 → U64
  jitFlushGen : U64
  icacheGen : U64
  irqPollCd : U32
  /-- Low half: the mapping generation; high bits: the permission context compiled code reads. -/
  mapGen : U64
  tlbTag : TlbRows 3
  tlbDiff : TlbRows 3
  jtlbTag : TlbRows 2
  jtlbOff : TlbRows 2

namespace Cpu

def new : Cpu where
  x := fun _ => 0
  pc := 0
  insnCount := 0
  reservation := none
  syscallLog := fun _ => (BitVec.allOnes 64, 0)
  syscallLogPos := 0
  f := fun _ => 0
  fcsr := 0
  sys := none
  hostSbi := false
  excCounts := fun _ => 0
  irqCounts := fun _ => 0
  jitFlushGen := 0
  icacheGen := 0
  irqPollCd := 0
  mapGen := 0
  tlbTag := fun _ _ => TLB_INVALID
  tlbDiff := fun _ _ => 0
  jtlbTag := fun _ _ => TLB_INVALID
  jtlbOff := fun _ _ => 0

/-! ## Registers -/

def wr (c : Cpu) (rd : Fin 32) (v : U64) : Cpu :=
  if rd ≠ 0 then { c with x := fun r => if r = rd then v else c.x r } else c

def setF (c : Cpu) (rd : Fin 32) (v : U64) : Cpu := { c with f := fun r => if r = rd then v else c.f r }

/-- FP instructions are illegal while mstatus.FS = Off. -/
def fpOff (c : Cpu) : Bool :=
  match c.sys with
  | some sys => sys.mstatus &&& MSTATUS_FS = 0
  | none => false

def modifySys (c : Cpu) (g : SysCsrs → SysCsrs) : Cpu := { c with sys := c.sys.map g }

/-- Mark FP state dirty after FP execution. -/
def fpDirty (c : Cpu) : Cpu := c.modifySys fun s => { s with mstatus := s.mstatus ||| MSTATUS_FS }

/-! ## Translation context -/

/-- Data accesses under MPRV use the mode in MPP. -/
def dataMode (s : SysCsrs) : Mode :=
  if s.mstatus &&& MSTATUS_MPRV ≠ 0 then Mode.fromBits ((s.mstatus &&& MSTATUS_MPP) >>> 11) else s.mode

/-- Effective privilege for data accesses or fetch. -/
def effMode (s : SysCsrs) (access : Access) : Mode :=
  if access ≠ .fetch ∧ s.mstatus &&& MSTATUS_MPRV ≠ 0 then Mode.fromBits ((s.mstatus &&& MSTATUS_MPP) >>> 11) else s.mode

def translationContext (c : Cpu) : U64 :=
  match c.sys with
  | none => 0
  | some s =>
    let sum : U64 := if s.mstatus &&& MSTATUS_SUM ≠ 0 then 1 else 0
    let mxr : U64 := if s.mstatus &&& MSTATUS_MXR ≠ 0 then 1 else 0
    s.mode.bits ||| ((dataMode s).bits <<< 2) ||| (sum <<< 4) ||| (mxr <<< 5)

def translationTag (c : Cpu) (va : U64) : U64 :=
  ((va >>> 12) &&& TLB_VPN_MASK) ||| (c.translationContext <<< TLB_CONTEXT_SHIFT)

def refreshJitTlbContext (c : Cpu) : Cpu :=
  { c with mapGen := (c.mapGen &&& MAP_GENERATION_MASK) ||| (c.translationContext <<< TLB_CONTEXT_SHIFT) }

/-- Permission-context bits for compiled data accesses. -/
def jitTlbContextTag (c : Cpu) : U64 := c.mapGen &&& ~~~TLB_VPN_MASK

def bumpMapGeneration (c : Cpu) : Cpu :=
  { c with mapGen := (c.mapGen &&& ~~~MAP_GENERATION_MASK) ||| ((c.mapGen + 1) &&& MAP_GENERATION_MASK) }

/-- Enable full-system mode: the hart resets to M-mode. -/
def enableSystem (c : Cpu) (hartid : U64) : Cpu :=
  { c with sys := some { SysCsrs.new with mhartid := hartid } }.refreshJitTlbContext

/-! ## TLB maintenance -/

def tlbIndex (va : U64) : Fin tlbSize := ((va >>> 12).extractLsb' 0 12).toFin

def flushTlb (c : Cpu) : Cpu := { c with tlbTag := fun _ _ => TLB_INVALID, jtlbTag := fun _ _ => TLB_INVALID }

/-- One entry as `flushTlbPage` leaves it. -/
def dropPage (vpn tag : U64) : U64 := if tag ≠ TLB_INVALID ∧ tag &&& TLB_VPN_MASK = vpn then TLB_INVALID else tag

/-- Invalidate every access class for one virtual page, in every permission context. -/
def flushTlbPage (c : Cpu) (va : U64) : Cpu :=
  let vpn := (va >>> 12) &&& TLB_VPN_MASK
  let index := tlbIndex va
  { c with
    tlbTag := fun r i => if i = index then dropPage vpn (c.tlbTag r i) else c.tlbTag r i
    jtlbTag := fun r i => if i = index then dropPage vpn (c.jtlbTag r i) else c.jtlbTag r i }

/-- The physical page the TLB row of stores maps the page of a tag to. -/
def mappedPage (c : Cpu) (i : Fin tlbSize) (tag : U64) : U64 :=
  (((tag &&& TLB_VPN_MASK) <<< 12) + c.tlbDiff Access.store.row i) &&& ~~~(0xfff : U64)

/-- A fused store row maps a physical page. -/
def mapsPage (c : Cpu) (pa : U64) (i : Fin tlbSize) : Bool :=
  let tag := c.jtlbTag 1 i
  tag != TLB_INVALID && c.tlbTag Access.store.row i == tag && c.mappedPage i tag == pa &&& ~~~(0xfff : U64)

/-- Invalidate fused store translations of one physical code page, and those the TLB row does not vouch for; how many of the
former. -/
def invalidateStoreJtlbPage (c : Cpu) (pa : U64) : ℕ × Cpu :=
  ((List.finRange tlbSize).countP (c.mapsPage pa), { c with
    jtlbTag := fun r i =>
      if r = 1 ∧ (c.tlbTag Access.store.row i ≠ c.jtlbTag 1 i ∨ c.mapsPage pa i) then TLB_INVALID else c.jtlbTag r i })

/-! ## Traps -/

/-- Record a trap: the ring of user ecalls and the counters. -/
def countTrap (c : Cpu) (cause : U64) (isInterrupt : Bool) : Cpu :=
  let c :=
    if !isInterrupt && cause == 8 then
      { c with
        syscallLog := fun i => if i = c.syscallLogPos then (c.x 17, (c.sys.map (·.satp)).getD 0) else c.syscallLog i
        syscallLogPos := c.syscallLogPos + 1 }
    else c
  let n : Fin 16 := (cause.extractLsb' 0 4).toFin
  if isInterrupt then { c with irqCounts := fun i => if i = n then c.irqCounts i + 1 else c.irqCounts i }
  else { c with excCounts := fun i => if i = n then c.excCounts i + 1 else c.excCounts i }

/-- The trap is delegated to supervisor mode. -/
def delegated (s : SysCsrs) (cause : U64) (isInterrupt : Bool) : Bool :=
  let deleg := if isInterrupt then s.mideleg else s.medeleg
  let bit : U64 := 1#64 <<< (cause &&& 63).toNat
  s.mode ≠ .machine ∧ deleg &&& bit ≠ 0

/-- The handler address; only interrupts are vectored. -/
def trapVector (tvec cause : U64) (isInterrupt : Bool) : U64 :=
  let base := tvec &&& ~~~3
  if tvec &&& 3 = 1 ∧ isInterrupt then base + 4 * cause else base

/-- The trap as supervisor mode sees it. -/
def trapToS (s : SysCsrs) (pc causeVal tval : U64) : SysCsrs :=
  let sie := (s.mstatus >>> 1) &&& 1
  { s with
    scause := causeVal
    stval := tval
    sepc := pc
    mstatus := (s.mstatus &&& ~~~(MSTATUS_SPIE ||| MSTATUS_SPP ||| MSTATUS_SIE)) ||| (sie <<< 5) |||
      (if s.mode = .supervisor then MSTATUS_SPP else 0)
    mode := .supervisor }

/-- The trap as machine mode sees it. -/
def trapToM (s : SysCsrs) (pc causeVal tval : U64) : SysCsrs :=
  let mie := (s.mstatus >>> 3) &&& 1
  { s with
    mcause := causeVal
    mtval := tval
    mepc := pc
    mstatus := (s.mstatus &&& ~~~(MSTATUS_MPIE ||| MSTATUS_MPP ||| MSTATUS_MIE)) ||| (mie <<< 7) ||| (s.mode.bits <<< 11)
    mode := .machine }

/-- Enter the trap handler for an exception or interrupt. -/
def takeTrap (c : Cpu) (cause tval : U64) (isInterrupt : Bool) : Cpu :=
  let c := { c with irqPollCd := 0, reservation := none }.countTrap cause isInterrupt
  match c.sys with
  | none => c
  | some s =>
    let causeVal := if isInterrupt then (1#64 <<< 63) ||| cause else cause
    let c :=
      if delegated s cause isInterrupt then
        { c with sys := some (trapToS s c.pc causeVal tval), pc := trapVector s.stvec cause isInterrupt }
      else { c with sys := some (trapToM s c.pc causeVal tval), pc := trapVector s.mtvec cause isInterrupt }
    c.refreshJitTlbContext

/-- Cause and trap value of an exception. -/
def causeOf (c : Cpu) (e : Exception) : U64 × U64 :=
  match e with
  | .instructionAddressMisaligned addr => (0, addr)
  | .instructionAccessFault addr => (1, addr)
  | .illegalInstruction insn => (2, insn.setWidth 64)
  | .breakpoint => (3, c.pc)
  | .loadAddressMisaligned addr => (4, addr)
  | .loadAccessFault addr => (5, addr)
  | .storeAddressMisaligned addr => (6, addr)
  | .storeAccessFault addr => (7, addr)
  | .environmentCallFromUMode => (8, 0)
  | .environmentCallFromSMode => (9, 0)
  | .environmentCallFromMMode => (11, 0)
  | .instructionPageFault addr => (12, addr)
  | .loadPageFault addr => (13, addr)
  | .storePageFault addr => (15, addr)

/-- The state change of MRET, once allowed. -/
def mret (c : Cpu) : Cpu :=
  (c.modifySys fun s =>
    let mpp := Mode.fromBits ((s.mstatus &&& MSTATUS_MPP) >>> 11)
    let mpie := (s.mstatus >>> 7) &&& 1
    let mstatus := (s.mstatus &&& ~~~(MSTATUS_MIE ||| MSTATUS_MPIE ||| MSTATUS_MPP)) ||| (mpie <<< 3) ||| MSTATUS_MPIE
    { s with mstatus := if mpp ≠ .machine then mstatus &&& ~~~MSTATUS_MPRV else mstatus, mode := mpp }).refreshJitTlbContext

/-- The state change of SRET, once allowed. -/
def sret (c : Cpu) : Cpu :=
  (c.modifySys fun s =>
    let spp : Mode := if s.mstatus &&& MSTATUS_SPP ≠ 0 then .supervisor else .user
    let spie := (s.mstatus >>> 5) &&& 1
    let mstatus := (s.mstatus &&& ~~~(MSTATUS_SIE ||| MSTATUS_SPIE ||| MSTATUS_SPP)) ||| (spie <<< 1) ||| MSTATUS_SPIE
    { s with mstatus := if spp ≠ .machine then mstatus &&& ~~~MSTATUS_MPRV else mstatus, mode := spp }).refreshJitTlbContext

/-! ## CSRs -/

/-- Read a CSR; none = unimplemented (traps as illegal instruction). -/
def csrRead (c : Cpu) (csr : ℕ) : Option U64 :=
  if c.sys.any (fun s => decide ((csr >>> 8) % 4 > s.mode.level)) then none
  else match csr with
  | FFLAGS => some ((c.fcsr &&& 0x1f).setWidth 64)
  | FRM => some (((c.fcsr >>> 5) &&& 7).setWidth 64)
  | FCSR => some (c.fcsr.setWidth 64)
  | CYCLE | INSTRET | MCYCLE | MINSTRET => some (c.insnCount + (c.sys.map (·.minstretOff)).getD 0)
  | TIME => some (match c.sys with
    | none => c.insnCount
    | some s => if s.timeScale = 0 then s.mtime else c.insnCount / s.timeScale + s.timeOffset)
  | csr =>
    if 0x3a0 ≤ csr ∧ csr ≤ 0x3af ∧ csr % 2 = 0 then c.sys.map fun s => s.pmpcfg (Fin.ofNat 8 ((csr - 0x3a0) / 2))
    else if 0x3b0 ≤ csr ∧ csr ≤ 0x3ef then c.sys.map fun s => s.pmpaddr (Fin.ofNat 64 (csr - 0x3b0))
    else match c.sys with
    | none => none
    | some s =>
      -- SD summarizes FS
      let mstatus := if s.mstatus &&& MSTATUS_FS = MSTATUS_FS then s.mstatus ||| MSTATUS_SD else s.mstatus
      match csr with
      | SSTATUS => some (mstatus &&& SSTATUS_MASK)
      | SIE => some (s.mie &&& s.mideleg)
      | STVEC => some s.stvec
      | SCOUNTEREN => some s.scounteren
      | SSCRATCH => some s.sscratch
      | SEPC => some s.sepc
      | SCAUSE => some s.scause
      | STVAL => some s.stval
      | SIP => some (s.mip &&& s.mideleg)
      | SATP => if s.mode = .supervisor ∧ s.mstatus &&& MSTATUS_TVM ≠ 0 then none else some s.satp
      | 0x7a0 => some 1
      | 0x7a1 | 0x7a2 | 0x7a3 | 0x7a5 => some 0
      | MSTATUS => some mstatus
      | MISA => some MISA_VALUE
      | MEDELEG => some s.medeleg
      | MIDELEG => some s.mideleg
      | MIE => some s.mie
      | MTVEC => some s.mtvec
      | MCOUNTEREN => some s.mcounteren
      | MSCRATCH => some s.mscratch
      | MEPC => some s.mepc
      | MCAUSE => some s.mcause
      | MTVAL => some s.mtval
      | MIP => some s.mip
      | MVENDORID | MARCHID | MIMPID => some 0
      | MHARTID => some s.mhartid
      | _ => none

def sstatusWritable : U64 := MSTATUS_SIE ||| MSTATUS_SPIE ||| MSTATUS_SPP ||| MSTATUS_FS ||| MSTATUS_SUM ||| MSTATUS_MXR

def mstatusWritable : U64 :=
  MSTATUS_SIE ||| MSTATUS_MIE ||| MSTATUS_SPIE ||| MSTATUS_MPIE ||| MSTATUS_SPP ||| MSTATUS_MPP ||| MSTATUS_FS |||
    MSTATUS_MPRV ||| MSTATUS_SUM ||| MSTATUS_MXR ||| MSTATUS_TVM ||| MSTATUS_TW ||| MSTATUS_TSR

/-- The write to satp, once allowed: bare, sv39 and sv48 are accepted. -/
def writeSatp (c : Cpu) (s : SysCsrs) (v : U64) : Cpu :=
  let mode := v >>> 60
  if mode = 0 ∨ mode = 8 ∨ mode = 9 then
    let changed := s.satp ≠ v
    let c := { c with sys := some { s with satp := v } }.flushTlb
    if changed then { c with jitFlushGen := c.jitFlushGen + 1 }.bumpMapGeneration else c
  else c

/-- A write to a register of the privileged state, absent outside full-system mode. -/
def putSys (c : Cpu) (g : SysCsrs → SysCsrs) : Cpu × Bool :=
  match c.sys with
  | none => (c, false)
  | some s => ({ c with sys := some (g s) }, true)

/-- A write to mstatus through a mask changes the permission context. -/
def putStatus (c : Cpu) (writable v : U64) : Cpu × Bool :=
  let (c, ok) := c.putSys fun s => { s with mstatus := (s.mstatus &&& ~~~writable) ||| (v &&& writable) }
  (if ok then c.refreshJitTlbContext else c, ok)

/-- satp is writable but for supervisor mode under TVM. -/
def putSatp (c : Cpu) (v : U64) : Cpu × Bool :=
  match c.sys with
  | none => (c, false)
  | some s => if s.mode = .supervisor ∧ s.mstatus &&& MSTATUS_TVM ≠ 0 then (c, false) else (c.writeSatp s v, true)

/-- The registers `csrWrite` implements. -/
def csrPut (c : Cpu) (csr : ℕ) (v : U64) : Cpu × Bool :=
  match csr with
  | FFLAGS => ({ c with fcsr := (c.fcsr &&& ~~~(0x1f : U32)) ||| (v.setWidth 32 &&& 0x1f) }, true)
  | FRM => ({ c with fcsr := (c.fcsr &&& ~~~(0xe0 : U32)) ||| ((v.setWidth 32 &&& 7) <<< 5) }, true)
  | FCSR => ({ c with fcsr := v.setWidth 32 &&& 0xff }, true)
  | MCYCLE | MINSTRET => (c.modifySys fun s => { s with minstretOff := v - (c.insnCount + 1) }, true)
  | SSTATUS => c.putStatus sstatusWritable v
  | SIE => c.putSys fun s => { s with mie := (s.mie &&& ~~~s.mideleg) ||| (v &&& s.mideleg) }
  | STVEC => c.putSys fun s => { s with stvec := v &&& ~~~2 }
  | SCOUNTEREN => c.putSys fun s => { s with scounteren := v &&& 7 }
  | SSCRATCH => c.putSys fun s => { s with sscratch := v }
  | SEPC => c.putSys fun s => { s with sepc := v &&& ~~~1 }
  | SCAUSE => c.putSys fun s => { s with scause := v }
  | STVAL => c.putSys fun s => { s with stval := v }
  | SIP => c.putSys fun s =>
    let mask := IRQ_SSIP &&& s.mideleg
    { s with mip := (s.mip &&& ~~~mask) ||| (v &&& mask) }
  | SATP => c.putSatp v
  | 0x7a0 | 0x7a1 | 0x7a2 | 0x7a3 | 0x7a5 => (c, true)
  | MSTATUS => c.putStatus mstatusWritable v
  | MISA => (c, true)
  | MEDELEG => c.putSys fun s => { s with medeleg := v }
  | MIDELEG => c.putSys fun s => { s with mideleg := v &&& (IRQ_SSIP ||| IRQ_STIP ||| IRQ_SEIP) }
  | MIE => c.putSys fun s => { s with mie := v }
  | MTVEC => c.putSys fun s => { s with mtvec := v &&& ~~~2 }
  | MCOUNTEREN => c.putSys fun s => { s with mcounteren := v &&& 7 }
  | MSCRATCH => c.putSys fun s => { s with mscratch := v }
  | MEPC => c.putSys fun s => { s with mepc := v &&& ~~~1 }
  | MCAUSE => c.putSys fun s => { s with mcause := v }
  | MTVAL => c.putSys fun s => { s with mtval := v }
  | MIP => c.putSys fun s =>
    let w := IRQ_SSIP ||| IRQ_STIP ||| IRQ_SEIP
    { s with mip := (s.mip &&& ~~~w) ||| (v &&& w) }
  | csr =>
    if 0x3a0 ≤ csr ∧ csr ≤ 0x3af ∧ csr % 2 = 0 then
      c.putSys fun s => { s with pmpcfg := fun i => if i = Fin.ofNat 8 ((csr - 0x3a0) / 2) then v else s.pmpcfg i }
    else if 0x3b0 ≤ csr ∧ csr ≤ 0x3ef then
      c.putSys fun s => { s with
        pmpaddr := fun i => if i = Fin.ofNat 64 (csr - 0x3b0) then v &&& 0x003fffffffffffff else s.pmpaddr i }
    else (c, false)

/-- Write a CSR; false = unimplemented or read-only. -/
def csrWrite (c : Cpu) (csr : ℕ) (v : U64) : Cpu × Bool :=
  let c := { c with irqPollCd := 0 }
  if csr >>> 10 = 3 then (c, false)
  else if c.sys.any (fun s => decide ((csr >>> 8) % 4 > s.mode.level)) then (c, false)
  else c.csrPut csr v

end Cpu
end Lish
