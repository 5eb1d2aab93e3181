import Lish.Prog.Program
import Lish.Core.Alu
import Lish.Core.Mmu
import Lish.Core.OpFp
/-!
# Exec — instruction execution

Execution as a program over the hart's atomic operations: register and CSR updates, translations, bus accesses.  An
instruction stops at the first refused operation, with the exception of that operation.
-/
namespace Lish

/-! ## Operations -/

/-- The operations that change registers only, and are never refused. -/
inductive CpuOp
  | wr (rd : Fin 32) (v : U64)
  | setF (rd : Fin 32) (v : U64)
  | accrue (fl : U32)
  | reserve (addr : Option U64)
  | fpDirty
  /-- Set the countdown to the next interrupt poll. -/
  | pollCd (n : U32)
  /-- Take the hardware lines into mip. -/
  | latch (lines : U64)
  | bumpIcacheGen
  /-- Move to the next instruction, counting this one. -/
  | retire (next : U64)
  | countInsn
  | trap (cause tval : U64) (isInterrupt : Bool)
  | mret
  | sret
  | flushTlb
  | flushTlbPage (va : U64)
  | bumpMapGeneration
  deriving DecidableEq

/-- Interrupt lines that come live from the bus. -/
def hwLines : U64 := IRQ_MTIP ||| IRQ_MSIP ||| IRQ_MEIP ||| IRQ_SEIP

def CpuOp.apply (c : Cpu) : CpuOp → Cpu
  | wr rd v => c.wr rd v
  | setF rd v => c.setF rd v
  | accrue fl => { c with fcsr := c.fcsr ||| (fl &&& 0x1f) }
  | reserve addr => { c with reservation := addr }
  | fpDirty => c.fpDirty
  | pollCd n => { c with irqPollCd := n }
  | latch lines => c.modifySys fun s => { s with mip := (s.mip &&& ~~~hwLines) ||| (lines &&& hwLines) }
  | bumpIcacheGen => { c with icacheGen := c.icacheGen + 1 }
  | retire next => { c with pc := next, insnCount := c.insnCount + 1 }
  | countInsn => { c with insnCount := c.insnCount + 1 }
  | trap cause tval isInterrupt => c.takeTrap cause tval isInterrupt
  | mret => c.mret
  | sret => c.sret
  | flushTlb => c.flushTlb
  | flushTlbPage va => c.flushTlbPage va
  | bumpMapGeneration => c.bumpMapGeneration

/-- The operations an instruction is made of. -/
inductive HartOp
  /-- Read the registers. -/
  | get
  | cpu (u : CpuOp)
  /-- Write a CSR, or fail as an illegal instruction. -/
  | csrWrite (insn : U32) (csr : ℕ) (v : U64)
  | translate (va : U64) (access : Access)
  /-- Translate a data access and fill the JIT-TLB. -/
  | translateFill (va : U64) (store : Bool)
  | read (w : Width) (pa : U64)
  | write (w : Width) (pa v : U64)
  | fetch16 (pa : U64)
  | fetch32IfSafe (pa : U64)
  | irqLines

@[reducible] def HartOp.Ans : HartOp → Type
  | get => Cpu
  | cpu _ => Unit
  | csrWrite _ _ _ => Unit
  | translate _ _ => U64
  | translateFill _ _ => U64
  | read _ _ => U64
  | write _ _ _ => Unit
  | fetch16 _ => U16
  | fetch32IfSafe _ => Option U32
  | irqLines => U64

abbrev hartOps : Interface := ⟨HartOp, HartOp.Ans⟩

/-- A computation of the hart. -/
abbrev Hart (α : Type) := Program hartOps Exception α

namespace Machine

variable {β : Type} [Bus β]

/-- A bus access, the registers untouched. -/
def onBus {α : Type} (m : Machine β) (r : Except Exception α × β) : Except Exception α × Machine β :=
  (r.1, { m with bus := r.2 })

/-- The meaning of the operations. -/
def exec : Handler hartOps Exception (Machine β) := fun o m =>
  match o with
  | .get => (.ok m.cpu, m)
  | .cpu u => (.ok (), { m with cpu := u.apply m.cpu })
  | .csrWrite insn csr v =>
    let (c, ok) := m.cpu.csrWrite csr v
    (if ok then .ok () else .error (.illegalInstruction insn), { m with cpu := c })
  | .translate va access => m.translate va access
  | .translateFill va store => m.translateFill va store
  | .read w pa => m.onBus (Bus.read w m.bus pa)
  | .write w pa v => m.onBus (Bus.write w m.bus pa v)
  | .fetch16 pa => m.onBus (Bus.fetch16 m.bus pa)
  | .fetch32IfSafe pa =>
    let (r, bus) := Bus.fetch32IfSafe m.bus pa
    (.ok r, { m with bus := bus })
  | .irqLines =>
    let (r, bus) := Bus.irqLines m.bus
    (.ok r, { m with bus := bus })

end Machine

namespace Hart

variable {α : Type}

def get : Hart Cpu := .op .get .pure
def upd (u : CpuOp) : Hart Unit := .op (.cpu u) .pure
def csrWrite (insn : U32) (csr : ℕ) (v : U64) : Hart Unit := .op (.csrWrite insn csr v) .pure
def translate (va : U64) (access : Access) : Hart U64 := .op (.translate va access) .pure
def translateFill (va : U64) (store : Bool) : Hart U64 := .op (.translateFill va store) .pure
def read (w : Width) (pa : U64) : Hart U64 := .op (.read w pa) .pure
def write (w : Width) (pa v : U64) : Hart Unit := .op (.write w pa v) .pure
def fetch16 (pa : U64) : Hart U16 := .op (.fetch16 pa) .pure
def fetch32IfSafe (pa : U64) : Hart (Option U32) := .op (.fetch32IfSafe pa) .pure
def irqLines : Hart U64 := .op .irqLines .pure

def illegal (insn : U32) : Hart α := .throw (.illegalInstruction insn)

/-- `ok_or(illegal)?` -/
def require (insn : U32) : Option α → Hart α
  | some a => .pure a
  | none => illegal insn

/-! ## Memory accessors -/

/-- Accesses that cross a page boundary are split (two translations). -/
def splits (c : Cpu) (va : U64) (w : Width) : Bool := c.sys.isSome && decide ((va &&& 0xfff).toNat + w.bytes > 0x1000)

def ldBytes (va : U64) : ℕ → Hart U64
  | 0 => .pure 0
  | n + 1 => do
    let v ← ldBytes va n
    let pa ← translate (va + BitVec.ofNat 64 n) .load
    let b ← read .w1 pa
    return v ||| (b <<< (8 * n))

def stBytes (va val : U64) : ℕ → Hart Unit
  | 0 => .pure ()
  | n + 1 => do
    stBytes va val n
    let pa ← translate (va + BitVec.ofNat 64 n) .store
    write .w1 pa ((byteOf val n).setWidth 64)

def ld (w : Width) (va : U64) : Hart U64 := do
  let c ← get
  if splits c va w then ldBytes va w.bytes
  else
    let pa ← translateFill va false
    read w pa

def st (w : Width) (va val : U64) : Hart Unit := do
  let c ← get
  if splits c va w then stBytes va val w.bytes
  else
    let pa ← translateFill va true
    write w pa val

end Hart

/-! ## Instructions -/

/-- Why execution returned control to the caller. -/
inductive StopReason
  | budget
  | ecall
  | brk
  | trap (e : Exception)
  | wfi
  deriving DecidableEq

/-- How an instruction ends: at the shared tail, or in the trap it took itself. -/
inductive Next
  | to (pc : U64) (stop : Option StopReason)
  | trapped

namespace Hart

/-- Width and extension of a load. -/
def loadForm (f3 : ℕ) : Option (Width × (U64 → U64)) :=
  match f3 with
  | 0 => some (.w1, fun v => (v.setWidth 8).signExtend 64) -- LB
  | 1 => some (.w2, fun v => (v.setWidth 16).signExtend 64) -- LH
  | 2 => some (.w4, fun v => extend32 (v.setWidth 32)) -- LW
  | 3 => some (.w8, id) -- LD
  | 4 => some (.w1, id) -- LBU
  | 5 => some (.w2, id) -- LHU
  | 6 => some (.w4, id) -- LWU
  | _ => none

def storeWidth (f3 : ℕ) : Option Width :=
  match f3 with
  | 0 => some .w1
  | 1 => some .w2
  | 2 => some .w4
  | 3 => some .w8
  | _ => none

/-- FP loads and stores come in two widths. -/
def fpWidth (f3 : ℕ) : Option Width :=
  match f3 with
  | 2 => some .w4
  | 3 => some .w8
  | _ => none

def fpCheck (c : Cpu) (insn : U32) : Hart Unit := if c.fpOff then illegal insn else .pure ()

def execLoad (c : Cpu) (insn : U32) : Hart Unit := do
  let (w, ext) ← require insn (loadForm (funct3 insn))
  let v ← ld w (c.x (rs1 insn) + immI insn)
  upd (.wr (rd insn) (ext v))

def execStore (c : Cpu) (insn : U32) : Hart Unit := do
  let w ← require insn (storeWidth (funct3 insn))
  st w (c.x (rs1 insn) + immS insn) (c.x (rs2 insn))

/-- The width of an AMO, and the value it loads. -/
def amoWidth (f3 : ℕ) : Option Bool :=
  match f3 with
  | 2 => some false
  | 3 => some true
  | _ => none

def amoLoad (is64 : Bool) (addr : U64) : Hart U64 := do
  if is64 then ld .w8 addr
  else
    let v ← ld .w4 addr
    return extend32 (v.setWidth 32)

def amoStore (is64 : Bool) (addr v : U64) : Hart Unit := st (if is64 then .w8 else .w4) addr v

/-- The store of an SC whose reservation holds, and its status. -/
def scStore (c : Cpu) (is64 : Bool) (addr src : U64) : Hart U64 :=
  if c.reservation = some addr then do
    amoStore is64 addr src
    return 0
  else .pure 1

def execAmo (c : Cpu) (insn : U32) : Hart Unit := do
  let addr := c.x (rs1 insn)
  let src := c.x (rs2 insn)
  let is64 ← require insn (amoWidth (funct3 insn))
  match funct7 insn / 4 with
  | 0x02 => -- LR
    let v ← amoLoad is64 addr
    upd (.reserve (some addr))
    upd (.wr (rd insn) v)
  | 0x03 => -- SC
    let status ← scStore c is64 addr src
    upd (.wr (rd insn) status)
    upd (.reserve none)
  | funct5 =>
    let old ← amoLoad is64 addr
    let new ← require insn (amoNew funct5 is64 old src)
    amoStore is64 addr new
    upd (.wr (rd insn) old)

def execLoadFp (c : Cpu) (insn : U32) : Hart Unit := do
  fpCheck c insn
  upd .fpDirty
  let w ← require insn (fpWidth (funct3 insn))
  let v ← ld w (c.x (rs1 insn) + immI insn)
  upd (.setF (rd insn) (if w = .w4 then bx32 (v.setWidth 32) else v))

def execStoreFp (c : Cpu) (insn : U32) : Hart Unit := do
  fpCheck c insn
  let w ← require insn (fpWidth (funct3 insn))
  st w (c.x (rs1 insn) + immS insn) (c.f (rs2 insn))

/-- Write the destination of an FP instruction and accrue its flags. -/
def writeFp (insn : U32) (r : FpOut) : Hart Unit := do
  upd (if r.toX then .wr (rd insn) r.value else .setF (rd insn) r.value)
  upd (.accrue r.flags)

def execFma (c : Cpu) (insn : U32) : Hart Unit := do
  fpCheck c insn
  upd .fpDirty
  let r ← require insn (c.fmaOut insn)
  writeFp insn r

def opFp (host : Option HostFp) (insn : U32) : Hart Unit := do
  let c ← get
  let r ← require insn (c.opFp host insn)
  writeFp insn r

def execOpFp (host : Option HostFp) (c : Cpu) (insn : U32) : Hart Unit := do
  fpCheck c insn
  upd .fpDirty
  opFp host insn

def execEcall (c : Cpu) (seq : U64) : Hart Next := do
  match c.sys with
  | none => return .to seq (some .ecall)
  | some sys =>
    if c.hostSbi && sys.mode == .supervisor then return .to seq (some .ecall)
    else
      upd (.trap (match sys.mode with | .user => 8 | .supervisor => 9 | .machine => 11) 0 false)
      upd .countInsn
      return .trapped

def execMret (c : Cpu) (insn : U32) : Hart Next := do
  upd (.pollCd 0)
  let sys ← require insn c.sys
  if sys.mode ≠ .machine then illegal insn
  else
    upd .mret
    return .to sys.mepc none

def execSret (c : Cpu) (insn : U32) : Hart Next := do
  upd (.pollCd 0)
  let sys ← require insn c.sys
  if sys.mode = .user ∨ (sys.mode = .supervisor ∧ sys.mstatus &&& MSTATUS_TSR ≠ 0) then illegal insn
  else
    upd .sret
    return .to sys.sepc none

/-- WFI reports to the host when nothing is pending. -/
def execWfi (c : Cpu) (insn : U32) (seq : U64) : Hart Next := do
  match c.sys with
  | none => return .to seq none
  | some sys =>
    if sys.mode = .user ∨ (sys.mode = .supervisor ∧ sys.mstatus &&& MSTATUS_TW ≠ 0) then illegal insn
    else return .to seq (if sys.mip &&& sys.mie = 0 then some .wfi else none)

def sfenceAllowed (c : Cpu) : Bool :=
  match c.sys with
  | none => true
  | some sys => !(sys.mode = .user ∨ (sys.mode = .supervisor ∧ sys.mstatus &&& MSTATUS_TVM ≠ 0))

def execSfence (c : Cpu) (insn : U32) : Hart Unit := do
  if !sfenceAllowed c then illegal insn
  else
    upd (if rs1 insn = 0 then .flushTlb else .flushTlbPage (c.x (rs1 insn)))
    upd .bumpMapGeneration

/-- The value a CSR instruction writes, if it writes. -/
def csrNew (insn : U32) (src old : U64) : Option U64 :=
  let f3 := funct3 insn
  -- CSRRS/CSRRC with rs1 = x0 (or uimm = 0) must not write
  let srcIsZero : Bool := if f3 ≥ 5 then src = 0 else rs1 insn = 0
  match f3 % 4 with
  | 1 => some src
  | 2 => if srcIsZero then none else some (old ||| src)
  | 3 => if srcIsZero then none else some (old &&& ~~~src)
  | _ => none

/-- fflags, frm and fcsr are FP state. -/
def csrFp (c : Cpu) (insn : U32) (csr : ℕ) : Hart Unit :=
  if csr ≤ 3 then do
    fpCheck c insn
    upd .fpDirty
  else .pure ()

def csrPut (insn : U32) (csr : ℕ) : Option U64 → Hart Unit
  | some v => csrWrite insn csr v
  | none => .pure ()

def execCsr (c : Cpu) (insn : U32) : Hart Unit := do
  let csr := (insn >>> 20).toNat
  csrFp c insn csr
  let c ← get
  let src := if funct3 insn ≥ 5 then BitVec.ofNat 64 (rs1 insn).val else c.x (rs1 insn)
  let old ← require insn (c.csrRead csr)
  csrPut insn csr (csrNew insn src old)
  upd (.wr (rd insn) old)

def execSystem (c : Cpu) (insn : U32) (seq : U64) : Hart Next := do
  if insn = 0x00000073 then execEcall c seq
  else if insn = 0x00100073 then
    if c.sys.isSome then .throw .breakpoint else return .to seq (some .brk)
  else if insn = 0x30200073 then execMret c insn
  else if insn = 0x10200073 then execSret c insn
  else if insn = 0x10500073 then execWfi c insn seq
  else if funct7 insn = 0x09 ∧ funct3 insn = 0 then
    execSfence c insn
    return .to seq none
  else if funct3 insn ≠ 0 ∧ funct3 insn ≠ 4 then
    execCsr c insn
    return .to seq none
  else illegal insn

/-- FENCE is a no-op for one in-order hart; FENCE.I makes instruction stores visible. -/
def fence (insn : U32) : Hart Unit := if funct3 insn = 1 then upd .bumpIcacheGen else .pure ()

/-- The arms of the instruction match; `c` holds the registers at its start, `seq` the next sequential pc. -/
def execArm (host : Option HostFp) (c : Cpu) (insn : U32) (seq : U64) : Hart Next := do
  match opcode insn with
  | 0x37 => -- LUI
    upd (.wr (rd insn) (immU insn))
    return .to seq none
  | 0x17 => -- AUIPC
    upd (.wr (rd insn) (c.pc + immU insn))
    return .to seq none
  | 0x6f => -- JAL
    upd (.wr (rd insn) seq)
    return .to (c.pc + immJ insn) none
  | 0x67 => -- JALR
    upd (.wr (rd insn) seq)
    return .to ((c.x (rs1 insn) + immI insn) &&& ~~~1) none
  | 0x63 =>
    let taken ← require insn (branchTaken (funct3 insn) (c.x (rs1 insn)) (c.x (rs2 insn)))
    return .to (if taken then c.pc + immB insn else seq) none
  | 0x03 =>
    execLoad c insn
    return .to seq none
  | 0x23 =>
    execStore c insn
    return .to seq none
  | 0x13 =>
    upd (.wr (rd insn) (opImm insn (c.x (rs1 insn))))
    return .to seq none
  | 0x1b =>
    let v ← require insn (opImm32 insn (c.x (rs1 insn)))
    upd (.wr (rd insn) v)
    return .to seq none
  | 0x33 =>
    let v ← require insn (op64 insn (c.x (rs1 insn)) (c.x (rs2 insn)))
    upd (.wr (rd insn) v)
    return .to seq none
  | 0x3b =>
    let v ← require insn (op32 insn (c.x (rs1 insn)) (c.x (rs2 insn)))
    upd (.wr (rd insn) v)
    return .to seq none
  | 0x2f =>
    execAmo c insn
    return .to seq none
  | 0x07 =>
    execLoadFp c insn
    return .to seq none
  | 0x27 =>
    execStoreFp c insn
    return .to seq none
  | 0x43 | 0x47 | 0x4b | 0x4f =>
    execFma c insn
    return .to seq none
  | 0x53 =>
    execOpFp host c insn
    return .to seq none
  | 0x0f =>
    fence insn
    return .to seq none
  | 0x73 => execSystem c insn seq
  | _ => illegal insn

/-- Execute one instruction that has been fetched and expanded. -/
def executeDecoded (host : Option HostFp) (d : DecodedInsn) : Hart (Option StopReason) := do
  if !d.valid then illegal d.bits
  else
    let c ← get
    match ← execArm host c d.bits (c.pc + d.byteLen) with
    | .to pc stop =>
      upd (.retire pc)
      return stop
    | .trapped => return none

/-- One bus range check fetches the whole word, but for a halfword at the end of a page. -/
def fetchWord (pc pa : U64) : Hart (Option U32) := if pc &&& 0xfff ≠ 0xffe then fetch32IfSafe pa else .pure none

/-- The low halfword of the instruction, from the word when one could be read. -/
def fetchLow (pa : U64) : Option U32 → Hart U32
  | some insn => .pure (insn &&& 0xffff)
  | none => do
    let lo ← fetch16 pa
    return lo.setWidth 32

/-- Physical address of the upper halfword, which can lie on the next page. -/
def fetchNext (pc pa : U64) : Hart U64 := if (pc + 2) &&& 0xfff = 0 then translate (pc + 2) .fetch else .pure (pa + 2)

def fetchHigh (pc pa : U64) (lo : U32) : Option U32 → Hart U32
  | some insn => .pure insn
  | none => do
    let pa2 ← fetchNext pc pa
    let hi ← fetch16 pa2
    return lo ||| (hi.setWidth 32 <<< 16)

/-- The whole instruction: a compressed one has its low halfword only. -/
def fetchRest (pc pa : U64) (word : Option U32) (lo : U32) : Hart U32 :=
  if lo &&& 3 = 3 then fetchHigh pc pa lo word else .pure lo

/-- Fetch and execute one instruction. -/
def step (host : Option HostFp) : Hart (Option StopReason) := do
  let c ← get
  if c.pc &&& 1 ≠ 0 then .throw (.instructionAddressMisaligned c.pc)
  else
    let pa ← translate c.pc .fetch
    let word ← fetchWord c.pc pa
    let lo ← fetchLow pa word
    let full ← fetchRest c.pc pa word lo
    executeDecoded host (.fromWord full)

/-! ## Traps and interrupts -/

def exceptionToTrap (e : Exception) : Hart Unit := do
  let c ← get
  upd (.trap (c.causeOf e).1 (c.causeOf e).2 false)

/-- The interrupts in order of priority: MEI, MSI, MTI, SEI, SSI, STI. -/
def irqPriority : List ℕ := [11, 3, 7, 9, 1, 5]

def deliverable (s : SysCsrs) (irq : ℕ) : Bool :=
  let mEnabled := s.mode ≠ .machine ∨ s.mstatus &&& MSTATUS_MIE ≠ 0
  let sEnabled := s.mode = .user ∨ (s.mode = .supervisor ∧ s.mstatus &&& MSTATUS_SIE ≠ 0)
  (s.mip &&& s.mie).getLsbD irq &&
    (if s.mideleg.getLsbD irq then s.mode = .user ∨ (s.mode = .supervisor ∧ sEnabled)
      else s.mode ≠ .machine ∨ mEnabled)

def takeInterrupt (s : SysCsrs) : Hart Bool :=
  match irqPriority.find? (deliverable s) with
  | none => .pure false
  | some irq => do
    upd (.trap (BitVec.ofNat 64 irq) 0 true)
    return true

/-- Take the highest-priority deliverable interrupt. -/
def checkInterrupts : Hart Bool := do
  let c ← get
  if c.sys.isNone then return false
  else
    let lines ← irqLines
    upd (.latch lines)
    let c ← get
    match c.sys with
    | none => return false
    | some s => takeInterrupt s

/-- The interrupt poll before an instruction of `run`. -/
def poll : Hart Unit := do
  let c ← get
  if c.sys.isNone then .pure ()
  else if c.irqPollCd = 0 then
    upd (.pollCd IRQ_POLL_INTERVAL)
    let _ ← checkInterrupts
    return ()
  else upd (.pollCd (c.irqPollCd - 1))

end Hart

namespace Machine

variable {β : Type} [Bus β]

/-- One iteration of `run`: a stop reason, or none to go on. -/
def runOne (host : Option HostFp) (m : Machine β) : Option StopReason × Machine β :=
  let system := m.cpu.sys.isSome
  match (Hart.step host).run exec (Hart.poll.run exec m).2 with
  | (.ok stop, m) => (stop, m)
  | (.error e, m) => if system then (none, ((Hart.exceptionToTrap e).run exec m).2) else (some (.trap e), m)

/-- Run up to `budget` instructions. -/
def run (host : Option HostFp) : ℕ → Machine β → StopReason × Machine β
  | 0, m => (.budget, m)
  | budget + 1, m =>
    match m.runOne host with
    | (some stop, m) => (stop, m)
    | (none, m) => run host budget m

/-! ## Decoded blocks -/

end Machine

/-- How a run over a decoded block ends: an exception taken as a trap is told apart. -/
inductive DecodedRunOutcome
  | stop (r : StopReason)
  | trapped
  deriving DecidableEq

/-- The interrupt poll before an instruction of a block: whether an interrupt was taken. -/
def Hart.pollTaken : Hart Bool := do
  let c ← get
  if c.sys.isNone then return false
  else if c.irqPollCd = 0 then
    upd (.pollCd IRQ_POLL_INTERVAL)
    checkInterrupts
  else
    upd (.pollCd (c.irqPollCd - 1))
    return false

namespace Machine

variable {β : Type} [Bus β]

/-- Execute a decoded instruction; an exception is a trap in full-system mode. -/
def executeOne (host : Option HostFp) (d : DecodedInsn) (m : Machine β) : Option DecodedRunOutcome × Machine β :=
  let system := m.cpu.sys.isSome
  match (Hart.executeDecoded host d).run exec m with
  | (.ok stop, m) => (stop.map .stop, m)
  | (.error e, m) => if system then (some .trapped, ((Hart.exceptionToTrap e).run exec m).2) else (some (.stop (.trap e)), m)

/-- Execute a straight-line sequence of decoded instructions: traps, interrupts and control transfers leave it. -/
def runDecoded (host : Option HostFp) : List DecodedInsn → Machine β → DecodedRunOutcome × Machine β
  | [], m => (.stop .budget, m)
  | d :: rest, m =>
    match Hart.pollTaken.run exec m with
    | (.ok false, m) =>
      match m.executeOne host d with
      | (some out, m) => (out, m)
      | (none, m') => if m'.cpu.pc ≠ m.cpu.pc + d.byteLen then (.stop .budget, m') else runDecoded host rest m'
    | (_, m) => (.stop .budget, m)

/-- Translate an instruction address without taking a fault. -/
def jitProbeFetch (m : Machine β) (va : U64) : Option U64 × Machine β :=
  match m.translate va .fetch with
  | (.ok pa, m) => (some pa, m)
  | (.error _, m) => (none, m)

end Machine
end Lish
