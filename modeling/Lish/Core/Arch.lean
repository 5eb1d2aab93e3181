import Mathlib.Data.BitVec
/-!
# Arch — exceptions, privileged state and instruction fields

The definitions the hart is built from: exception causes, privilege modes and the `mstatus` layout, the privileged
registers, and the fields of a 32-bit encoding.  Machine integers are bit vectors of the source's widths.
-/
namespace Lish

abbrev U8 := BitVec 8
abbrev U16 := BitVec 16
abbrev U32 := BitVec 32
abbrev U64 := BitVec 64

/-- The bytes of a text in ASCII. -/
def asciiBytes (s : String) : List U8 := s.toList.map fun c => BitVec.ofNat 8 c.toNat

instance neZero_two : NeZero 2 := ⟨by decide⟩
instance neZero_three : NeZero 3 := ⟨by decide⟩
instance neZero_thirtytwo : NeZero 32 := ⟨by decide⟩

/-- RISC-V exception causes. -/
inductive Exception
  | instructionAddressMisaligned (addr : U64)
  | instructionAccessFault (addr : U64)
  | illegalInstruction (insn : U32)
  | breakpoint
  | loadAddressMisaligned (addr : U64)
  | loadAccessFault (addr : U64)
  | storeAddressMisaligned (addr : U64)
  | storeAccessFault (addr : U64)
  | environmentCallFromUMode
  | environmentCallFromSMode
  | environmentCallFromMMode
  | instructionPageFault (addr : U64)
  | loadPageFault (addr : U64)
  | storePageFault (addr : U64)
  deriving DecidableEq, Repr

inductive Mode
  | user | supervisor | machine
  deriving DecidableEq, Repr

/-- The encoding of a mode (`mode as u64`). -/
def Mode.bits : Mode → U64
  | user => 0
  | supervisor => 1
  | machine => 3

/-- The numeric value of a mode, as privilege checks compare it. -/
def Mode.level (m : Mode) : ℕ := m.bits.toNat

def Mode.fromBits (b : U64) : Mode :=
  if b &&& 3 = 0 then user else if b &&& 3 = 1 then supervisor else machine

/-! ## CSR addresses -/

@[match_pattern] abbrev FFLAGS : ℕ := 0x001
@[match_pattern] abbrev FRM : ℕ := 0x002
@[match_pattern] abbrev FCSR : ℕ := 0x003
@[match_pattern] abbrev SSTATUS : ℕ := 0x100
@[match_pattern] abbrev SIE : ℕ := 0x104
@[match_pattern] abbrev STVEC : ℕ := 0x105
@[match_pattern] abbrev SCOUNTEREN : ℕ := 0x106
@[match_pattern] abbrev SSCRATCH : ℕ := 0x140
@[match_pattern] abbrev SEPC : ℕ := 0x141
@[match_pattern] abbrev SCAUSE : ℕ := 0x142
@[match_pattern] abbrev STVAL : ℕ := 0x143
@[match_pattern] abbrev SIP : ℕ := 0x144
@[match_pattern] abbrev SATP : ℕ := 0x180
@[match_pattern] abbrev MSTATUS : ℕ := 0x300
@[match_pattern] abbrev MISA : ℕ := 0x301
@[match_pattern] abbrev MEDELEG : ℕ := 0x302
@[match_pattern] abbrev MIDELEG : ℕ := 0x303
@[match_pattern] abbrev MIE : ℕ := 0x304
@[match_pattern] abbrev MTVEC : ℕ := 0x305
@[match_pattern] abbrev MCOUNTEREN : ℕ := 0x306
@[match_pattern] abbrev MSCRATCH : ℕ := 0x340
@[match_pattern] abbrev MEPC : ℕ := 0x341
@[match_pattern] abbrev MCAUSE : ℕ := 0x342
@[match_pattern] abbrev MTVAL : ℕ := 0x343
@[match_pattern] abbrev MIP : ℕ := 0x344
@[match_pattern] abbrev MCYCLE : ℕ := 0xb00
@[match_pattern] abbrev MINSTRET : ℕ := 0xb02
@[match_pattern] abbrev CYCLE : ℕ := 0xc00
@[match_pattern] abbrev TIME : ℕ := 0xc01
@[match_pattern] abbrev INSTRET : ℕ := 0xc02
@[match_pattern] abbrev MVENDORID : ℕ := 0xf11
@[match_pattern] abbrev MARCHID : ℕ := 0xf12
@[match_pattern] abbrev MIMPID : ℕ := 0xf13
@[match_pattern] abbrev MHARTID : ℕ := 0xf14

/-! ## mstatus bits -/

def MSTATUS_SIE : U64 := 1#64 <<< 1
def MSTATUS_MIE : U64 := 1#64 <<< 3
def MSTATUS_SPIE : U64 := 1#64 <<< 5
def MSTATUS_MPIE : U64 := 1#64 <<< 7
def MSTATUS_SPP : U64 := 1#64 <<< 8
def MSTATUS_MPP : U64 := 3#64 <<< 11
def MSTATUS_FS : U64 := 3#64 <<< 13
def MSTATUS_MPRV : U64 := 1#64 <<< 17
def MSTATUS_SUM : U64 := 1#64 <<< 18
def MSTATUS_MXR : U64 := 1#64 <<< 19
def MSTATUS_TVM : U64 := 1#64 <<< 20
def MSTATUS_TW : U64 := 1#64 <<< 21
def MSTATUS_TSR : U64 := 1#64 <<< 22
def MSTATUS_UXL : U64 := 3#64 <<< 32
def MSTATUS_SXL : U64 := 3#64 <<< 34
def MSTATUS_SD : U64 := 1#64 <<< 63

/-- Bits of mstatus visible/writable through sstatus. -/
def SSTATUS_MASK : U64 :=
  MSTATUS_SIE ||| MSTATUS_SPIE ||| MSTATUS_SPP ||| MSTATUS_FS ||| MSTATUS_SUM ||| MSTATUS_MXR ||| MSTATUS_UXL ||| MSTATUS_SD

def IRQ_SSIP : U64 := 1#64 <<< 1
def IRQ_MSIP : U64 := 1#64 <<< 3
def IRQ_STIP : U64 := 1#64 <<< 5
def IRQ_MTIP : U64 := 1#64 <<< 7
def IRQ_SEIP : U64 := 1#64 <<< 9
def IRQ_MEIP : U64 := 1#64 <<< 11

/-- misa: RV64 IMAFDCSU. -/
def MISA_VALUE : U64 :=
  (2#64 <<< 62) ||| (1#64 <<< 0) ||| (1#64 <<< 2) ||| (1#64 <<< 3) ||| (1#64 <<< 5) ||| (1#64 <<< 8) ||| (1#64 <<< 12) |||
    (1#64 <<< 18) ||| (1#64 <<< 20)

/-- The privileged state of a hart in full-system mode. -/
structure SysCsrs where
  mode : Mode
  mstatus : U64
  medeleg : U64
  mideleg : U64
  mie : U64
  mip : U64
  mtvec : U64
  mcounteren : U64
  mscratch : U64
  mepc : U64
  mcause : U64
  mtval : U64
  stvec : U64
  scounteren : U64
  sscratch : U64
  sepc : U64
  scause : U64
  stval : U64
  satp : U64
  mhartid : U64
  /-- mtime mirror, updated by the machine. -/
  mtime : U64
  /-- When nonzero, `rdtime` is `insnCount / timeScale + timeOffset`. -/
  timeScale : U64
  timeOffset : U64
  /-- PMP storage, not enforced. -/
  pmpcfg : Fin 8 → U64
  pmpaddr : Fin 64 → U64
  /-- minstret and mcycle are writable: offset relative to `insnCount`. -/
  minstretOff : U64

def SysCsrs.new : SysCsrs where
  mode := .machine
  mstatus := (MSTATUS_UXL &&& (2#64 <<< 32)) ||| (MSTATUS_SXL &&& (2#64 <<< 34))
  medeleg := 0
  mideleg := 0
  mie := 0
  mip := 0
  mtvec := 0
  mcounteren := 0
  mscratch := 0
  mepc := 0
  mcause := 0
  mtval := 0
  stvec := 0
  scounteren := 0
  sscratch := 0
  sepc := 0
  scause := 0
  stval := 0
  satp := 0
  mhartid := 0
  mtime := 0
  timeScale := 0
  timeOffset := 0
  pmpcfg := fun _ => 0
  pmpaddr := fun _ => 0
  minstretOff := 0

/-! ## Instruction fields -/

def opcode (insn : U32) : ℕ := (insn &&& 0x7f).toNat
def rd (insn : U32) : Fin 32 := (insn.extractLsb' 7 5).toFin
def rs1 (insn : U32) : Fin 32 := (insn.extractLsb' 15 5).toFin
def rs2 (insn : U32) : Fin 32 := (insn.extractLsb' 20 5).toFin
def funct3 (insn : U32) : ℕ := ((insn >>> 12) &&& 7).toNat
def funct7 (insn : U32) : ℕ := (insn >>> 25).toNat

/-- `insn as i32 as i64`. -/
def sext32 (insn : U32) : U64 := insn.signExtend 64

def immI (insn : U32) : U64 := (sext32 insn).sshiftRight 20

def immS (insn : U32) : U64 :=
  (sext32 (insn &&& 0xfe000000)).sshiftRight 20 ||| ((insn >>> 7) &&& 0x1f).setWidth 64

def immB (insn : U32) : U64 :=
  (sext32 (insn &&& 0x80000000)).sshiftRight 19 ||| ((insn &&& 0x80).setWidth 64 <<< 4) |||
    ((insn >>> 20) &&& 0x7e0).setWidth 64 ||| ((insn >>> 7) &&& 0x1e).setWidth 64

def immU (insn : U32) : U64 := sext32 (insn &&& 0xfffff000)

def immJ (insn : U32) : U64 :=
  (sext32 (insn &&& 0x80000000)).sshiftRight 11 ||| (insn &&& 0xff000).setWidth 64 |||
    ((insn >>> 9) &&& 0x800).setWidth 64 ||| ((insn >>> 20) &&& 0x7fe).setWidth 64

end Lish
