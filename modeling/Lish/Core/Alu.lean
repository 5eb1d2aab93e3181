import Lish.Core.Arch
/-!
# Alu — integer operations

The register results of the integer instructions, by function code; none = illegal.
-/
namespace Lish

def boolBit (b : Bool) : U64 := if b then 1 else 0

/-- `val32 as i32 as i64 as u64`. -/
def extend32 (v : U32) : U64 := v.signExtend 64

def branchTaken (f3 : ℕ) (a b : U64) : Option Bool :=
  match f3 with
  | 0 => some (a == b) -- BEQ
  | 1 => some (a != b) -- BNE
  | 4 => some (a.slt b) -- BLT
  | 5 => some (!a.slt b) -- BGE
  | 6 => some (a.ult b) -- BLTU
  | 7 => some (!a.ult b) -- BGEU
  | _ => none

/-- OP-IMM: every function code is legal. -/
def opImm (insn : U32) (a : U64) : U64 :=
  let imm := immI insn
  let shamt := (imm &&& 0x3f).toNat
  match funct3 insn with
  | 0 => a + imm -- ADDI
  | 1 => a <<< shamt -- SLLI
  | 2 => boolBit (a.slt imm) -- SLTI
  | 3 => boolBit (a.ult imm) -- SLTIU
  | 4 => a ^^^ imm -- XORI
  | 5 => if insn >>> 26 = 0x10 then a.sshiftRight shamt else a >>> shamt -- SRAI / SRLI
  | 6 => a ||| imm -- ORI
  | _ => a &&& imm -- ANDI

/-- OP-IMM-32: ADDIW, SLLIW, SRLIW, SRAIW. -/
def opImm32 (insn : U32) (a : U64) : Option U64 :=
  let a : U32 := a.setWidth 32
  let imm := immI insn
  let shamt := (imm &&& 0x1f).toNat
  match funct3 insn with
  | 0 => some (extend32 (a + imm.setWidth 32))
  | 1 => some (extend32 (a <<< shamt))
  | 5 => some (extend32 (if funct7 insn = 0x20 then a.sshiftRight shamt else a >>> shamt))
  | _ => none

/-- OP, with the M extension under `funct7` 1. -/
def op64 (insn : U32) (a b : U64) : Option U64 :=
  let shamt := (b &&& 0x3f).toNat
  match funct7 insn, funct3 insn with
  | 0x00, 0 => some (a + b)
  | 0x20, 0 => some (a - b)
  | 0x00, 1 => some (a <<< shamt)
  | 0x00, 2 => some (boolBit (a.slt b))
  | 0x00, 3 => some (boolBit (a.ult b))
  | 0x00, 4 => some (a ^^^ b)
  | 0x00, 5 => some (a >>> shamt)
  | 0x20, 5 => some (a.sshiftRight shamt)
  | 0x00, 6 => some (a ||| b)
  | 0x00, 7 => some (a &&& b)
  | 0x01, 0 => some (a * b) -- MUL
  | 0x01, 1 => some (((a.signExtend 128 * b.signExtend 128) >>> 64).setWidth 64) -- MULH
  | 0x01, 2 => some (((a.signExtend 128 * b.setWidth 128) >>> 64).setWidth 64) -- MULHSU
  | 0x01, 3 => some (((a.setWidth 128 * b.setWidth 128) >>> 64).setWidth 64) -- MULHU
  | 0x01, 4 => some (if b = 0 then BitVec.allOnes 64 else a.sdiv b) -- DIV
  | 0x01, 5 => some (if b = 0 then BitVec.allOnes 64 else a / b) -- DIVU
  | 0x01, 6 => some (if b = 0 then a else a.srem b) -- REM
  | 0x01, 7 => some (if b = 0 then a else a % b) -- REMU
  | _, _ => none

/-- OP-32 on the low words. -/
def op32 (insn : U32) (a b : U64) : Option U64 :=
  let a : U32 := a.setWidth 32
  let b : U32 := b.setWidth 32
  let shamt := (b &&& 0x1f).toNat
  (match funct7 insn, funct3 insn with
    | 0x00, 0 => some (a + b)
    | 0x20, 0 => some (a - b)
    | 0x00, 1 => some (a <<< shamt)
    | 0x00, 5 => some (a >>> shamt)
    | 0x20, 5 => some (a.sshiftRight shamt)
    | 0x01, 0 => some (a * b) -- MULW
    | 0x01, 4 => some (if b = 0 then BitVec.allOnes 32 else a.sdiv b) -- DIVW
    | 0x01, 5 => some (if b = 0 then BitVec.allOnes 32 else a / b) -- DIVUW
    | 0x01, 6 => some (if b = 0 then a else a.srem b) -- REMW
    | 0x01, 7 => some (if b = 0 then a else a % b) -- REMUW
    | _, _ => none).map extend32

/-- The value an AMO stores, from the (sign-extended) old value; 32-bit forms compare the low words only. -/
def amoNew (funct5 : ℕ) (is64 : Bool) (old src : U64) : Option U64 :=
  let co := if is64 then old else (old.setWidth 32).setWidth 64
  let cs := if is64 then src else (src.setWidth 32).setWidth 64
  let signedLt := if is64 then co.slt cs else (co.setWidth 32).slt (cs.setWidth 32)
  match funct5 with
  | 0x01 => some src -- AMOSWAP
  | 0x00 => some (old + src) -- AMOADD
  | 0x04 => some (old ^^^ src) -- AMOXOR
  | 0x0c => some (old &&& src) -- AMOAND
  | 0x08 => some (old ||| src) -- AMOOR
  | 0x10 => some (if signedLt then old else src) -- AMOMIN
  | 0x14 => some (if !signedLt && co != cs then old else src) -- AMOMAX
  | 0x18 => some (if co.ult cs then old else src) -- AMOMINU
  | 0x1c => some (if cs.ult co then old else src) -- AMOMAXU
  | _ => none

end Lish
