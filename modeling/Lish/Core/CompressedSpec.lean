import Lish.Core.Exec
/-!
# CompressedSpec — the compressed extension as specified

RV64C with the double-precision loads and stores: what each parcel means, read off the instruction listings of the
extension, and what an instruction does to the hart.  Nothing here goes through a 32-bit instruction.
-/
namespace Lish
namespace Rvc

/-- The instructions of the extension; immediates are sign- or zero-extended already. -/
inductive Insn
  /-- Code points that change nothing but the pc. -/
  | hint
  | addi (rd rs1 : Fin 32) (imm : U64)
  | addiw (rd : Fin 32) (imm : U64)
  | lui (rd : Fin 32) (imm : U64)
  | andi (rd : Fin 32) (imm : U64)
  | slli (rd : Fin 32) (shamt : ℕ)
  | srli (rd : Fin 32) (shamt : ℕ)
  | srai (rd : Fin 32) (shamt : ℕ)
  | add (rd rs1 rs2 : Fin 32)
  | sub (rd rs2 : Fin 32)
  | xor (rd rs2 : Fin 32)
  | or (rd rs2 : Fin 32)
  | and (rd rs2 : Fin 32)
  | subw (rd rs2 : Fin 32)
  | addw (rd rs2 : Fin 32)
  | lw (rd rs1 : Fin 32) (imm : U64)
  | ld (rd rs1 : Fin 32) (imm : U64)
  | sw (rs2 rs1 : Fin 32) (imm : U64)
  | sd (rs2 rs1 : Fin 32) (imm : U64)
  | fld (rd rs1 : Fin 32) (imm : U64)
  | fsd (rs2 rs1 : Fin 32) (imm : U64)
  | j (imm : U64)
  | jr (rs1 : Fin 32)
  | jalr (rs1 : Fin 32)
  | beqz (rs1 : Fin 32) (imm : U64)
  | bnez (rs1 : Fin 32) (imm : U64)
  | ebreak
  deriving DecidableEq, Repr

/-! ## Decoding -/

section decode

variable (p : U16)

/-- The five-bit register fields. -/
def rd : BitVec 5 := p.extractLsb' 7 5
def rs2 : BitVec 5 := p.extractLsb' 2 5

/-- The three-bit register fields name x8 to x15. -/
def rd' : BitVec 5 := 1#2 ++ p.extractLsb' 2 3
def rs1' : BitVec 5 := 1#2 ++ p.extractLsb' 7 3

def funct3 : ℕ := (p.extractLsb' 13 3).toNat

/-- imm[5] at bit 12, imm[4:0] at bits 6 to 2. -/
def imm6 : BitVec 6 := p.extractLsb' 12 1 ++ p.extractLsb' 2 5

def shamt : ℕ := (imm6 p).toNat

/-- nzuimm[5:4|9:6|2|3] at bits 12 to 5. -/
def addi4spnImm : BitVec 10 := p.extractLsb' 7 4 ++ p.extractLsb' 11 2 ++ p.extractLsb' 5 1 ++ p.extractLsb' 6 1 ++ 0#2

/-- uimm[5:3] at bits 12 to 10, uimm[2|6] at bits 6 and 5. -/
def wordImm : BitVec 7 := p.extractLsb' 5 1 ++ p.extractLsb' 10 3 ++ p.extractLsb' 6 1 ++ 0#2

/-- uimm[5:3] at bits 12 to 10, uimm[7:6] at bits 6 and 5. -/
def doubleImm : BitVec 8 := p.extractLsb' 5 2 ++ p.extractLsb' 10 3 ++ 0#3

/-- nzimm[9] at bit 12, nzimm[4|6|8:7|5] at bits 6 to 2. -/
def addi16spImm : BitVec 10 :=
  p.extractLsb' 12 1 ++ p.extractLsb' 3 2 ++ p.extractLsb' 5 1 ++ p.extractLsb' 2 1 ++ p.extractLsb' 6 1 ++ 0#4

/-- nzimm[17] at bit 12, nzimm[16:12] at bits 6 to 2. -/
def luiImm : BitVec 18 := imm6 p ++ 0#12

/-- imm[11|4|9:8|10|6|7|3:1|5] at bits 12 to 2. -/
def jumpImm : BitVec 12 :=
  p.extractLsb' 12 1 ++ p.extractLsb' 8 1 ++ p.extractLsb' 9 2 ++ p.extractLsb' 6 1 ++ p.extractLsb' 7 1 ++
    p.extractLsb' 2 1 ++ p.extractLsb' 11 1 ++ p.extractLsb' 3 3 ++ 0#1

/-- imm[8|4:3] at bits 12 to 10, imm[7:6|2:1|5] at bits 6 to 2. -/
def branchImm : BitVec 9 :=
  p.extractLsb' 12 1 ++ p.extractLsb' 5 2 ++ p.extractLsb' 2 1 ++ p.extractLsb' 10 2 ++ p.extractLsb' 3 2 ++ 0#1

/-- uimm[5] at bit 12, uimm[4:2|7:6] at bits 6 to 2. -/
def lwspImm : BitVec 8 := p.extractLsb' 2 2 ++ p.extractLsb' 12 1 ++ p.extractLsb' 4 3 ++ 0#2

/-- uimm[5] at bit 12, uimm[4:3|8:6] at bits 6 to 2. -/
def ldspImm : BitVec 9 := p.extractLsb' 2 3 ++ p.extractLsb' 12 1 ++ p.extractLsb' 5 2 ++ 0#3

/-- uimm[5:2|7:6] at bits 12 to 7. -/
def swspImm : BitVec 8 := p.extractLsb' 7 2 ++ p.extractLsb' 9 4 ++ 0#2

/-- uimm[5:3|8:6] at bits 12 to 7. -/
def sdspImm : BitVec 9 := p.extractLsb' 7 3 ++ p.extractLsb' 10 3 ++ 0#3

/-- The first quadrant: stack-pointer arithmetic, loads and stores; the rest is reserved. -/
def decode0 : Option Insn :=
  match funct3 p with
  | 0 => if addi4spnImm p = 0 then none else some (.addi (rd' p).toFin 2 ((addi4spnImm p).setWidth 64)) -- C.ADDI4SPN
  | 1 => some (.fld (rd' p).toFin (rs1' p).toFin ((doubleImm p).setWidth 64)) -- C.FLD
  | 2 => some (.lw (rd' p).toFin (rs1' p).toFin ((wordImm p).setWidth 64)) -- C.LW
  | 3 => some (.ld (rd' p).toFin (rs1' p).toFin ((doubleImm p).setWidth 64)) -- C.LD
  | 4 => none
  | 5 => some (.fsd (rd' p).toFin (rs1' p).toFin ((doubleImm p).setWidth 64)) -- C.FSD
  | 6 => some (.sw (rd' p).toFin (rs1' p).toFin ((wordImm p).setWidth 64)) -- C.SW
  | _ => some (.sd (rd' p).toFin (rs1' p).toFin ((doubleImm p).setWidth 64)) -- C.SD

/-- The register-register code points; two are reserved. -/
def decodeAlu : Option Insn :=
  match (p.extractLsb' 12 1).toNat, (p.extractLsb' 5 2).toNat with
  | 0, 0 => some (.sub (rs1' p).toFin (rd' p).toFin)
  | 0, 1 => some (.xor (rs1' p).toFin (rd' p).toFin)
  | 0, 2 => some (.or (rs1' p).toFin (rd' p).toFin)
  | 0, _ => some (.and (rs1' p).toFin (rd' p).toFin)
  | _, 0 => some (.subw (rs1' p).toFin (rd' p).toFin)
  | _, 1 => some (.addw (rs1' p).toFin (rd' p).toFin)
  | _, _ => none

/-- The second quadrant: immediates, register arithmetic and control transfers. -/
def decode1 : Option Insn :=
  match funct3 p with
  | 0 => -- C.NOP, C.ADDI
    some (if rd p = 0 ∨ imm6 p = 0 then .hint else .addi (rd p).toFin (rd p).toFin ((imm6 p).signExtend 64))
  | 1 => if rd p = 0 then none else some (.addiw (rd p).toFin ((imm6 p).signExtend 64)) -- C.ADDIW
  | 2 => some (if rd p = 0 then .hint else .addi (rd p).toFin 0 ((imm6 p).signExtend 64)) -- C.LI
  | 3 =>
    if rd p = 2 then if addi16spImm p = 0 then none else some (.addi 2 2 ((addi16spImm p).signExtend 64)) -- C.ADDI16SP
    else if imm6 p = 0 then none
    else some (if rd p = 0 then .hint else .lui (rd p).toFin ((luiImm p).signExtend 64)) -- C.LUI
  | 4 =>
    match (p.extractLsb' 10 2).toNat with
    | 0 => some (if imm6 p = 0 then .hint else .srli (rs1' p).toFin (shamt p)) -- C.SRLI
    | 1 => some (if imm6 p = 0 then .hint else .srai (rs1' p).toFin (shamt p)) -- C.SRAI
    | 2 => some (.andi (rs1' p).toFin ((imm6 p).signExtend 64)) -- C.ANDI
    | _ => decodeAlu p
  | 5 => some (.j ((jumpImm p).signExtend 64)) -- C.J
  | 6 => some (.beqz (rs1' p).toFin ((branchImm p).signExtend 64)) -- C.BEQZ
  | _ => some (.bnez (rs1' p).toFin ((branchImm p).signExtend 64)) -- C.BNEZ

/-- C.JR and C.MV, and, under bit 12, C.EBREAK, C.JALR and C.ADD. -/
def decodeReg : Option Insn :=
  if p.extractLsb' 12 1 = 0 then
    if rs2 p = 0 then if rd p = 0 then none else some (.jr (rd p).toFin)
    else some (if rd p = 0 then .hint else .add (rd p).toFin 0 (rs2 p).toFin)
  else if rs2 p = 0 then some (if rd p = 0 then .ebreak else .jalr (rd p).toFin)
  else some (if rd p = 0 then .hint else .add (rd p).toFin (rd p).toFin (rs2 p).toFin)

/-- The third quadrant: accesses relative to the stack pointer, and moves between registers. -/
def decode2 : Option Insn :=
  match funct3 p with
  | 0 => some (if rd p = 0 ∨ imm6 p = 0 then .hint else .slli (rd p).toFin (shamt p)) -- C.SLLI
  | 1 => some (.fld (rd p).toFin 2 ((ldspImm p).setWidth 64)) -- C.FLDSP
  | 2 => if rd p = 0 then none else some (.lw (rd p).toFin 2 ((lwspImm p).setWidth 64)) -- C.LWSP
  | 3 => if rd p = 0 then none else some (.ld (rd p).toFin 2 ((ldspImm p).setWidth 64)) -- C.LDSP
  | 4 => decodeReg p
  | 5 => some (.fsd (rs2 p).toFin 2 ((sdspImm p).setWidth 64)) -- C.FSDSP
  | 6 => some (.sw (rs2 p).toFin 2 ((swspImm p).setWidth 64)) -- C.SWSP
  | _ => some (.sd (rs2 p).toFin 2 ((sdspImm p).setWidth 64)) -- C.SDSP

/-- The instruction a parcel encodes; none = reserved, or not a parcel of the extension. -/
def decode : Option Insn :=
  match (p.extractLsb' 0 2).toNat with
  | 0 => decode0 p
  | 1 => decode1 p
  | 2 => decode2 p
  | _ => none

end decode

/-! ## Execution -/

open Hart

/-- The double-precision accesses, which need the FP unit on. -/
def Insn.isFp : Insn → Bool
  | .fld _ _ _ | .fsd _ _ _ => true
  | _ => false

/-- Write `rd` and go on with the next parcel. -/
def write (c : Cpu) (rd : Fin 32) (v : U64) : Hart Next := do
  upd (.wr rd v)
  return .to (c.pc + 2) none

/-- What an instruction does; `c` holds the registers at its start. -/
def perform (parcel : U32) (c : Cpu) : Insn → Hart Next
  | .hint => .pure (.to (c.pc + 2) none)
  | .addi rd rs1 imm => write c rd (c.x rs1 + imm)
  | .addiw rd imm => write c rd (((c.x rd + imm).setWidth 32).signExtend 64)
  | .lui rd imm => write c rd imm
  | .andi rd imm => write c rd (c.x rd &&& imm)
  | .slli rd shamt => write c rd (c.x rd <<< shamt)
  | .srli rd shamt => write c rd (c.x rd >>> shamt)
  | .srai rd shamt => write c rd ((c.x rd).sshiftRight shamt)
  | .add rd rs1 rs2 => write c rd (c.x rs1 + c.x rs2)
  | .sub rd rs2 => write c rd (c.x rd - c.x rs2)
  | .xor rd rs2 => write c rd (c.x rd ^^^ c.x rs2)
  | .or rd rs2 => write c rd (c.x rd ||| c.x rs2)
  | .and rd rs2 => write c rd (c.x rd &&& c.x rs2)
  | .subw rd rs2 => write c rd (((c.x rd - c.x rs2).setWidth 32).signExtend 64)
  | .addw rd rs2 => write c rd (((c.x rd + c.x rs2).setWidth 32).signExtend 64)
  | .lw rd rs1 imm => do
    let v ← ld .w4 (c.x rs1 + imm)
    write c rd ((v.setWidth 32).signExtend 64)
  | .ld rd rs1 imm => do
    let v ← ld .w8 (c.x rs1 + imm)
    write c rd v
  | .sw rs2 rs1 imm => do
    st .w4 (c.x rs1 + imm) (c.x rs2)
    return .to (c.pc + 2) none
  | .sd rs2 rs1 imm => do
    st .w8 (c.x rs1 + imm) (c.x rs2)
    return .to (c.pc + 2) none
  | .fld rd rs1 imm =>
    if c.fpOff then illegal parcel
    else do
      upd .fpDirty
      let v ← ld .w8 (c.x rs1 + imm)
      upd (.setF rd v)
      return .to (c.pc + 2) none
  | .fsd rs2 rs1 imm =>
    if c.fpOff then illegal parcel
    else do
      st .w8 (c.x rs1 + imm) (c.f rs2)
      return .to (c.pc + 2) none
  | .j imm => .pure (.to (c.pc + imm) none)
  | .jr rs1 => .pure (.to (c.x rs1 &&& ~~~1) none)
  | .jalr rs1 => do
    upd (.wr 1 (c.pc + 2))
    return .to (c.x rs1 &&& ~~~1) none
  | .beqz rs1 imm => .pure (.to (if c.x rs1 = c.x 0 then c.pc + imm else c.pc + 2) none)
  | .bnez rs1 imm => .pure (.to (if c.x rs1 ≠ c.x 0 then c.pc + imm else c.pc + 2) none)
  -- without privileged state the host takes the breakpoint
  | .ebreak => if c.sys.isSome then .throw .breakpoint else .pure (.to (c.pc + 2) (some .brk))

/-- Execute a parcel as specified: a reserved one is an illegal instruction, reported by the parcel itself. -/
def execute (p : U16) : Hart (Option StopReason) := do
  let c ← get
  match decode p with
  | none => illegal (p.setWidth 32)
  | some insn =>
    match ← perform (p.setWidth 32) c insn with
    | .to pc stop =>
      upd (.retire pc)
      return stop
    | .trapped => return none

end Rvc
end Lish
