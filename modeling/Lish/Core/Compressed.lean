import Lish.Core.Arch
/-!
# Compressed — RVC expansion

Each 16-bit instruction maps onto one 32-bit base instruction, or is reserved.
-/
namespace Lish.Compressed

def encR (op rd f3 rs1 rs2 f7 : U32) : U32 :=
  op ||| (rd <<< 7) ||| (f3 <<< 12) ||| (rs1 <<< 15) ||| (rs2 <<< 20) ||| (f7 <<< 25)

def encI (op rd f3 rs1 imm : U32) : U32 :=
  op ||| (rd <<< 7) ||| (f3 <<< 12) ||| (rs1 <<< 15) ||| ((imm &&& 0xfff) <<< 20)

def encS (op f3 rs1 rs2 imm : U32) : U32 :=
  op ||| (((imm &&& 0x1f) <<< 7) ||| (f3 <<< 12) ||| (rs1 <<< 15) ||| (rs2 <<< 20) ||| ((imm &&& 0xfe0) <<< 20))

def encB (op f3 rs1 rs2 imm : U32) : U32 :=
  op ||| (((imm >>> 11) &&& 1) <<< 7) ||| (((imm >>> 1) &&& 0xf) <<< 8) ||| (f3 <<< 12) ||| (rs1 <<< 15) |||
    (rs2 <<< 20) ||| (((imm >>> 5) &&& 0x3f) <<< 25) ||| (((imm >>> 12) &&& 1) <<< 31)

def encU (op rd imm20 : U32) : U32 := op ||| (rd <<< 7) ||| (imm20 <<< 12)

def encJ (op rd imm : U32) : U32 :=
  op ||| (rd <<< 7) ||| (imm &&& 0xff000) ||| (((imm >>> 11) &&& 1) <<< 20) ||| (((imm >>> 1) &&& 0x3ff) <<< 21) |||
    (((imm >>> 20) &&& 1) <<< 31)

/-- x8..x15 -/
def creg (f : U32) : U32 := f + 8

/-- Sign-extend the low `bits` bits. -/
def sext (val : U32) (bits : ℕ) : U32 := (val <<< (32 - bits)).sshiftRight (32 - bits)

abbrev OP : U32 := 0x33
abbrev OP32 : U32 := 0x3b
abbrev OPIMM : U32 := 0x13
abbrev OPIMM32 : U32 := 0x1b
abbrev LOAD : U32 := 0x03
abbrev STORE : U32 := 0x23
abbrev LOADFP : U32 := 0x07
abbrev STOREFP : U32 := 0x27
abbrev LUI : U32 := 0x37
abbrev JAL : U32 := 0x6f
abbrev JALR : U32 := 0x67
abbrev BRANCH : U32 := 0x63

/-- The bits of `c` from `lo`, masked by `m`. -/
def fld (c : U32) (lo : ℕ) (m : U32) : U32 := (c >>> lo) &&& m

def quadrant0 (c : U32) : Option U32 :=
  let rd := creg (fld c 2 7)
  let rs1 := creg (fld c 7 7)
  let immW := (fld c 10 7 <<< 3) ||| (fld c 6 1 <<< 2) ||| (fld c 5 1 <<< 6)
  let immD := (fld c 10 7 <<< 3) ||| (fld c 5 3 <<< 6)
  match (fld c 13 7).toNat with
  | 0 => -- C.ADDI4SPN
    let imm := (fld c 11 3 <<< 4) ||| (fld c 7 0xf <<< 6) ||| (fld c 6 1 <<< 2) ||| (fld c 5 1 <<< 3)
    if imm = 0 then none else some (encI OPIMM rd 0 2 imm)
  | 2 => some (encI LOAD rd 2 rs1 immW) -- C.LW
  | 3 => some (encI LOAD rd 3 rs1 immD) -- C.LD
  | 6 => some (encS STORE 2 rs1 rd immW) -- C.SW
  | 7 => some (encS STORE 3 rs1 rd immD) -- C.SD
  | 1 => some (encI LOADFP rd 3 rs1 immD) -- C.FLD
  | 5 => some (encS STOREFP 3 rs1 rd immD) -- C.FSD
  | _ => none

def quadrant1 (c : U32) : Option U32 :=
  let rd := fld c 7 0x1f
  let imm6 := sext ((fld c 12 1 <<< 5) ||| fld c 2 0x1f) 6
  match (fld c 13 7).toNat with
  | 0 => some (encI OPIMM rd 0 rd imm6) -- C.ADDI
  | 1 => if rd = 0 then none else some (encI OPIMM32 rd 0 rd imm6) -- C.ADDIW
  | 2 => some (encI OPIMM rd 0 0 imm6) -- C.LI
  | 3 =>
    if rd = 2 then -- C.ADDI16SP
      let imm := sext ((fld c 12 1 <<< 9) ||| (fld c 6 1 <<< 4) ||| (fld c 5 1 <<< 6) ||| (fld c 3 3 <<< 7) |||
        (fld c 2 1 <<< 5)) 10
      if imm = 0 then none else some (encI OPIMM 2 0 2 imm)
    else if imm6 = 0 then none
    else some (encU LUI rd (imm6 &&& 0xfffff)) -- C.LUI
  | 4 =>
    let rdp := creg (fld c 7 7)
    let shamt := (fld c 12 1 <<< 5) ||| fld c 2 0x1f
    match (fld c 10 3).toNat with
    | 0 => some (encI OPIMM rdp 5 rdp shamt) -- C.SRLI
    | 1 => some (encI OPIMM rdp 5 rdp (shamt ||| 0x400)) -- C.SRAI
    | 2 => some (encI OPIMM rdp 7 rdp imm6) -- C.ANDI
    | _ =>
      let rs2 := creg (fld c 2 7)
      match ((fld c 12 1 <<< 2) ||| fld c 5 3).toNat with
      | 0 => some (encR OP rdp 0 rdp rs2 0x20) -- C.SUB
      | 1 => some (encR OP rdp 4 rdp rs2 0) -- C.XOR
      | 2 => some (encR OP rdp 6 rdp rs2 0) -- C.OR
      | 3 => some (encR OP rdp 7 rdp rs2 0) -- C.AND
      | 4 => some (encR OP32 rdp 0 rdp rs2 0x20) -- C.SUBW
      | 5 => some (encR OP32 rdp 0 rdp rs2 0) -- C.ADDW
      | _ => none
  | 5 => -- C.J
    let imm := sext ((fld c 12 1 <<< 11) ||| (fld c 11 1 <<< 4) ||| (fld c 9 3 <<< 8) ||| (fld c 8 1 <<< 10) |||
      (fld c 7 1 <<< 6) ||| (fld c 6 1 <<< 7) ||| (fld c 3 7 <<< 1) ||| (fld c 2 1 <<< 5)) 12
    some (encJ JAL 0 imm)
  | f3 => -- C.BEQZ / C.BNEZ
    let rs1 := creg (fld c 7 7)
    let imm := sext ((fld c 12 1 <<< 8) ||| (fld c 10 3 <<< 3) ||| (fld c 5 3 <<< 6) ||| (fld c 3 3 <<< 1) |||
      (fld c 2 1 <<< 5)) 9
    some (encB BRANCH (if f3 = 6 then 0 else 1) rs1 0 imm)

def quadrant2 (c : U32) : Option U32 :=
  let rd := fld c 7 0x1f
  let rs2 := fld c 2 0x1f
  match (fld c 13 7).toNat with
  | 0 => some (encI OPIMM rd 1 rd ((fld c 12 1 <<< 5) ||| fld c 2 0x1f)) -- C.SLLI
  | 2 => -- C.LWSP
    if rd = 0 then none
    else some (encI LOAD rd 2 2 ((fld c 12 1 <<< 5) ||| (fld c 4 7 <<< 2) ||| (fld c 2 3 <<< 6)))
  | 3 => -- C.LDSP
    if rd = 0 then none
    else some (encI LOAD rd 3 2 ((fld c 12 1 <<< 5) ||| (fld c 5 3 <<< 3) ||| (fld c 2 7 <<< 6)))
  | 4 =>
    if fld c 12 1 = 0 then
      if rd = 0 then none
      else if rs2 = 0 then some (encI JALR 0 0 rd 0) -- C.JR
      else some (encR OP rd 0 0 rs2 0) -- C.MV
    else if rd = 0 then if rs2 = 0 then some 0x00100073 else some (encR OP rd 0 rd rs2 0) -- C.EBREAK / C.ADD
    else if rs2 = 0 then some (encI JALR 1 0 rd 0) -- C.JALR
    else some (encR OP rd 0 rd rs2 0) -- C.ADD
  | 6 => some (encS STORE 2 2 rs2 ((fld c 9 0xf <<< 2) ||| (fld c 7 3 <<< 6))) -- C.SWSP
  | 7 => some (encS STORE 3 2 rs2 ((fld c 10 7 <<< 3) ||| (fld c 7 7 <<< 6))) -- C.SDSP
  | 1 => some (encI LOADFP rd 3 2 ((fld c 12 1 <<< 5) ||| (fld c 5 3 <<< 3) ||| (fld c 2 7 <<< 6))) -- C.FLDSP
  | _ => some (encS STOREFP 3 2 rs2 ((fld c 10 7 <<< 3) ||| (fld c 7 7 <<< 6))) -- C.FSDSP

/-- Expand a 16-bit RVC instruction to its 32-bit equivalent (RV64C). -/
def expand (c : U16) : Option U32 :=
  let c : U32 := c.setWidth 32
  if c = 0 then none
  else match (c &&& 3).toNat with
    | 0 => quadrant0 c
    | 1 => quadrant1 c
    | _ => quadrant2 c

end Lish.Compressed

namespace Lish

/-- One instruction after variable-length fetch and RVC expansion. -/
structure DecodedInsn where
  bits : U32
  len : ℕ
  valid : Bool
  deriving DecidableEq, Repr

namespace DecodedInsn

/-- Decode from the four bytes at the pc; a compressed instruction takes the low halfword only. -/
def fromWord (word : U32) : DecodedInsn :=
  let lo := word &&& 0xffff
  if lo &&& 3 = 3 then ⟨word, 4, true⟩
  else match Compressed.expand (lo.setWidth 16) with
    | some bits => ⟨bits, 2, true⟩
    | none => ⟨lo, 2, false⟩

def byteLen (d : DecodedInsn) : U64 := BitVec.ofNat 64 d.len

end DecodedInsn

example : Compressed.expand 0x4501 = some 0x00000513 := by decide
example : Compressed.expand 0x0000 = none := by decide

end Lish
