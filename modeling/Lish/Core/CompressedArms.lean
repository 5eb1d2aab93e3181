import Lish.Core.CompressedSpec
import Lish.Core.Encoding
/-!
# CompressedArms — what the instructions behind parcels do

The fields and immediates that the expander reads off a parcel are the specified ones, and each instruction that a parcel can
expand to is executed down to the registers and memory it touches.
-/
namespace Lish
namespace Rvc

open Compressed Hart

/-! ## Fields -/

section fields

variable (p : U16)

/-- A masked field of the widened parcel. -/
theorem fld_field (lo n : ℕ) : fld (p.setWidth 32) lo ((BitVec.allOnes n).setWidth 32) = (p.extractLsb' lo n).setWidth 32 := by
  apply BitVec.eq_of_getLsbD_eq
  intro i hi
  have hp : decide (lo + i < 32) = false → p.getLsbD (lo + i) = false := fun h =>
    BitVec.getLsbD_of_ge p _ (by have := of_decide_eq_false h; omega)
  unfold fld
  rw [BitVec.getLsbD_and, BitVec.getLsbD_ushiftRight, BitVec.getLsbD_setWidth, BitVec.getLsbD_setWidth, BitVec.getLsbD_setWidth,
    BitVec.getLsbD_extractLsb', BitVec.getLsbD_allOnes]
  cases hd : decide (lo + i < 32) with
  | false => simp [hp hd]
  | true => simp [hi, Bool.and_comm]

theorem rd_field : fld (p.setWidth 32) 7 0x1f = (rd p).setWidth 32 := fld_field p 7 5

theorem rs2_field : fld (p.setWidth 32) 2 0x1f = (rs2 p).setWidth 32 := fld_field p 2 5

theorem creg_append (f : BitVec 3) : creg (f.setWidth 32) = (1#2 ++ f).setWidth 32 := by
  have h : f.setWidth 32 &&& 8 = 0 := by
    apply BitVec.eq_of_getLsbD_eq
    intro i hi
    rw [BitVec.getLsbD_and, BitVec.getLsbD_setWidth]
    interval_cases i <;> simp
  unfold creg
  rw [BitVec.add_eq_or_of_and_eq_zero _ _ h]
  apply BitVec.eq_of_getLsbD_eq
  intro i hi
  simp only [BitVec.getLsbD_or, BitVec.getLsbD_setWidth, BitVec.getLsbD_append]
  interval_cases i <;> simp

theorem rd'_field : creg (fld (p.setWidth 32) 2 7) = (rd' p).setWidth 32 := by
  have h : fld (p.setWidth 32) 2 7 = (p.extractLsb' 2 3).setWidth 32 := fld_field p 2 3
  rw [h, creg_append, rd']

theorem rs1'_field : creg (fld (p.setWidth 32) 7 7) = (rs1' p).setWidth 32 := by
  have h : fld (p.setWidth 32) 7 7 = (p.extractLsb' 7 3).setWidth 32 := fld_field p 7 3
  rw [h, creg_append, rs1']

theorem toNat_field (lo n : ℕ) (h : n ≤ 32) :
    (fld (p.setWidth 32) lo ((BitVec.allOnes n).setWidth 32)).toNat = (p.extractLsb' lo n).toNat := by
  rw [fld_field, BitVec.toNat_setWidth_of_le h]

theorem funct3_field : (fld (p.setWidth 32) 13 7).toNat = funct3 p := toNat_field p 13 3 (by decide)

/-! ## Immediates -/

theorem fld_bit (lo : ℕ) (m : U32) (i : ℕ) : (fld (p.setWidth 32) lo m).getLsbD i = (p.getLsbD (lo + i) && m.getLsbD i) := by
  unfold fld
  rw [BitVec.getLsbD_and, BitVec.getLsbD_ushiftRight, BitVec.getLsbD_setWidth]
  by_cases h : lo + i < 32
  · rw [decide_eq_true h, Bool.true_and]
  · rw [BitVec.getLsbD_of_ge p _ (by omega), Bool.and_false]

theorem sext_setWidth {k : ℕ} (x : BitVec k) (hk : 0 < k) (hk' : k ≤ 32) : sext (x.setWidth 32) k = x.signExtend 32 := by
  apply BitVec.eq_of_getLsbD_eq
  intro i hi
  unfold sext
  rw [BitVec.getLsbD_sshiftRight, BitVec.getLsbD_signExtend, BitVec.msb_eq_getLsbD_last, BitVec.msb_eq_getLsbD_last,
    BitVec.getLsbD_shiftLeft, BitVec.getLsbD_shiftLeft, BitVec.getLsbD_setWidth, BitVec.getLsbD_setWidth]
  by_cases h : i < k
  · have h1 : 32 - k + i - (32 - k) = i := by omega
    simp [h, hi, h1, show 32 - k + i < 32 by omega, show ¬ 32 ≤ i by omega]
  · have h1 : 32 - 1 - (32 - k) = k - 1 := by omega
    simp [h, hi, h1, show ¬ 32 - k + i < 32 by omega, show ¬ 31 < 32 - k by omega, show k - 1 < 32 by omega]

theorem imm6_field : (fld (p.setWidth 32) 12 1 <<< 5) ||| fld (p.setWidth 32) 2 0x1f = (imm6 p).setWidth 32 := by
  apply BitVec.eq_of_getLsbD_eq
  intro i hi
  unfold imm6
  simp only [fld_bit, BitVec.getLsbD_or, BitVec.getLsbD_shiftLeft, BitVec.getLsbD_setWidth, BitVec.getLsbD_append,
    BitVec.getLsbD_extractLsb']
  interval_cases i <;> simp

theorem wordImm_field : (fld (p.setWidth 32) 10 7 <<< 3) ||| (fld (p.setWidth 32) 6 1 <<< 2) |||
    (fld (p.setWidth 32) 5 1 <<< 6) = (wordImm p).setWidth 32 := by
  apply BitVec.eq_of_getLsbD_eq
  intro i hi
  unfold wordImm
  simp only [fld_bit, BitVec.getLsbD_or, BitVec.getLsbD_shiftLeft, BitVec.getLsbD_setWidth, BitVec.getLsbD_append,
    BitVec.getLsbD_extractLsb']
  interval_cases i <;> simp

theorem doubleImm_field : (fld (p.setWidth 32) 10 7 <<< 3) ||| (fld (p.setWidth 32) 5 3 <<< 6) =
    (doubleImm p).setWidth 32 := by
  apply BitVec.eq_of_getLsbD_eq
  intro i hi
  unfold doubleImm
  simp only [fld_bit, BitVec.getLsbD_or, BitVec.getLsbD_shiftLeft, BitVec.getLsbD_setWidth, BitVec.getLsbD_append,
    BitVec.getLsbD_extractLsb']
  interval_cases i <;> simp

theorem addi4spnImm_field : (fld (p.setWidth 32) 11 3 <<< 4) ||| (fld (p.setWidth 32) 7 0xf <<< 6) |||
    (fld (p.setWidth 32) 6 1 <<< 2) ||| (fld (p.setWidth 32) 5 1 <<< 3) = (addi4spnImm p).setWidth 32 := by
  apply BitVec.eq_of_getLsbD_eq
  intro i hi
  unfold addi4spnImm
  simp only [fld_bit, BitVec.getLsbD_or, BitVec.getLsbD_shiftLeft, BitVec.getLsbD_setWidth, BitVec.getLsbD_append,
    BitVec.getLsbD_extractLsb']
  interval_cases i <;> simp

theorem lwspImm_field : (fld (p.setWidth 32) 12 1 <<< 5) ||| (fld (p.setWidth 32) 4 7 <<< 2) |||
    (fld (p.setWidth 32) 2 3 <<< 6) = (lwspImm p).setWidth 32 := by
  apply BitVec.eq_of_getLsbD_eq
  intro i hi
  unfold lwspImm
  simp only [fld_bit, BitVec.getLsbD_or, BitVec.getLsbD_shiftLeft, BitVec.getLsbD_setWidth, BitVec.getLsbD_append,
    BitVec.getLsbD_extractLsb']
  interval_cases i <;> simp

theorem ldspImm_field : (fld (p.setWidth 32) 12 1 <<< 5) ||| (fld (p.setWidth 32) 5 3 <<< 3) |||
    (fld (p.setWidth 32) 2 7 <<< 6) = (ldspImm p).setWidth 32 := by
  apply BitVec.eq_of_getLsbD_eq
  intro i hi
  unfold ldspImm
  simp only [fld_bit, BitVec.getLsbD_or, BitVec.getLsbD_shiftLeft, BitVec.getLsbD_setWidth, BitVec.getLsbD_append,
    BitVec.getLsbD_extractLsb']
  interval_cases i <;> simp

theorem swspImm_field : (fld (p.setWidth 32) 9 0xf <<< 2) ||| (fld (p.setWidth 32) 7 3 <<< 6) =
    (swspImm p).setWidth 32 := by
  apply BitVec.eq_of_getLsbD_eq
  intro i hi
  unfold swspImm
  simp only [fld_bit, BitVec.getLsbD_or, BitVec.getLsbD_shiftLeft, BitVec.getLsbD_setWidth, BitVec.getLsbD_append,
    BitVec.getLsbD_extractLsb']
  interval_cases i <;> simp

theorem sdspImm_field : (fld (p.setWidth 32) 10 7 <<< 3) ||| (fld (p.setWidth 32) 7 7 <<< 6) =
    (sdspImm p).setWidth 32 := by
  apply BitVec.eq_of_getLsbD_eq
  intro i hi
  unfold sdspImm
  simp only [fld_bit, BitVec.getLsbD_or, BitVec.getLsbD_shiftLeft, BitVec.getLsbD_setWidth, BitVec.getLsbD_append,
    BitVec.getLsbD_extractLsb']
  interval_cases i <;> simp

theorem addi16spImm_field : (fld (p.setWidth 32) 12 1 <<< 9) ||| (fld (p.setWidth 32) 6 1 <<< 4) |||
    (fld (p.setWidth 32) 5 1 <<< 6) ||| (fld (p.setWidth 32) 3 3 <<< 7) ||| (fld (p.setWidth 32) 2 1 <<< 5) =
    (addi16spImm p).setWidth 32 := by
  apply BitVec.eq_of_getLsbD_eq
  intro i hi
  unfold addi16spImm
  simp only [fld_bit, BitVec.getLsbD_or, BitVec.getLsbD_shiftLeft, BitVec.getLsbD_setWidth, BitVec.getLsbD_append,
    BitVec.getLsbD_extractLsb']
  interval_cases i <;> simp

theorem jumpImm_field : (fld (p.setWidth 32) 12 1 <<< 11) ||| (fld (p.setWidth 32) 11 1 <<< 4) |||
    (fld (p.setWidth 32) 9 3 <<< 8) ||| (fld (p.setWidth 32) 8 1 <<< 10) ||| (fld (p.setWidth 32) 7 1 <<< 6) |||
    (fld (p.setWidth 32) 6 1 <<< 7) ||| (fld (p.setWidth 32) 3 7 <<< 1) ||| (fld (p.setWidth 32) 2 1 <<< 5) =
    (jumpImm p).setWidth 32 := by
  apply BitVec.eq_of_getLsbD_eq
  intro i hi
  unfold jumpImm
  simp only [fld_bit, BitVec.getLsbD_or, BitVec.getLsbD_shiftLeft, BitVec.getLsbD_setWidth, BitVec.getLsbD_append,
    BitVec.getLsbD_extractLsb']
  interval_cases i <;> simp

theorem branchImm_field : (fld (p.setWidth 32) 12 1 <<< 8) ||| (fld (p.setWidth 32) 10 3 <<< 3) |||
    (fld (p.setWidth 32) 5 3 <<< 6) ||| (fld (p.setWidth 32) 3 3 <<< 1) ||| (fld (p.setWidth 32) 2 1 <<< 5) =
    (branchImm p).setWidth 32 := by
  apply BitVec.eq_of_getLsbD_eq
  intro i hi
  unfold branchImm
  simp only [fld_bit, BitVec.getLsbD_or, BitVec.getLsbD_shiftLeft, BitVec.getLsbD_setWidth, BitVec.getLsbD_append,
    BitVec.getLsbD_extractLsb']
  interval_cases i <;> simp

end fields

/-! ## Expanded instructions -/

section forms

variable (host : Option HostFp) (c : Cpu) (seq : U64) (r s t : BitVec 5) (i : U32)

/-- The end of an arm that writes a register and goes on. -/
def wrote (rd : Fin 32) (v : U64) : Hart Next := (upd (.wr rd v)).bind fun _ => .pure (.to seq none)

theorem reg_lt (r : BitVec 5) : (r.setWidth 32).toNat < 2 ^ 5 := by
  rw [BitVec.toNat_setWidth_of_le (by decide)]
  exact r.isLt

theorem reg_back (r : BitVec 5) : (r.setWidth 32).setWidth 5 = r := BitVec.setWidth_setWidth_of_le r (by decide)

theorem low_append : i.extractLsb' 5 7 ++ i.extractLsb' 0 5 = i.setWidth 12 := by
  apply BitVec.eq_of_getLsbD_eq
  intro j hj
  simp only [BitVec.getLsbD_append, BitVec.getLsbD_extractLsb', BitVec.getLsbD_setWidth]
  interval_cases j <;> simp

theorem narrow_signed {k : ℕ} (x : BitVec k) (hk : k ≤ 12) :
    ((x.signExtend 32).setWidth 12).signExtend 64 = x.signExtend 64 := by
  have h : (x.signExtend 32).setWidth 12 = x.signExtend 12 := by
    apply BitVec.eq_of_getLsbD_eq
    intro j hj
    rw [BitVec.getLsbD_setWidth, BitVec.getLsbD_signExtend, BitVec.getLsbD_signExtend, decide_eq_true hj,
      decide_eq_true (show j < 32 by omega), Bool.true_and, Bool.true_and]
  rw [h]
  apply BitVec.eq_of_toInt_eq
  rw [BitVec.toInt_signExtend_of_le (by omega), BitVec.toInt_signExtend_of_le hk, BitVec.toInt_signExtend_of_le (by omega)]

theorem narrow_unsigned {k : ℕ} (x : BitVec k) (hk : k < 12) : ((x.setWidth 32).setWidth 12).signExtend 64 = x.setWidth 64 := by
  have hm : (x.setWidth 12).msb = false := by
    rw [BitVec.msb_eq_getLsbD_last, BitVec.getLsbD_setWidth, BitVec.getLsbD_of_ge x _ (by omega), Bool.and_false]
  rw [BitVec.setWidth_setWidth_of_le x (by decide : 12 ≤ 32), BitVec.signExtend_eq_setWidth_of_msb_false hm,
    BitVec.setWidth_setWidth (by omega)]

theorem narrow_shamt (v : BitVec 12) : (v.signExtend 64 &&& 0x3f).toNat = (v.setWidth 6).toNat := by
  have h : v.signExtend 64 &&& 0x3f = (v.setWidth 6).setWidth 64 := by
    apply BitVec.eq_of_getLsbD_eq
    intro j hj
    simp only [BitVec.getLsbD_and, BitVec.getLsbD_signExtend, BitVec.getLsbD_setWidth]
    interval_cases j <;> simp
  rw [h, BitVec.toNat_setWidth_of_le (by decide)]

/-! ### Arms -/

section arms

variable (f7 : BitVec 7) (f3 : BitVec 3)

theorem arm_opImm : execArm host c (fields f7 t s f3 r 0x13) seq =
    wrote seq r.toFin (opImm (fields f7 t s f3 r 0x13) (c.x s.toFin)) := by
  unfold execArm
  rw [opcode_fields, rd_fields, rs1_fields]
  rfl

theorem arm_opImm32 {v : U64} (hv : opImm32 (fields f7 t s f3 r 0x1b) (c.x s.toFin) = some v) :
    execArm host c (fields f7 t s f3 r 0x1b) seq = wrote seq r.toFin v := by
  unfold execArm
  rw [opcode_fields, rd_fields, rs1_fields]
  change (require _ (opImm32 (fields f7 t s f3 r 0x1b) (c.x s.toFin))).bind _ = _
  rw [hv]
  rfl

theorem arm_op {v : U64} (hv : op64 (fields f7 t s f3 r 0x33) (c.x s.toFin) (c.x t.toFin) = some v) :
    execArm host c (fields f7 t s f3 r 0x33) seq = wrote seq r.toFin v := by
  unfold execArm
  rw [opcode_fields, rd_fields, rs1_fields, rs2_fields]
  change (require _ (op64 (fields f7 t s f3 r 0x33) (c.x s.toFin) (c.x t.toFin))).bind _ = _
  rw [hv]
  rfl

theorem arm_op32 {v : U64} (hv : op32 (fields f7 t s f3 r 0x3b) (c.x s.toFin) (c.x t.toFin) = some v) :
    execArm host c (fields f7 t s f3 r 0x3b) seq = wrote seq r.toFin v := by
  unfold execArm
  rw [opcode_fields, rd_fields, rs1_fields, rs2_fields]
  change (require _ (op32 (fields f7 t s f3 r 0x3b) (c.x s.toFin) (c.x t.toFin))).bind _ = _
  rw [hv]
  rfl

theorem arm_lui : execArm host c (fields f7 t s f3 r 0x37) seq = wrote seq r.toFin (immU (fields f7 t s f3 r 0x37)) := by
  unfold execArm
  rw [opcode_fields, rd_fields]
  rfl

theorem arm_jal : execArm host c (fields f7 t s f3 r 0x6f) seq =
    (upd (.wr r.toFin seq)).bind fun _ => .pure (.to (c.pc + immJ (fields f7 t s f3 r 0x6f)) none) := by
  unfold execArm
  rw [opcode_fields, rd_fields]
  rfl

theorem arm_jalr : execArm host c (fields f7 t s f3 r 0x67) seq =
    (upd (.wr r.toFin seq)).bind fun _ => .pure (.to ((c.x s.toFin + (f7 ++ t).signExtend 64) &&& ~~~1) none) := by
  unfold execArm
  rw [opcode_fields, rd_fields, rs1_fields, immI_fields]
  rfl

theorem arm_branch {taken : Bool} (h : branchTaken f3.toNat (c.x s.toFin) (c.x t.toFin) = some taken) :
    execArm host c (fields f7 t s f3 r 0x63) seq =
      .pure (.to (if taken then c.pc + immB (fields f7 t s f3 r 0x63) else seq) none) := by
  unfold execArm
  rw [opcode_fields, funct3_fields, rs1_fields, rs2_fields]
  change (require _ (branchTaken f3.toNat (c.x s.toFin) (c.x t.toFin))).bind _ = _
  rw [h]
  rfl

theorem arm_load {w : Width} {ext : U64 → U64} (h : loadForm f3.toNat = some (w, ext)) :
    execArm host c (fields f7 t s f3 r 0x03) seq =
      (ld w (c.x s.toFin + (f7 ++ t).signExtend 64)).bind fun v => wrote seq r.toFin (ext v) := by
  unfold execArm
  rw [opcode_fields]
  change (execLoad c (fields f7 t s f3 r 0x03)).bind _ = _
  unfold execLoad
  rw [funct3_fields, rd_fields, rs1_fields, immI_fields, h]
  change ((ld w (c.x s.toFin + (f7 ++ t).signExtend 64)).bind _).bind _ = _
  exact Program.bind_assoc _ _ _

theorem arm_store {w : Width} (h : storeWidth f3.toNat = some w) : execArm host c (fields f7 t s f3 r 0x23) seq =
    (st w (c.x s.toFin + (f7 ++ r).signExtend 64) (c.x t.toFin)).bind fun _ => .pure (.to seq none) := by
  unfold execArm
  rw [opcode_fields]
  change (execStore c (fields f7 t s f3 r 0x23)).bind _ = _
  unfold execStore
  rw [funct3_fields, rs1_fields, rs2_fields, immS_fields, h]
  rfl

theorem arm_loadFp_off (h : c.fpOff = true) :
    execArm host c (fields f7 t s f3 r 0x07) seq = illegal (fields f7 t s f3 r 0x07) := by
  unfold execArm
  rw [opcode_fields]
  change (execLoadFp c (fields f7 t s f3 r 0x07)).bind _ = _
  unfold execLoadFp fpCheck
  rw [h]
  rfl

theorem arm_storeFp_off (h : c.fpOff = true) :
    execArm host c (fields f7 t s f3 r 0x27) seq = illegal (fields f7 t s f3 r 0x27) := by
  unfold execArm
  rw [opcode_fields]
  change (execStoreFp c (fields f7 t s f3 r 0x27)).bind _ = _
  unfold execStoreFp fpCheck
  rw [h]
  rfl

theorem arm_loadDouble (h : c.fpOff = false) : execArm host c (fields f7 t s 3 r 0x07) seq =
    (upd .fpDirty).bind fun _ => (ld .w8 (c.x s.toFin + (f7 ++ t).signExtend 64)).bind fun v =>
      (upd (.setF r.toFin v)).bind fun _ => .pure (.to seq none) := by
  unfold execArm
  rw [opcode_fields]
  change (execLoadFp c (fields f7 t s 3 r 0x07)).bind _ = _
  unfold execLoadFp fpCheck
  rw [funct3_fields, rd_fields, rs1_fields, immI_fields, h]
  change (Program.bind (upd .fpDirty) fun _ => Program.bind (ld .w8 _) _).bind _ = _
  rw [Program.bind_assoc]
  refine congrArg (Program.bind (upd .fpDirty)) (funext fun _ => ?_)
  rw [Program.bind_assoc]
  rfl

theorem arm_storeDouble (h : c.fpOff = false) : execArm host c (fields f7 t s 3 r 0x27) seq =
    (st .w8 (c.x s.toFin + (f7 ++ r).signExtend 64) (c.f t.toFin)).bind fun _ => .pure (.to seq none) := by
  unfold execArm
  rw [opcode_fields]
  change (execStoreFp c (fields f7 t s 3 r 0x27)).bind _ = _
  unfold execStoreFp fpCheck
  rw [funct3_fields, rs1_fields, rs2_fields, immS_fields, h]
  rfl

theorem opImm_add (a : U64) (op : BitVec 7) : opImm (fields f7 t s 0 r op) a = a + (f7 ++ t).signExtend 64 := by
  unfold opImm
  rw [funct3_fields, immI_fields]
  rfl

theorem opImm_and (a : U64) (op : BitVec 7) : opImm (fields f7 t s 7 r op) a = a &&& (f7 ++ t).signExtend 64 := by
  unfold opImm
  rw [funct3_fields, immI_fields]
  rfl

theorem opImm_sll (a : U64) (op : BitVec 7) : opImm (fields f7 t s 1 r op) a = a <<< ((f7 ++ t).setWidth 6).toNat := by
  rw [← narrow_shamt]
  unfold opImm
  rw [funct3_fields, immI_fields]
  rfl

theorem opImm_srl (a : U64) (op : BitVec 7) (h : f7.extractLsb' 1 6 = 0) :
    opImm (fields f7 t s 5 r op) a = a >>> ((f7 ++ t).setWidth 6).toNat := by
  rw [← narrow_shamt]
  unfold opImm
  rw [funct3_fields, immI_fields, funct6_fields, h]
  rfl

theorem opImm_sra (a : U64) (op : BitVec 7) (h : f7.extractLsb' 1 6 = 0x10) :
    opImm (fields f7 t s 5 r op) a = a.sshiftRight ((f7 ++ t).setWidth 6).toNat := by
  rw [← narrow_shamt]
  unfold opImm
  rw [funct3_fields, immI_fields, funct6_fields, h]
  rfl

theorem opImm32_add (a : U64) (op : BitVec 7) :
    opImm32 (fields f7 t s 0 r op) a = some (((a + (f7 ++ t).signExtend 64).setWidth 32).signExtend 64) := by
  rw [BitVec.setWidth_add _ _ (by decide)]
  unfold opImm32
  rw [funct3_fields, immI_fields]
  rfl

/-- The registers of an encoding do not decide its operation. -/
theorem op64_fields (a b : U64) : op64 (fields f7 t s f3 r 0x33) a b = op64 (fields f7 0 0 f3 0 0x33) a b := by
  unfold op64
  rw [funct7_fields, funct3_fields, funct7_fields, funct3_fields]

theorem op32_fields (a b : U64) : op32 (fields f7 t s f3 r 0x3b) a b = op32 (fields f7 0 0 f3 0 0x3b) a b := by
  unfold op32
  rw [funct7_fields, funct3_fields, funct7_fields, funct3_fields]

end arms

/-! ### Formats -/

section formats

variable {o f g : U32}

theorem encI_reg (ho : o.toNat < 2 ^ 7) (hf : f.toNat < 2 ^ 3) : encI o (r.setWidth 32) f (s.setWidth 32) i =
    fields (i.extractLsb' 5 7) (i.extractLsb' 0 5) s (f.setWidth 3) r (o.setWidth 7) := by
  rw [encI_fields ho (reg_lt r) hf (reg_lt s), reg_back, reg_back]

theorem encS_reg (ho : o.toNat < 2 ^ 7) (hf : f.toNat < 2 ^ 3) : encS o f (s.setWidth 32) (t.setWidth 32) i =
    fields (i.extractLsb' 5 7) t s (f.setWidth 3) (i.extractLsb' 0 5) (o.setWidth 7) := by
  rw [encS_fields ho hf (reg_lt s) (reg_lt t), reg_back, reg_back]

theorem encR_reg (ho : o.toNat < 2 ^ 7) (hf : f.toNat < 2 ^ 3) : encR o (r.setWidth 32) f (s.setWidth 32) (t.setWidth 32) g =
    fields (g.setWidth 7) t s (f.setWidth 3) r (o.setWidth 7) := by
  rw [encR_fields ho (reg_lt r) hf (reg_lt s) (reg_lt t), reg_back, reg_back, reg_back]

end formats

end forms

end Rvc
end Lish
