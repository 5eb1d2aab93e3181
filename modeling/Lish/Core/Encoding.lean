import Mathlib.Tactic.IntervalCases
import Lish.Core.Compressed
/-!
# Encoding — the fields of the instructions that the expander builds

Each encoder sets the fields of its format, and the extractors of the fields read them back.
-/
namespace Lish
namespace Compressed

/-- A 32-bit instruction by its fields, from the top. -/
def fields (f7 : BitVec 7) (rs2 rs1 : BitVec 5) (f3 : BitVec 3) (rd : BitVec 5) (op : BitVec 7) : U32 :=
  f7 ++ rs2 ++ rs1 ++ f3 ++ rd ++ op

/-! ## Extractors -/

section extract

variable (f7 : BitVec 7) (r2 r1 : BitVec 5) (f3 : BitVec 3) (r : BitVec 5) (op : BitVec 7)

theorem fields_bit (i : ℕ) : (fields f7 r2 r1 f3 r op).getLsbD i =
    if i < 7 then op.getLsbD i else if i < 12 then r.getLsbD (i - 7) else if i < 15 then f3.getLsbD (i - 12)
    else if i < 20 then r1.getLsbD (i - 15) else if i < 25 then r2.getLsbD (i - 20) else f7.getLsbD (i - 25) := by
  unfold fields
  simp only [BitVec.getLsbD_append]
  split_ifs <;> first | rfl | (exfalso; omega)

theorem opcode_fields : opcode (fields f7 r2 r1 f3 r op) = op.toNat := by
  have h : fields f7 r2 r1 f3 r op &&& 0x7f = op.setWidth 32 := by
    apply BitVec.eq_of_getLsbD_eq
    intro i hi
    rw [BitVec.getLsbD_and, fields_bit, BitVec.getLsbD_setWidth]
    interval_cases i <;> simp
  unfold opcode
  rw [h, BitVec.toNat_setWidth, Nat.mod_eq_of_lt (by have := op.isLt; omega)]

theorem rd_fields : rd (fields f7 r2 r1 f3 r op) = r.toFin := by
  unfold rd
  congr 1
  apply BitVec.eq_of_getLsbD_eq
  intro i hi
  rw [BitVec.getLsbD_extractLsb', fields_bit]
  interval_cases i <;> simp

theorem rs1_fields : rs1 (fields f7 r2 r1 f3 r op) = r1.toFin := by
  unfold rs1
  congr 1
  apply BitVec.eq_of_getLsbD_eq
  intro i hi
  rw [BitVec.getLsbD_extractLsb', fields_bit]
  interval_cases i <;> simp

theorem funct3_fields : funct3 (fields f7 r2 r1 f3 r op) = f3.toNat := by
  have h : (fields f7 r2 r1 f3 r op >>> 12) &&& 7 = f3.setWidth 32 := by
    apply BitVec.eq_of_getLsbD_eq
    intro i hi
    rw [BitVec.getLsbD_and, BitVec.getLsbD_ushiftRight, fields_bit, BitVec.getLsbD_setWidth]
    interval_cases i <;> simp
  unfold funct3
  rw [h, BitVec.toNat_setWidth, Nat.mod_eq_of_lt (by have := f3.isLt; omega)]

theorem funct7_fields : funct7 (fields f7 r2 r1 f3 r op) = f7.toNat := by
  have h : fields f7 r2 r1 f3 r op >>> 25 = f7.setWidth 32 := by
    apply BitVec.eq_of_getLsbD_eq
    intro i hi
    rw [BitVec.getLsbD_ushiftRight, fields_bit, BitVec.getLsbD_setWidth]
    interval_cases i <;> simp
  unfold funct7
  rw [h, BitVec.toNat_setWidth, Nat.mod_eq_of_lt (by have := f7.isLt; omega)]

theorem rs2_fields : rs2 (fields f7 r2 r1 f3 r op) = r2.toFin := by
  unfold rs2
  congr 1
  apply BitVec.eq_of_getLsbD_eq
  intro i hi
  rw [BitVec.getLsbD_extractLsb', fields_bit]
  interval_cases i <;> simp

theorem funct6_fields : fields f7 r2 r1 f3 r op >>> 26 = (f7.extractLsb' 1 6).setWidth 32 := by
  apply BitVec.eq_of_getLsbD_eq
  intro i hi
  rw [BitVec.getLsbD_ushiftRight, fields_bit, BitVec.getLsbD_setWidth, BitVec.getLsbD_extractLsb']
  interval_cases i <;> simp

theorem immI_fields : immI (fields f7 r2 r1 f3 r op) = (f7 ++ r2).signExtend 64 := by
  apply BitVec.eq_of_getLsbD_eq
  intro i hi
  unfold immI sext32
  simp only [BitVec.getLsbD_sshiftRight, BitVec.getLsbD_signExtend, BitVec.msb_eq_getLsbD_last, fields_bit, BitVec.getLsbD_append]
  interval_cases i <;> simp

theorem immS_fields : immS (fields f7 r2 r1 f3 r op) = (f7 ++ r).signExtend 64 := by
  apply BitVec.eq_of_getLsbD_eq
  intro i hi
  unfold immS sext32
  simp only [BitVec.getLsbD_sshiftRight, BitVec.getLsbD_signExtend, BitVec.msb_eq_getLsbD_last, fields_bit, BitVec.getLsbD_append,
    BitVec.getLsbD_or, BitVec.getLsbD_and, BitVec.getLsbD_setWidth, BitVec.getLsbD_ushiftRight]
  interval_cases i <;> simp

theorem immB_fields : immB (fields f7 r2 r1 f3 r op) =
    (f7.extractLsb' 6 1 ++ r.extractLsb' 0 1 ++ f7.extractLsb' 0 6 ++ r.extractLsb' 1 4 ++ 0#1).signExtend 64 := by
  apply BitVec.eq_of_getLsbD_eq
  intro i hi
  unfold immB sext32
  simp only [BitVec.getLsbD_sshiftRight, BitVec.getLsbD_signExtend, BitVec.msb_eq_getLsbD_last, fields_bit, BitVec.getLsbD_append,
    BitVec.getLsbD_or, BitVec.getLsbD_and, BitVec.getLsbD_setWidth, BitVec.getLsbD_ushiftRight, BitVec.getLsbD_shiftLeft,
    BitVec.getLsbD_extractLsb']
  interval_cases i <;> simp

theorem immU_fields : immU (fields f7 r2 r1 f3 r op) = (f7 ++ r2 ++ r1 ++ f3 ++ 0#12).signExtend 64 := by
  apply BitVec.eq_of_getLsbD_eq
  intro i hi
  unfold immU sext32
  simp only [BitVec.getLsbD_signExtend, BitVec.msb_eq_getLsbD_last, fields_bit, BitVec.getLsbD_append, BitVec.getLsbD_and]
  interval_cases i <;> simp

theorem immJ_fields : immJ (fields f7 r2 r1 f3 r op) =
    (f7.extractLsb' 6 1 ++ r1 ++ f3 ++ r2.extractLsb' 0 1 ++ f7.extractLsb' 0 6 ++ r2.extractLsb' 1 4 ++ 0#1).signExtend 64 := by
  apply BitVec.eq_of_getLsbD_eq
  intro i hi
  unfold immJ sext32
  simp only [BitVec.getLsbD_sshiftRight, BitVec.getLsbD_signExtend, BitVec.msb_eq_getLsbD_last, fields_bit, BitVec.getLsbD_append,
    BitVec.getLsbD_or, BitVec.getLsbD_and, BitVec.getLsbD_setWidth, BitVec.getLsbD_ushiftRight, BitVec.getLsbD_extractLsb']
  interval_cases i <;> simp

end extract

/-! ## Encoders -/

section encode

variable {o d f s t g i : U32}

theorem setWidth_back {w : ℕ} {x : U32} (h : x.toNat < 2 ^ w) : (x.setWidth w).setWidth 32 = x := by
  apply BitVec.eq_of_toNat_eq
  rw [BitVec.toNat_setWidth, BitVec.toNat_setWidth, Nat.mod_eq_of_lt h, Nat.mod_eq_of_lt x.isLt]

theorem encR_fields (ho : o.toNat < 2 ^ 7) (hd : d.toNat < 2 ^ 5) (hf : f.toNat < 2 ^ 3) (hs : s.toNat < 2 ^ 5)
    (ht : t.toNat < 2 ^ 5) : encR o d f s t g =
      fields (g.setWidth 7) (t.setWidth 5) (s.setWidth 5) (f.setWidth 3) (d.setWidth 5) (o.setWidth 7) := by
  rw [← setWidth_back ho, ← setWidth_back hd, ← setWidth_back hf, ← setWidth_back hs, ← setWidth_back ht]
  apply BitVec.eq_of_getLsbD_eq
  intro j hj
  unfold encR
  simp only [BitVec.getLsbD_or, BitVec.getLsbD_shiftLeft, BitVec.getLsbD_setWidth, fields_bit]
  interval_cases j <;> simp

theorem encI_fields (ho : o.toNat < 2 ^ 7) (hd : d.toNat < 2 ^ 5) (hf : f.toNat < 2 ^ 3) (hs : s.toNat < 2 ^ 5) : encI o d f s i =
    fields (i.extractLsb' 5 7) (i.extractLsb' 0 5) (s.setWidth 5) (f.setWidth 3) (d.setWidth 5) (o.setWidth 7) := by
  rw [← setWidth_back ho, ← setWidth_back hd, ← setWidth_back hf, ← setWidth_back hs]
  apply BitVec.eq_of_getLsbD_eq
  intro j hj
  unfold encI
  simp only [BitVec.getLsbD_or, BitVec.getLsbD_and, BitVec.getLsbD_shiftLeft, BitVec.getLsbD_setWidth, fields_bit,
    BitVec.getLsbD_extractLsb']
  interval_cases j <;> simp

theorem encS_fields (ho : o.toNat < 2 ^ 7) (hf : f.toNat < 2 ^ 3) (hs : s.toNat < 2 ^ 5) (ht : t.toNat < 2 ^ 5) : encS o f s t i =
    fields (i.extractLsb' 5 7) (t.setWidth 5) (s.setWidth 5) (f.setWidth 3) (i.extractLsb' 0 5) (o.setWidth 7) := by
  rw [← setWidth_back ho, ← setWidth_back hf, ← setWidth_back hs, ← setWidth_back ht]
  apply BitVec.eq_of_getLsbD_eq
  intro j hj
  unfold encS
  simp only [BitVec.getLsbD_or, BitVec.getLsbD_and, BitVec.getLsbD_shiftLeft, BitVec.getLsbD_setWidth, fields_bit,
    BitVec.getLsbD_extractLsb']
  interval_cases j <;> simp

theorem encB_fields (ho : o.toNat < 2 ^ 7) (hf : f.toNat < 2 ^ 3) (hs : s.toNat < 2 ^ 5) (ht : t.toNat < 2 ^ 5) : encB o f s t i =
    fields (i.extractLsb' 12 1 ++ i.extractLsb' 5 6) (t.setWidth 5) (s.setWidth 5) (f.setWidth 3)
      (i.extractLsb' 1 4 ++ i.extractLsb' 11 1) (o.setWidth 7) := by
  rw [← setWidth_back ho, ← setWidth_back hf, ← setWidth_back hs, ← setWidth_back ht]
  apply BitVec.eq_of_getLsbD_eq
  intro j hj
  unfold encB
  simp only [BitVec.getLsbD_or, BitVec.getLsbD_and, BitVec.getLsbD_shiftLeft, BitVec.getLsbD_ushiftRight, BitVec.getLsbD_setWidth,
    fields_bit, BitVec.getLsbD_extractLsb', BitVec.getLsbD_append]
  interval_cases j <;> simp

theorem encU_fields (ho : o.toNat < 2 ^ 7) (hd : d.toNat < 2 ^ 5) : encU o d i =
    fields (i.extractLsb' 13 7) (i.extractLsb' 8 5) (i.extractLsb' 3 5) (i.extractLsb' 0 3) (d.setWidth 5) (o.setWidth 7) := by
  rw [← setWidth_back ho, ← setWidth_back hd]
  apply BitVec.eq_of_getLsbD_eq
  intro j hj
  unfold encU
  simp only [BitVec.getLsbD_or, BitVec.getLsbD_shiftLeft, BitVec.getLsbD_setWidth, fields_bit, BitVec.getLsbD_extractLsb']
  interval_cases j <;> simp

theorem encJ_fields (ho : o.toNat < 2 ^ 7) (hd : d.toNat < 2 ^ 5) : encJ o d i =
    fields (i.extractLsb' 20 1 ++ i.extractLsb' 5 6) (i.extractLsb' 1 4 ++ i.extractLsb' 11 1) (i.extractLsb' 15 5)
      (i.extractLsb' 12 3) (d.setWidth 5) (o.setWidth 7) := by
  rw [← setWidth_back ho, ← setWidth_back hd]
  apply BitVec.eq_of_getLsbD_eq
  intro j hj
  unfold encJ
  simp only [BitVec.getLsbD_or, BitVec.getLsbD_and, BitVec.getLsbD_shiftLeft, BitVec.getLsbD_ushiftRight, BitVec.getLsbD_setWidth,
    fields_bit, BitVec.getLsbD_extractLsb', BitVec.getLsbD_append]
  interval_cases j <;> simp

end encode

end Compressed
end Lish
