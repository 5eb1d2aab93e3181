import Lish.Core.CompressedArms
/-!
# CompressedExec — expanded parcels against the specification

A parcel is executed through the instruction that it expands to.  Each expansion acts as the specified instruction, quadrant
by quadrant, and the parcels for which this fails are listed.
-/
namespace Lish
namespace Rvc

open Compressed Hart

/-! ## Agreement -/

section agreement

variable (β : Type) [Bus β] (host : Option HostFp) (parcel : U32) (c : Cpu)

/-- An expansion acts as the specified instruction, a switched-off FP unit apart. -/
inductive Agrees : Option U32 → Option Insn → Prop
  | reserved : Agrees none none
  | int {bits : U32} {insn : Insn} (hfp : insn.isFp = false) (h : ∀ m : Machine β, m.cpu = c →
      (execArm host c bits (c.pc + 2)).run Machine.exec m = (perform parcel c insn).run Machine.exec m) :
      Agrees (some bits) (some insn)
  | fp {bits : U32} {insn : Insn} (hfp : insn.isFp = true) (hlow : bits &&& 3 = 3)
      (hoff : c.fpOff = true → execArm host c bits (c.pc + 2) = illegal bits)
      (hon : c.fpOff = false → execArm host c bits (c.pc + 2) = perform parcel c insn) : Agrees (some bits) (some insn)

variable {β host parcel c} {bits : U32} {r s t : BitVec 5} {i : U32} {imm : U64}

theorem Agrees.of_eq {insn : Insn} (hfp : insn.isFp = false)
    (h : execArm host c bits (c.pc + 2) = perform parcel c insn) : Agrees β host parcel c (some bits) (some insn) :=
  .int hfp fun _ _ => by rw [h]

/-- A register write that changes nothing. -/
theorem run_wr {α : Type} {rd : Fin 32} {v : U64} (k : Unit → Hart α) {m : Machine β} (h : m.cpu.wr rd v = m.cpu) :
    ((upd (.wr rd v)).bind k).run Machine.exec m = (k ()).run Machine.exec m := by
  have he : Machine.exec (HartOp.cpu (.wr rd v)) m = (.ok (), m) := by
    change (Except.ok (), { m with cpu := m.cpu.wr rd v }) = _
    rw [h]
  change (Program.op (HartOp.cpu (.wr rd v)) k).run Machine.exec m = _
  rw [Program.run_op, he]

theorem Agrees.of_hint {rd : Fin 32} {v : U64} (h : execArm host c bits (c.pc + 2) = wrote (c.pc + 2) rd v) (hc : c.wr rd v = c) :
    Agrees β host parcel c (some bits) (some .hint) := by
  refine .int rfl fun m hm => ?_
  subst hm
  rw [h]
  exact run_wr _ hc

theorem wr_zero (v : U64) : c.wr 0 v = c := if_neg fun h => h rfl

theorem wr_self (rd : Fin 32) : c.wr rd (c.x rd) = c := by
  unfold Cpu.wr
  split_ifs
  · have hx : (fun r => if r = rd then c.x rd else c.x r) = c.x := by
      funext r
      split_ifs with hr
      · rw [hr]
      · rfl
    rw [hx]
  · rfl

/-! ### Immediate arithmetic -/

theorem exec_addi : execArm host c (encI OPIMM (r.setWidth 32) 0 (s.setWidth 32) i) (c.pc + 2) =
    wrote (c.pc + 2) r.toFin (c.x s.toFin + (i.setWidth 12).signExtend 64) := by
  rw [encI_reg r s i (by decide) (by decide), ← low_append]
  exact (arm_opImm ..).trans (congrArg (wrote (c.pc + 2) r.toFin) (opImm_add ..))

theorem agrees_addi (hi : (i.setWidth 12).signExtend 64 = imm) : Agrees β host parcel c
    (some (encI OPIMM (r.setWidth 32) 0 (s.setWidth 32) i)) (some (.addi r.toFin s.toFin imm)) :=
  .of_eq rfl (by rw [exec_addi, hi]; rfl)

theorem agrees_addi_hint (h : r = 0 ∨ (s = r ∧ (i.setWidth 12).signExtend 64 = (0 : U64))) : Agrees β host parcel c
    (some (encI OPIMM (r.setWidth 32) 0 (s.setWidth 32) i)) (some .hint) := by
  refine .of_hint exec_addi ?_
  rcases h with rfl | ⟨rfl, hi⟩
  · exact wr_zero _
  · rw [hi, add_zero]
    exact wr_self _

theorem agrees_addiw (hi : (i.setWidth 12).signExtend 64 = imm) : Agrees β host parcel c
    (some (encI OPIMM32 (r.setWidth 32) 0 (r.setWidth 32) i)) (some (.addiw r.toFin imm)) := by
  refine .of_eq rfl ?_
  rw [encI_reg r r i (by decide) (by decide), ← hi, ← low_append]
  exact arm_opImm32 _ _ _ _ _ _ _ _ (opImm32_add ..)

theorem agrees_andi (hi : (i.setWidth 12).signExtend 64 = imm) : Agrees β host parcel c
    (some (encI OPIMM (r.setWidth 32) 7 (r.setWidth 32) i)) (some (.andi r.toFin imm)) := by
  refine .of_eq rfl ?_
  rw [encI_reg r r i (by decide) (by decide), ← hi, ← low_append]
  exact (arm_opImm ..).trans (congrArg (wrote (c.pc + 2) r.toFin) (opImm_and ..))

section shifts

variable {x : BitVec 6}

theorem shift_low : ((x.setWidth 32).setWidth 12).setWidth 6 = x := by
  rw [BitVec.setWidth_setWidth_of_le _ (by decide : 6 ≤ 12), BitVec.setWidth_setWidth_of_le _ (by decide : 6 ≤ 32),
    BitVec.setWidth_eq]

theorem arith_low : ((x.setWidth 32 ||| (0x400 : U32)).setWidth 12).setWidth 6 = x := by
  apply BitVec.eq_of_getLsbD_eq
  intro j hj
  simp only [BitVec.getLsbD_or, BitVec.getLsbD_setWidth]
  interval_cases j <;> simp

theorem shift_high : ((x.setWidth 32).extractLsb' 5 7).extractLsb' 1 6 = (0 : BitVec 6) := by
  apply BitVec.eq_of_getLsbD_eq
  intro j hj
  simp only [BitVec.getLsbD_extractLsb', BitVec.getLsbD_setWidth]
  interval_cases j <;> simp

theorem arith_high : ((x.setWidth 32 ||| (0x400 : U32)).extractLsb' 5 7).extractLsb' 1 6 = (0x10 : BitVec 6) := by
  apply BitVec.eq_of_getLsbD_eq
  intro j hj
  simp only [BitVec.getLsbD_or, BitVec.getLsbD_extractLsb', BitVec.getLsbD_setWidth]
  interval_cases j <;> simp

theorem exec_slli : execArm host c (encI OPIMM (r.setWidth 32) 1 (r.setWidth 32) (x.setWidth 32)) (c.pc + 2) =
    wrote (c.pc + 2) r.toFin (c.x r.toFin <<< x.toNat) := by
  rw [encI_reg r r _ (by decide) (by decide)]
  refine (arm_opImm ..).trans (congrArg (wrote (c.pc + 2) r.toFin) ((opImm_sll ..).trans ?_))
  rw [low_append, shift_low]

theorem exec_srli : execArm host c (encI OPIMM (r.setWidth 32) 5 (r.setWidth 32) (x.setWidth 32)) (c.pc + 2) =
    wrote (c.pc + 2) r.toFin (c.x r.toFin >>> x.toNat) := by
  rw [encI_reg r r _ (by decide) (by decide)]
  refine (arm_opImm ..).trans (congrArg (wrote (c.pc + 2) r.toFin) ((opImm_srl _ _ _ _ _ _ shift_high).trans ?_))
  rw [low_append, shift_low]

theorem exec_srai : execArm host c (encI OPIMM (r.setWidth 32) 5 (r.setWidth 32) (x.setWidth 32 ||| 0x400)) (c.pc + 2) =
    wrote (c.pc + 2) r.toFin ((c.x r.toFin).sshiftRight x.toNat) := by
  rw [encI_reg r r _ (by decide) (by decide)]
  refine (arm_opImm ..).trans (congrArg (wrote (c.pc + 2) r.toFin) ((opImm_sra _ _ _ _ _ _ arith_high).trans ?_))
  rw [low_append, arith_low]

theorem agrees_slli : Agrees β host parcel c
    (some (encI OPIMM (r.setWidth 32) 1 (r.setWidth 32) (x.setWidth 32))) (some (.slli r.toFin x.toNat)) := .of_eq rfl exec_slli

theorem agrees_srli : Agrees β host parcel c
    (some (encI OPIMM (r.setWidth 32) 5 (r.setWidth 32) (x.setWidth 32))) (some (.srli r.toFin x.toNat)) := .of_eq rfl exec_srli

theorem agrees_srai : Agrees β host parcel c
    (some (encI OPIMM (r.setWidth 32) 5 (r.setWidth 32) (x.setWidth 32 ||| 0x400))) (some (.srai r.toFin x.toNat)) :=
  .of_eq rfl exec_srai

theorem agrees_slli_hint (h : r = 0 ∨ x = 0) : Agrees β host parcel c
    (some (encI OPIMM (r.setWidth 32) 1 (r.setWidth 32) (x.setWidth 32))) (some .hint) := by
  refine .of_hint exec_slli ?_
  rcases h with rfl | rfl
  · exact wr_zero _
  · exact (congrArg (c.wr r.toFin) (BitVec.shiftLeft_zero _)).trans (wr_self _)

theorem agrees_srli_hint (h : x = 0) : Agrees β host parcel c
    (some (encI OPIMM (r.setWidth 32) 5 (r.setWidth 32) (x.setWidth 32))) (some .hint) := by
  subst h
  exact .of_hint exec_srli ((congrArg (c.wr r.toFin) (BitVec.ushiftRight_zero _)).trans (wr_self _))

theorem agrees_srai_hint (h : x = 0) : Agrees β host parcel c
    (some (encI OPIMM (r.setWidth 32) 5 (r.setWidth 32) (x.setWidth 32 ||| 0x400))) (some .hint) := by
  subst h
  exact .of_hint exec_srai ((congrArg (c.wr r.toFin) (BitVec.sshiftRight_zero ..)).trans (wr_self _))

end shifts

theorem lui_imm {x : BitVec 6} {i : U32} (hi : i = x.signExtend 32 &&& 0xfffff) :
    i.extractLsb' 13 7 ++ i.extractLsb' 8 5 ++ i.extractLsb' 3 5 ++ i.extractLsb' 0 3 ++ 0#12 = (x ++ 0#12).signExtend 32 := by
  subst hi
  apply BitVec.eq_of_getLsbD_eq
  intro j hj
  simp only [BitVec.getLsbD_append, BitVec.getLsbD_extractLsb', BitVec.getLsbD_and, BitVec.getLsbD_signExtend,
    BitVec.msb_eq_getLsbD_last]
  interval_cases j <;> simp

theorem exec_lui {x : BitVec 6} : execArm host c (encU LUI (r.setWidth 32) (x.signExtend 32 &&& 0xfffff)) (c.pc + 2) =
    wrote (c.pc + 2) r.toFin ((x ++ 0#12).signExtend 64) := by
  have hx : ((x ++ 0#12).signExtend 32).signExtend 64 = (x ++ 0#12).signExtend 64 := by
    apply BitVec.eq_of_toInt_eq
    rw [BitVec.toInt_signExtend_of_le (by decide), BitVec.toInt_signExtend_of_le (by decide),
      BitVec.toInt_signExtend_of_le (by decide)]
  rw [encU_fields (by decide) (reg_lt r), reg_back, ← hx, ← lui_imm rfl]
  exact (arm_lui ..).trans (congrArg (wrote (c.pc + 2) r.toFin) (immU_fields ..))

theorem agrees_lui {x : BitVec 6} : Agrees β host parcel c (some (encU LUI (r.setWidth 32) (x.signExtend 32 &&& 0xfffff)))
    (some (.lui r.toFin ((x ++ 0#12).signExtend 64))) := .of_eq rfl exec_lui

theorem agrees_lui_hint {x : BitVec 6} (h : r = 0) : Agrees β host parcel c
    (some (encU LUI (r.setWidth 32) (x.signExtend 32 &&& 0xfffff))) (some .hint) := by
  subst h
  exact .of_hint exec_lui (wr_zero _)

/-! ### Register arithmetic -/

theorem exec_op {f g : U32} {v : U64} (hf : f.toNat < 2 ^ 3)
    (hv : op64 (fields (g.setWidth 7) 0 0 (f.setWidth 3) 0 0x33) (c.x s.toFin) (c.x t.toFin) = some v) :
    execArm host c (encR OP (r.setWidth 32) f (s.setWidth 32) (t.setWidth 32) g) (c.pc + 2) = wrote (c.pc + 2) r.toFin v := by
  rw [encR_reg r s t (by decide) hf]
  exact arm_op _ _ _ _ _ _ _ _ ((op64_fields ..).trans hv)

theorem exec_op32 {f g : U32} {v : U64} (hf : f.toNat < 2 ^ 3)
    (hv : op32 (fields (g.setWidth 7) 0 0 (f.setWidth 3) 0 0x3b) (c.x s.toFin) (c.x t.toFin) = some v) :
    execArm host c (encR OP32 (r.setWidth 32) f (s.setWidth 32) (t.setWidth 32) g) (c.pc + 2) = wrote (c.pc + 2) r.toFin v := by
  rw [encR_reg r s t (by decide) hf]
  exact arm_op32 _ _ _ _ _ _ _ _ ((op32_fields ..).trans hv)

theorem agrees_add : Agrees β host parcel c (some (encR OP (r.setWidth 32) 0 (s.setWidth 32) (t.setWidth 32) 0))
    (some (.add r.toFin s.toFin t.toFin)) := .of_eq rfl (exec_op (by decide) rfl)

theorem agrees_add_hint (h : r = 0) : Agrees β host parcel c
    (some (encR OP (r.setWidth 32) 0 (s.setWidth 32) (t.setWidth 32) 0)) (some .hint) := by
  subst h
  exact .of_hint (exec_op (by decide) rfl) (wr_zero _)

theorem agrees_sub : Agrees β host parcel c (some (encR OP (r.setWidth 32) 0 (r.setWidth 32) (t.setWidth 32) 0x20))
    (some (.sub r.toFin t.toFin)) := .of_eq rfl (exec_op (by decide) rfl)

theorem agrees_xor : Agrees β host parcel c (some (encR OP (r.setWidth 32) 4 (r.setWidth 32) (t.setWidth 32) 0))
    (some (.xor r.toFin t.toFin)) := .of_eq rfl (exec_op (by decide) rfl)

theorem agrees_or : Agrees β host parcel c (some (encR OP (r.setWidth 32) 6 (r.setWidth 32) (t.setWidth 32) 0))
    (some (.or r.toFin t.toFin)) := .of_eq rfl (exec_op (by decide) rfl)

theorem agrees_and : Agrees β host parcel c (some (encR OP (r.setWidth 32) 7 (r.setWidth 32) (t.setWidth 32) 0))
    (some (.and r.toFin t.toFin)) := .of_eq rfl (exec_op (by decide) rfl)

theorem setWidth_sub (a b : U64) : (a - b).setWidth 32 = a.setWidth 32 - b.setWidth 32 := by
  rw [BitVec.sub_eq_add_neg, BitVec.setWidth_add _ _ (by decide), BitVec.setWidth_neg_of_le (by decide),
    ← BitVec.sub_eq_add_neg]

theorem agrees_subw : Agrees β host parcel c (some (encR OP32 (r.setWidth 32) 0 (r.setWidth 32) (t.setWidth 32) 0x20))
    (some (.subw r.toFin t.toFin)) := by
  refine .of_eq rfl (exec_op32 (by decide) ?_)
  rw [setWidth_sub]
  rfl

theorem agrees_addw : Agrees β host parcel c (some (encR OP32 (r.setWidth 32) 0 (r.setWidth 32) (t.setWidth 32) 0))
    (some (.addw r.toFin t.toFin)) := by
  refine .of_eq rfl (exec_op32 (by decide) ?_)
  rw [BitVec.setWidth_add _ _ (by decide)]
  rfl

/-! ### Loads and stores -/

theorem agrees_lw (hi : (i.setWidth 12).signExtend 64 = imm) : Agrees β host parcel c
    (some (encI LOAD (r.setWidth 32) 2 (s.setWidth 32) i)) (some (.lw r.toFin s.toFin imm)) := by
  refine .of_eq rfl ?_
  rw [encI_reg r s i (by decide) (by decide), ← hi, ← low_append]
  exact arm_load _ _ _ _ _ _ _ _ rfl

theorem agrees_ld (hi : (i.setWidth 12).signExtend 64 = imm) : Agrees β host parcel c
    (some (encI LOAD (r.setWidth 32) 3 (s.setWidth 32) i)) (some (.ld r.toFin s.toFin imm)) := by
  refine .of_eq rfl ?_
  rw [encI_reg r s i (by decide) (by decide), ← hi, ← low_append]
  exact arm_load _ _ _ _ _ _ _ _ rfl

theorem agrees_sw (hi : (i.setWidth 12).signExtend 64 = imm) : Agrees β host parcel c
    (some (encS STORE 2 (s.setWidth 32) (t.setWidth 32) i)) (some (.sw t.toFin s.toFin imm)) := by
  refine .of_eq rfl ?_
  rw [encS_reg s t i (by decide) (by decide), ← hi, ← low_append]
  exact arm_store _ _ _ _ _ _ _ _ rfl

theorem agrees_sd (hi : (i.setWidth 12).signExtend 64 = imm) : Agrees β host parcel c
    (some (encS STORE 3 (s.setWidth 32) (t.setWidth 32) i)) (some (.sd t.toFin s.toFin imm)) := by
  refine .of_eq rfl ?_
  rw [encS_reg s t i (by decide) (by decide), ← hi, ← low_append]
  exact arm_store _ _ _ _ _ _ _ _ rfl

theorem low_fields {f7 : BitVec 7} {f3 : BitVec 3} (op : BitVec 7) :
    fields f7 t s f3 r op &&& 3 = (op.extractLsb' 0 2).setWidth 32 := by
  apply BitVec.eq_of_getLsbD_eq
  intro j hj
  rw [BitVec.getLsbD_and, fields_bit, BitVec.getLsbD_setWidth, BitVec.getLsbD_extractLsb']
  interval_cases j <;> simp

theorem agrees_fld (hi : (i.setWidth 12).signExtend 64 = imm) : Agrees β host parcel c
    (some (encI LOADFP (r.setWidth 32) 3 (s.setWidth 32) i)) (some (.fld r.toFin s.toFin imm)) := by
  rw [encI_reg r s i (by decide) (by decide), ← hi, ← low_append]
  refine .fp rfl (low_fields _) (fun h => arm_loadFp_off _ _ _ _ _ _ _ _ h) fun h => ?_
  rw [perform, h]
  exact arm_loadDouble _ _ _ _ _ _ _ h

theorem agrees_fsd (hi : (i.setWidth 12).signExtend 64 = imm) : Agrees β host parcel c
    (some (encS STOREFP 3 (s.setWidth 32) (t.setWidth 32) i)) (some (.fsd t.toFin s.toFin imm)) := by
  rw [encS_reg s t i (by decide) (by decide), ← hi, ← low_append]
  refine .fp rfl (low_fields _) (fun h => arm_storeFp_off _ _ _ _ _ _ _ _ h) fun h => ?_
  rw [perform, h]
  exact arm_storeDouble _ _ _ _ _ _ _ h

/-! ### Control transfers -/

theorem jump_imm {x : BitVec 12} {i : U32} (hi : i = x.signExtend 32) (h0 : x[0] = false) :
    ((i.extractLsb' 20 1 ++ i.extractLsb' 5 6).extractLsb' 6 1 ++ i.extractLsb' 15 5 ++ i.extractLsb' 12 3 ++
      (i.extractLsb' 1 4 ++ i.extractLsb' 11 1).extractLsb' 0 1 ++ (i.extractLsb' 20 1 ++ i.extractLsb' 5 6).extractLsb' 0 6 ++
      (i.extractLsb' 1 4 ++ i.extractLsb' 11 1).extractLsb' 1 4 ++ 0#1).signExtend 64 = x.signExtend 64 := by
  subst hi
  apply BitVec.eq_of_getLsbD_eq
  intro j hj
  simp only [BitVec.getLsbD_append, BitVec.getLsbD_extractLsb', BitVec.getLsbD_signExtend, BitVec.msb_eq_getLsbD_last]
  interval_cases j <;> simp [h0]

theorem branch_imm {x : BitVec 9} {i : U32} (hi : i = x.signExtend 32) (h0 : x[0] = false) :
    ((i.extractLsb' 12 1 ++ i.extractLsb' 5 6).extractLsb' 6 1 ++ (i.extractLsb' 1 4 ++ i.extractLsb' 11 1).extractLsb' 0 1 ++
      (i.extractLsb' 12 1 ++ i.extractLsb' 5 6).extractLsb' 0 6 ++ (i.extractLsb' 1 4 ++ i.extractLsb' 11 1).extractLsb' 1 4 ++
      0#1).signExtend 64 = x.signExtend 64 := by
  subst hi
  apply BitVec.eq_of_getLsbD_eq
  intro j hj
  simp only [BitVec.getLsbD_append, BitVec.getLsbD_extractLsb', BitVec.getLsbD_signExtend, BitVec.msb_eq_getLsbD_last]
  interval_cases j <;> simp [h0]

theorem agrees_j {x : BitVec 12} (h0 : x[0] = false) :
    Agrees β host parcel c (some (encJ JAL 0 (x.signExtend 32))) (some (.j (x.signExtend 64))) := by
  refine .int rfl fun m hm => ?_
  subst hm
  rw [encJ_fields (by decide) (by decide), ← jump_imm rfl h0, ← immJ_fields]
  exact (congrArg (fun q : Hart Next => q.run Machine.exec m) (arm_jal ..)).trans (run_wr _ (wr_zero _))

theorem exec_jalr (r s : BitVec 5) : execArm host c (encI JALR (r.setWidth 32) 0 (s.setWidth 32) 0) (c.pc + 2) =
    (upd (.wr r.toFin (c.pc + 2))).bind fun _ => .pure (.to (c.x s.toFin &&& ~~~1) none) := by
  have h0 : ((0 : U32).extractLsb' 5 7 ++ (0 : U32).extractLsb' 0 5).signExtend 64 = (0 : U64) := rfl
  rw [encI_reg r s 0 (by decide) (by decide)]
  exact (arm_jalr ..).trans (by rw [h0, add_zero])

theorem agrees_jr : Agrees β host parcel c (some (encI JALR 0 0 (r.setWidth 32) 0)) (some (.jr r.toFin)) := by
  refine .int rfl fun m hm => ?_
  subst hm
  have h : execArm host m.cpu (encI JALR 0 0 (r.setWidth 32) 0) (m.cpu.pc + 2) = _ := exec_jalr 0 r
  rw [h]
  exact run_wr _ (wr_zero _)

theorem agrees_jalr : Agrees β host parcel c (some (encI JALR 1 0 (r.setWidth 32) 0)) (some (.jalr r.toFin)) :=
  .of_eq rfl (exec_jalr 1 r)

theorem encB_reg {f : U32} (hf : f.toNat < 2 ^ 3) : encB BRANCH f (r.setWidth 32) 0 i =
    fields (i.extractLsb' 12 1 ++ i.extractLsb' 5 6) 0 r (f.setWidth 3) (i.extractLsb' 1 4 ++ i.extractLsb' 11 1) 0x63 := by
  rw [encB_fields (by decide) hf (reg_lt r) (by decide), reg_back]
  rfl

theorem agrees_beqz {x : BitVec 9} (h0 : x[0] = false) : Agrees β host parcel c
    (some (encB BRANCH 0 (r.setWidth 32) 0 (x.signExtend 32))) (some (.beqz r.toFin (x.signExtend 64))) := by
  refine .of_eq rfl ?_
  rw [encB_reg (by decide), ← branch_imm rfl h0, ← immB_fields]
  refine (arm_branch _ _ _ _ _ _ _ _ rfl).trans ?_
  simp only [perform, beq_iff_eq]
  rfl

theorem agrees_bnez {x : BitVec 9} (h0 : x[0] = false) : Agrees β host parcel c
    (some (encB BRANCH 1 (r.setWidth 32) 0 (x.signExtend 32))) (some (.bnez r.toFin (x.signExtend 64))) := by
  refine .of_eq rfl ?_
  rw [encB_reg (by decide), ← branch_imm rfl h0, ← immB_fields]
  refine (arm_branch _ _ _ _ _ _ _ _ rfl).trans ?_
  simp only [perform, bne_iff_ne]
  rfl

theorem agrees_ebreak : Agrees β host parcel c (some 0x00100073) (some .ebreak) := by
  refine .of_eq rfl ?_
  have hop : opcode 0x00100073 = 0x73 := by decide
  unfold execArm
  rw [hop]
  change execSystem c 0x00100073 (c.pc + 2) = _
  unfold execSystem
  rw [if_neg (by decide), if_pos rfl]
  rfl

/-! ### Quadrants -/

variable {p : U16}

theorem setWidth_eq_zero {k : ℕ} {x : BitVec k} (hk : k ≤ 32) : x.setWidth 32 = (0 : U32) ↔ x = 0 := by
  rw [← BitVec.toNat_inj, ← BitVec.toNat_inj, BitVec.toNat_setWidth_of_le hk]
  rfl

theorem signExtend_eq_zero {k : ℕ} {x : BitVec k} (hk : k ≤ 32) : x.signExtend 32 = (0 : U32) ↔ x = 0 := by
  rw [← BitVec.toInt_inj, ← BitVec.toInt_inj, BitVec.toInt_signExtend_of_le hk]
  simp

theorem funct3_lt (p : U16) : funct3 p < 8 := (p.extractLsb' 13 3).isLt

theorem quadrant0_agrees : Agrees β host parcel c (quadrant0 (p.setWidth 32)) (decode0 p) := by
  have hlt := funct3_lt p
  unfold quadrant0 decode0
  dsimp only
  rw [funct3_field, rd'_field, rs1'_field, wordImm_field, doubleImm_field, addi4spnImm_field]
  generalize funct3 p = k at hlt
  interval_cases k
  · simp only [setWidth_eq_zero (by decide : 10 ≤ 32)]
    split_ifs
    · exact .reserved
    · exact agrees_addi (s := 2) (narrow_unsigned _ (by decide))
  · exact agrees_fld (narrow_unsigned _ (by decide))
  · exact agrees_lw (narrow_unsigned _ (by decide))
  · exact agrees_ld (narrow_unsigned _ (by decide))
  · exact .reserved
  · exact agrees_fsd (narrow_unsigned _ (by decide))
  · exact agrees_sw (narrow_unsigned _ (by decide))
  · exact agrees_sd (narrow_unsigned _ (by decide))

theorem reg_eq {x y : BitVec 5} : x.setWidth 32 = y.setWidth 32 ↔ x = y := by
  rw [← BitVec.toNat_inj, ← BitVec.toNat_inj, BitVec.toNat_setWidth_of_le (by decide),
    BitVec.toNat_setWidth_of_le (by decide)]

theorem alu_field (p : U16) : ((fld (p.setWidth 32) 12 1 <<< 2) ||| fld (p.setWidth 32) 5 3).toNat =
    4 * (p.extractLsb' 12 1).toNat + (p.extractLsb' 5 2).toNat := by
  have h : (fld (p.setWidth 32) 12 1 <<< 2) ||| fld (p.setWidth 32) 5 3 =
      (p.extractLsb' 12 1 ++ p.extractLsb' 5 2).setWidth 32 := by
    apply BitVec.eq_of_getLsbD_eq
    intro i hi
    simp only [fld_bit, BitVec.getLsbD_or, BitVec.getLsbD_shiftLeft, BitVec.getLsbD_setWidth, BitVec.getLsbD_append,
      BitVec.getLsbD_extractLsb']
    interval_cases i <;> simp
  rw [h, BitVec.toNat_setWidth_of_le (by decide), BitVec.toNat_append, Nat.shiftLeft_eq, Nat.mul_comm,
    ← Nat.two_pow_add_eq_or_of_lt (p.extractLsb' 5 2).isLt]

theorem jumpImm_even (p : U16) : (jumpImm p)[0] = false := by
  unfold jumpImm
  rw [BitVec.getElem_append]
  rfl

theorem branchImm_even (p : U16) : (branchImm p)[0] = false := by
  unfold branchImm
  rw [BitVec.getElem_append]
  rfl

theorem imm6_eq_zero {x : BitVec 6} (h : x = 0) : ((x.signExtend 32).setWidth 12).signExtend 64 = (0 : U64) := by
  subst h
  rfl

theorem alu_agrees : Agrees β host parcel c
    (match ((fld (p.setWidth 32) 12 1 <<< 2) ||| fld (p.setWidth 32) 5 3).toNat with
      | 0 => some (encR OP ((rs1' p).setWidth 32) 0 ((rs1' p).setWidth 32) ((rd' p).setWidth 32) 0x20)
      | 1 => some (encR OP ((rs1' p).setWidth 32) 4 ((rs1' p).setWidth 32) ((rd' p).setWidth 32) 0)
      | 2 => some (encR OP ((rs1' p).setWidth 32) 6 ((rs1' p).setWidth 32) ((rd' p).setWidth 32) 0)
      | 3 => some (encR OP ((rs1' p).setWidth 32) 7 ((rs1' p).setWidth 32) ((rd' p).setWidth 32) 0)
      | 4 => some (encR OP32 ((rs1' p).setWidth 32) 0 ((rs1' p).setWidth 32) ((rd' p).setWidth 32) 0x20)
      | 5 => some (encR OP32 ((rs1' p).setWidth 32) 0 ((rs1' p).setWidth 32) ((rd' p).setWidth 32) 0)
      | _ => none) (decodeAlu p) := by
  have ha := (p.extractLsb' 12 1).isLt
  have hb := (p.extractLsb' 5 2).isLt
  rw [alu_field]
  unfold decodeAlu
  generalize (p.extractLsb' 12 1).toNat = a at ha
  generalize (p.extractLsb' 5 2).toNat = b at hb
  interval_cases a <;> interval_cases b
  · exact agrees_sub
  · exact agrees_xor
  · exact agrees_or
  · exact agrees_and
  · exact agrees_subw
  · exact agrees_addw
  · exact .reserved
  · exact .reserved

theorem quadrant1_agrees : Agrees β host parcel c (quadrant1 (p.setWidth 32)) (decode1 p) := by
  have hlt := funct3_lt p
  have hlt' := (p.extractLsb' 10 2).isLt
  have hf2 : (fld (p.setWidth 32) 10 3).toNat = (p.extractLsb' 10 2).toNat := toNat_field p 10 2 (by decide)
  have h2 : (rd p).setWidth 32 = (2 : U32) ↔ rd p = 2 := reg_eq (y := 2)
  unfold quadrant1 decode1
  dsimp only
  rw [funct3_field, rd_field, rd'_field, rs1'_field, imm6_field, addi16spImm_field, jumpImm_field, branchImm_field,
    sext_setWidth _ (by decide) (by decide), sext_setWidth _ (by decide) (by decide), sext_setWidth _ (by decide) (by decide),
    sext_setWidth _ (by decide) (by decide), hf2]
  generalize funct3 p = k at hlt
  interval_cases k
  · change Agrees β host parcel c (some (encI OPIMM _ 0 _ _)) (some (if _ then _ else _))
    split_ifs with h
    · exact agrees_addi_hint (h.imp_right fun h => ⟨rfl, imm6_eq_zero h⟩)
    · exact agrees_addi (narrow_signed _ (by decide))
  · simp only [setWidth_eq_zero (by decide : 5 ≤ 32)]
    split_ifs
    · exact .reserved
    · exact agrees_addiw (narrow_signed _ (by decide))
  · change Agrees β host parcel c (some (encI OPIMM _ 0 0 _)) (some (if _ then _ else _))
    split_ifs with h
    · exact agrees_addi_hint (s := 0) (.inl h)
    · exact agrees_addi (s := 0) (narrow_signed _ (by decide))
  · simp only [h2, signExtend_eq_zero (by decide : 10 ≤ 32), signExtend_eq_zero (by decide : 6 ≤ 32)]
    split_ifs with h h' h' h'
    · exact .reserved
    · exact agrees_addi (r := 2) (s := 2) (narrow_signed _ (by decide))
    · exact .reserved
    · exact agrees_lui_hint h'
    · exact agrees_lui
  · generalize (p.extractLsb' 10 2).toNat = k at hlt'
    interval_cases k
    · change Agrees β host parcel c (some (encI OPIMM _ 5 _ _)) (some (if _ then _ else _))
      split_ifs with h
      · exact agrees_srli_hint h
      · exact agrees_srli
    · change Agrees β host parcel c (some (encI OPIMM _ 5 _ _)) (some (if _ then _ else _))
      split_ifs with h
      · exact agrees_srai_hint h
      · exact agrees_srai
    · exact agrees_andi (narrow_signed _ (by decide))
    · exact alu_agrees
  · exact agrees_j (jumpImm_even p)
  · exact agrees_beqz (branchImm_even p)
  · exact agrees_bnez (branchImm_even p)

/-- C.MV to x0 from another register. -/
def MvHint (p : U16) : Prop := p.extractLsb' 0 2 = 2 ∧ funct3 p = 4 ∧ p.extractLsb' 12 1 = 0 ∧ rd p = 0 ∧ rs2 p ≠ 0

theorem bit12_field (p : U16) : fld (p.setWidth 32) 12 1 = (0 : U32) ↔ p.extractLsb' 12 1 = 0 := by
  have h : fld (p.setWidth 32) 12 1 = (p.extractLsb' 12 1).setWidth 32 := fld_field p 12 1
  rw [h]
  exact setWidth_eq_zero (by decide)

theorem quadrant2_agrees (hmv : funct3 p = 4 → p.extractLsb' 12 1 = 0 → rd p = 0 → rs2 p = 0) :
    Agrees β host parcel c (quadrant2 (p.setWidth 32)) (decode2 p) := by
  have hlt := funct3_lt p
  unfold quadrant2 decode2 decodeReg
  dsimp only
  simp only [bit12_field]
  rw [funct3_field, rd_field, imm6_field, rs2_field, lwspImm_field, ldspImm_field, swspImm_field, sdspImm_field]
  generalize funct3 p = k at hlt hmv
  interval_cases k
  · change Agrees β host parcel c (some (encI OPIMM _ 1 _ _)) (some (if _ then _ else _))
    split_ifs with h
    · exact agrees_slli_hint h
    · exact agrees_slli
  · exact agrees_fld (s := 2) (narrow_unsigned _ (by decide))
  · simp only [setWidth_eq_zero (by decide : 5 ≤ 32)]
    split_ifs
    · exact .reserved
    · exact agrees_lw (s := 2) (narrow_unsigned _ (by decide))
  · simp only [setWidth_eq_zero (by decide : 5 ≤ 32)]
    split_ifs
    · exact .reserved
    · exact agrees_ld (s := 2) (narrow_unsigned _ (by decide))
  · simp only [setWidth_eq_zero (by decide : 5 ≤ 32)]
    by_cases h12 : p.extractLsb' 12 1 = 0
    · rw [if_pos h12, if_pos h12]
      by_cases hrd : rd p = 0
      · rw [if_pos hrd, if_pos (hmv rfl h12 hrd), if_pos hrd]
        exact .reserved
      · rw [if_neg hrd, if_neg hrd, if_neg hrd]
        split_ifs
        · exact agrees_jr
        · exact agrees_add (s := 0)
    · rw [if_neg h12, if_neg h12]
      split_ifs with hrd hrs
      · exact agrees_ebreak
      · exact agrees_add_hint hrd
      · exact agrees_jalr
      · exact agrees_add
  · exact agrees_fsd (s := 2) (narrow_unsigned _ (by decide))
  · exact agrees_sw (s := 2) (narrow_unsigned _ (by decide))
  · exact agrees_sd (s := 2) (narrow_unsigned _ (by decide))

theorem expand_eq (h : p ≠ 0) : expand p =
    if (p.extractLsb' 0 2).toNat = 0 then quadrant0 (p.setWidth 32)
    else if (p.extractLsb' 0 2).toNat = 1 then quadrant1 (p.setWidth 32) else quadrant2 (p.setWidth 32) := by
  have hlow : (p.setWidth 32 &&& 3).toNat = (p.extractLsb' 0 2).toNat := toNat_field p 0 2 (by decide)
  unfold expand
  dsimp only
  rw [if_neg fun h0 => h ((setWidth_eq_zero (by decide)).mp h0), hlow]
  rcases (p.extractLsb' 0 2).toNat with _ | _ | k
  · rfl
  · rfl
  · rfl

/-- **Expansion** agrees with the specification, C.MV to x0 apart. -/
theorem expand_agrees (hq : p.extractLsb' 0 2 ≠ 3) (hmv : ¬ MvHint p) : Agrees β host parcel c (expand p) (decode p) := by
  by_cases h0 : p = 0
  · subst h0
    exact .reserved
  · have hlt := (p.extractLsb' 0 2).isLt
    have hne : (p.extractLsb' 0 2).toNat ≠ 3 := fun h => hq (BitVec.eq_of_toNat_eq h)
    have hmv' : (p.extractLsb' 0 2).toNat = 2 → funct3 p = 4 → p.extractLsb' 12 1 = 0 → rd p = 0 → rs2 p = 0 :=
      fun h hf h12 hrd => by_contra fun hrs => hmv ⟨BitVec.eq_of_toNat_eq h, hf, h12, hrd, hrs⟩
    rw [expand_eq h0]
    unfold decode
    generalize (p.extractLsb' 0 2).toNat = k at hlt hne hmv'
    interval_cases k
    · exact quadrant0_agrees
    · exact quadrant1_agrees
    · exact quadrant2_agrees (hmv' rfl)
    · exact absurd rfl hne

theorem expand_mvHint (h : MvHint p) : expand p = none := by
  obtain ⟨hq, hf, h12, hrd, -⟩ := h
  have h0 : p ≠ 0 := fun h0 => by
    rw [h0] at hf
    exact absurd hf (by decide)
  rw [expand_eq h0, hq, if_neg (by decide), if_neg (by decide)]
  unfold quadrant2
  dsimp only
  rw [funct3_field, hf, rd_field, hrd]
  change (if fld (p.setWidth 32) 12 1 = 0 then _ else _) = none
  rw [if_pos ((bit12_field p).mpr h12)]
  rfl

theorem decode_mvHint (h : MvHint p) : decode p = some .hint := by
  obtain ⟨hq, hf, h12, hrd, hrs⟩ := h
  unfold decode
  rw [hq]
  change decode2 p = some .hint
  unfold decode2
  rw [hf]
  change decodeReg p = some .hint
  unfold decodeReg
  rw [if_pos h12, if_neg hrs, if_pos hrd]

/-! ### Execution -/

theorem word_parcel (word : U32) : word &&& 0xffff = (word.setWidth 16).setWidth 32 := by
  apply BitVec.eq_of_getLsbD_eq
  intro j hj
  simp only [BitVec.getLsbD_and, BitVec.getLsbD_setWidth]
  interval_cases j <;> simp

theorem word_low (word : U32) : word &&& 0xffff &&& 3 = word &&& 3 := by rw [BitVec.and_assoc]; rfl

theorem parcel_low (word : U32) : word &&& 3 = ((word.setWidth 16).extractLsb' 0 2).setWidth 32 := by
  apply BitVec.eq_of_getLsbD_eq
  intro j hj
  simp only [BitVec.getLsbD_and, BitVec.getLsbD_setWidth, BitVec.getLsbD_extractLsb']
  interval_cases j <;> simp

section word

variable {word : U32} (hw : word &&& 3 ≠ 3)
include hw

theorem fromWord_some {bits : U32} (h : expand (word.setWidth 16) = some bits) :
    DecodedInsn.fromWord word = ⟨bits, 2, true⟩ := by
  have hback : (word &&& 0xffff).setWidth 16 = word.setWidth 16 := by
    rw [word_parcel, BitVec.setWidth_setWidth_of_le _ (by decide), BitVec.setWidth_eq]
  unfold DecodedInsn.fromWord
  dsimp only
  rw [if_neg (by rwa [word_low]), hback, h]

theorem fromWord_none (h : expand (word.setWidth 16) = none) :
    DecodedInsn.fromWord word = ⟨(word.setWidth 16).setWidth 32, 2, false⟩ := by
  have hback : (word &&& 0xffff).setWidth 16 = word.setWidth 16 := by
    rw [word_parcel, BitVec.setWidth_setWidth_of_le _ (by decide), BitVec.setWidth_eq]
  unfold DecodedInsn.fromWord
  dsimp only
  rw [if_neg (by rwa [word_low]), hback, h, word_parcel]

end word

/-- What a decoded parcel does with the arm of its expansion. -/
def finish (r : Next) : Hart (Option StopReason) :=
  match r with
  | .to pc stop => (upd (.retire pc)).bind fun _ => .pure stop
  | .trapped => .pure none

theorem run_executeDecoded (host : Option HostFp) (bits : U32) (m : Machine β) :
    (executeDecoded host ⟨bits, 2, true⟩).run Machine.exec m =
      ((execArm host m.cpu bits (m.cpu.pc + 2)).bind finish).run Machine.exec m := rfl

theorem run_execute {p : U16} {insn : Insn} (h : decode p = some insn) (m : Machine β) :
    (execute p).run Machine.exec m = ((perform (p.setWidth 32) m.cpu insn).bind finish).run Machine.exec m := by
  unfold execute
  rw [h]
  rfl

theorem run_execute_none {p : U16} (h : decode p = none) (m : Machine β) :
    (execute p).run Machine.exec m = (.error (.illegalInstruction (p.setWidth 32)), m) := by
  unfold execute
  rw [h]
  rfl

theorem run_perform_off {p : U16} {insn : Insn} (hfp : insn.isFp = true) (h : c.fpOff = true) :
    perform (p.setWidth 32) c insn = illegal (p.setWidth 32) := by
  cases insn with
  | fld rd rs1 imm => exact if_pos h
  | fsd rs2 rs1 imm => exact if_pos h
  | _ => exact absurd hfp Bool.false_ne_true

/-- A reserved parcel is refused and reported, as specified. -/
theorem execute_reserved (host : Option HostFp) {word : U32} (hw : word &&& 3 ≠ 3) (he : expand (word.setWidth 16) = none)
    (m : Machine β) :
    (executeDecoded host (.fromWord word)).run Machine.exec m =
      (.error (.illegalInstruction ((word.setWidth 16).setWidth 32)), m) := by
  rw [fromWord_none hw he]
  rfl

/-- **RVC execution.**  A parcel has the specified effect, unless it is C.MV to x0, or the FP unit it needs is off. -/
theorem execute_exact (host : Option HostFp) {word : U32} (hw : word &&& 3 ≠ 3) (m : Machine β) :
    (executeDecoded host (.fromWord word)).run Machine.exec m = (execute (word.setWidth 16)).run Machine.exec m ↔
      ¬ (MvHint (word.setWidth 16) ∨ (decode (word.setWidth 16)).any Insn.isFp = true ∧ m.cpu.fpOff = true) := by
  have hq : (word.setWidth 16).extractLsb' 0 2 ≠ 3 := fun h => hw (by rw [parcel_low, h]; rfl)
  by_cases hmv : MvHint (word.setWidth 16)
  · have hne : (executeDecoded host (.fromWord word)).run Machine.exec m ≠
        (execute (word.setWidth 16)).run Machine.exec m := by
      rw [execute_reserved host hw (expand_mvHint hmv), run_execute (decode_mvHint hmv)]
      exact fun h => nomatch congrArg Prod.fst h
    exact iff_of_false hne fun h => h (.inl hmv)
  · have ha : Agrees β host ((word.setWidth 16).setWidth 32) m.cpu (expand (word.setWidth 16)) (decode (word.setWidth 16)) :=
      expand_agrees hq hmv
    generalize he : expand (word.setWidth 16) = o at ha
    generalize hd : decode (word.setWidth 16) = d at ha
    cases ha with
    | reserved =>
      refine iff_of_true ?_ fun h => h.elim hmv fun h => nomatch h.1
      rw [execute_reserved host hw he, run_execute_none hd]
    | int hfp h =>
      refine iff_of_true ?_ fun h => h.elim hmv fun h => ?_
      · rw [fromWord_some hw he, run_executeDecoded, run_execute hd, Program.run_bind, Program.run_bind, h m rfl]
      · exact absurd (hfp.symm.trans h.1) (by decide)
    | @fp bits insn hfp hlow hoff hon =>
      rw [fromWord_some hw he, run_executeDecoded, run_execute hd]
      cases hf : m.cpu.fpOff with
      | false =>
        rw [hon hf]
        exact iff_of_true rfl fun h => h.elim hmv fun h => nomatch h.2
      | true =>
        rw [hoff hf, run_perform_off hfp hf]
        refine iff_of_false (fun h => hw ?_) fun h => h (.inr ⟨hfp, rfl⟩)
        have hbits : bits = (word.setWidth 16).setWidth 32 := by
          have h' := congrArg Prod.fst h
          injection h' with h'
          injection h'
        rw [← word_low, word_parcel, ← hbits, hlow]

end agreement

/-- A hart out of reset, with no memory. -/
def blankHart : Machine FlatMemory := ⟨Cpu.new, .empty⟩

/-- C.ADD a0, a1. -/
theorem execute_exact_add : (executeDecoded none (.fromWord 0x952e)).run Machine.exec blankHart =
    (execute 0x952e).run Machine.exec blankHart := by
  refine (execute_exact none (by decide) blankHart).mpr ?_
  rintro (⟨-, -, -, hrd, -⟩ | ⟨-, h⟩)
  · exact absurd hrd (by decide)
  · exact absurd h (by decide)

/-- C.MV x0, x5 is a HINT, and raises an illegal-instruction exception. -/
theorem mv_hint_refused : ¬ ∀ word : U32, word &&& 3 ≠ 3 →
    (executeDecoded none (.fromWord word)).run Machine.exec blankHart =
      (execute (word.setWidth 16)).run Machine.exec blankHart := fun h =>
  absurd (h 0x8016 (by decide)) fun heq => nomatch congrArg Prod.fst heq



end Rvc
end Lish
