import Lish.Jit.TraceEmit
import Lish.Jit.TraceRuns
/-!
# TraceValues — the values that generated code computes

The code of an integer instruction leaves the value on the stack that the interpreter gives the instruction, for every
placement of the registers.
-/
namespace Lish

open Wasm Code

/-! ## Low words -/

theorem low_shl (a : U64) (k : ℕ) : (a <<< k).setWidth 32 = a.setWidth 32 <<< k := by
  apply BitVec.eq_of_getLsbD_eq
  intro i hi
  simp only [BitVec.getLsbD_setWidth, BitVec.getLsbD_shiftLeft]
  grind

theorem low_shr (a : U64) (k : ℕ) : ((a.setWidth 32).setWidth 64 >>> k).setWidth 32 = a.setWidth 32 >>> k := by
  apply BitVec.eq_of_toNat_eq
  simp only [BitVec.toNat_setWidth, BitVec.toNat_ushiftRight, Nat.shiftRight_eq_div_pow]
  have h1 : a.toNat % 2 ^ 32 / 2 ^ k ≤ a.toNat % 2 ^ 32 := Nat.div_le_self _ _
  have h2 : a.toNat % 2 ^ 32 % 2 ^ 64 = a.toNat % 2 ^ 32 := Nat.mod_eq_of_lt (by omega)
  rw [h2, Nat.mod_eq_of_lt (by omega)]

theorem low_sar (a : U32) (k : ℕ) : ((a.signExtend 64).sshiftRight k).setWidth 32 = a.sshiftRight k := by
  apply BitVec.eq_of_getLsbD_eq
  intro i hi
  simp only [BitVec.getLsbD_setWidth, BitVec.getLsbD_sshiftRight, BitVec.getLsbD_signExtend]
  grind

theorem low_sub (a b : U64) : (a - b).setWidth 32 = a.setWidth 32 - b.setWidth 32 := by
  apply BitVec.eq_of_toNat_eq
  simp only [BitVec.toNat_setWidth, BitVec.toNat_sub]
  omega

theorem low_mask (a : U64) : a &&& 0xffffffff = (a.setWidth 32).setWidth 64 := by
  apply BitVec.eq_of_toNat_eq
  rw [BitVec.toNat_and, BitVec.toNat_setWidth, BitVec.toNat_setWidth, Nat.mod_eq_of_lt (b := 2 ^ 64) (by omega)]
  exact Nat.and_two_pow_sub_one_eq_mod a.toNat 32

theorem low_ofInt (a : U64) : a.setWidth 32 = BitVec.ofInt 32 a.toInt := by
  apply BitVec.eq_of_toNat_eq
  rw [BitVec.toNat_setWidth, BitVec.toNat_ofInt, BitVec.toInt_eq_toNat_cond]
  split <;> omega

theorem ofInt_bmod (p : ℤ) : BitVec.ofInt 32 (p.bmod (2 ^ 64)) = BitVec.ofInt 32 p := by
  apply BitVec.eq_of_toNat_eq
  rw [BitVec.toNat_ofInt, BitVec.toNat_ofInt, Int.bmod_def]
  split <;> omega

/-- The 64-bit quotient of words with their signs has the 32-bit quotient in its low word, also when that overflows. -/
theorem low_sdiv (a b : U32) : ((a.signExtend 64).sdiv (b.signExtend 64)).setWidth 32 = a.sdiv b := by
  apply BitVec.eq_of_toInt_eq
  rw [low_ofInt, BitVec.toInt_sdiv, BitVec.toInt_sdiv, ofInt_bmod, BitVec.toInt_ofInt,
    BitVec.toInt_signExtend_of_le (by decide), BitVec.toInt_signExtend_of_le (by decide)]

theorem low_srem (a b : U32) : ((a.signExtend 64).srem (b.signExtend 64)).setWidth 32 = a.srem b := by
  rw [low_ofInt, BitVec.toInt_srem, BitVec.toInt_signExtend_of_le (by decide), BitVec.toInt_signExtend_of_le (by decide),
    ← BitVec.toInt_srem, BitVec.ofInt_toInt]

theorem low_udiv (a b : U32) : (a.setWidth 64 / b.setWidth 64).setWidth 32 = a / b := by
  apply BitVec.eq_of_toNat_eq
  have ha := a.isLt
  have hb := b.isLt
  have hd : a.toNat / b.toNat ≤ a.toNat := Nat.div_le_self _ _
  rw [BitVec.toNat_setWidth, BitVec.toNat_udiv, BitVec.toNat_udiv, BitVec.toNat_setWidth, BitVec.toNat_setWidth,
    Nat.mod_eq_of_lt (a := a.toNat) (by omega), Nat.mod_eq_of_lt (a := b.toNat) (by omega), Nat.mod_eq_of_lt (by omega)]

theorem low_umod (a b : U32) : (a.setWidth 64 % b.setWidth 64).setWidth 32 = a % b := by
  apply BitVec.eq_of_toNat_eq
  have ha := a.isLt
  have hb := b.isLt
  have hd : a.toNat % b.toNat ≤ a.toNat := Nat.mod_le _ _
  rw [BitVec.toNat_setWidth, BitVec.toNat_umod, BitVec.toNat_umod, BitVec.toNat_setWidth, BitVec.toNat_setWidth,
    Nat.mod_eq_of_lt (a := a.toNat) (by omega), Nat.mod_eq_of_lt (a := b.toNat) (by omega), Nat.mod_eq_of_lt (by omega)]

/-- A shift count under its mask is the count that the machine takes. -/
theorem count_and (v m : U64) (hm : m.toNat < 64) : (v &&& m).toNat % 64 = (v &&& m).toNat := by
  rw [BitVec.toNat_and]
  exact Nat.mod_eq_of_lt (lt_of_le_of_lt Nat.and_le_right hm)

theorem funct3_bound (insn : U32) : funct3 insn < 8 := by
  unfold funct3
  rw [BitVec.toNat_and]
  exact lt_of_le_of_lt Nat.and_le_right (by decide)

/-! ## Code that pushes a value -/

namespace Ctx

variable {c : Ctx} {y : Fin 32 → U64} {p p1 p2 : List Code} {a b : U64} {insn : U32}

theorem holds_push {s : State} {v : Val} : c.Holds y (s.push v) ↔ c.Holds y s :=
  ⟨fun h => ⟨h.zero, h.cached, h.inMemory, h.scratch⟩, fun h => h.push v⟩

/-- Code that pushes a value where the registers are as the context says. -/
abbrev Pushes (c : Ctx) (y : Fin 32 → U64) (code : List Code) (v : U64) : Prop :=
  ∀ (cs : List Code) (s : State), c.Holds y s → execAll (code ++ cs) s = execAll cs (s.push (.i64 v))

theorem pushes_reg (r : Fin 32) : c.Pushes y (c.pushRegCode r) (y r) := by
  intro cs s hs
  unfold pushRegCode
  split_ifs with h0 hl
  · rw [h0, hs.zero]
    rfl
  · exact exec_localGet cs s (hs.cached r hl)
  · refine exec_i64Load cs s ?_
    rw [toNat_offset]
    exact hs.inMemory r h0 (not_not.1 hl)

theorem pushes_const : c.Pushes y [i64Const a] a := fun _ _ _ => rfl

theorem Pushes.bin (h1 : c.Pushes y p1 a) (h2 : c.Pushes y p2 b) (op : BinOp) :
    c.Pushes y (p1 ++ p2 ++ [Code.bin op]) (op.eval a b) := by
  intro cs s hs
  simp only [List.append_assoc, List.cons_append, List.nil_append, h1, h2, hs, holds_push, exec_bin]

theorem Pushes.binImm (h : c.Pushes y p a) (v : U64) (op : BinOp) :
    c.Pushes y (p ++ [i64Const v, Code.bin op]) (op.eval a v) := by
  intro cs s hs
  simp only [List.append_assoc, List.cons_append, List.nil_append, h, hs, exec_i64Const, exec_bin]

theorem Pushes.arith (h1 : c.Pushes y p1 a) (h2 : c.Pushes y p2 b) {op : ArithOp} {v : U64} (hv : op.eval a b = some v) :
    c.Pushes y (p1 ++ p2 ++ [Code.arith op]) v := by
  intro cs s hs
  simp only [List.append_assoc, List.cons_append, List.nil_append, h1, h2, hs, holds_push, exec_arith _ _ _ _ hv]

theorem Pushes.arithImm (h : c.Pushes y p a) {op : ArithOp} {b v : U64} (hv : op.eval a b = some v) :
    c.Pushes y (p ++ [i64Const b, Code.arith op]) v := by
  intro cs s hs
  simp only [List.append_assoc, List.cons_append, List.nil_append, h, hs, exec_i64Const, exec_arith _ _ _ _ hv]

theorem Pushes.less (h1 : c.Pushes y p1 a) (h2 : c.Pushes y p2 b) {op : CmpOp} {q : Bool} (hq : op.eval a b = truth (q = true)) :
    c.Pushes y (p1 ++ p2 ++ [cmp64 op, extendU]) (boolBit q) := by
  intro cs s hs
  simp only [List.append_assoc, List.cons_append, List.nil_append, h1, h2, hs, holds_push, exec_cmp, exec_extendU, hq, truth_widen]
  rfl

theorem Pushes.lessImm (h : c.Pushes y p a) (v : U64) {op : CmpOp} {q : Bool} (hq : op.eval a v = truth (q = true)) :
    c.Pushes y (p ++ [i64Const v, cmp64 op, extendU]) (boolBit q) := by
  intro cs s hs
  simp only [List.append_assoc, List.cons_append, List.nil_append, h, hs, exec_i64Const, exec_cmp, exec_extendU, hq, truth_widen]
  rfl

theorem Pushes.wrapped (h : c.Pushes y p a) : c.Pushes y (p ++ [wrap, extendS]) (extend32 (a.setWidth 32)) := by
  intro cs s hs
  simp only [List.append_assoc, List.cons_append, List.nil_append, h, hs, exec_wrap, exec_extendS]
  rfl

theorem Pushes.widened (h : c.Pushes y p a) : c.Pushes y (p ++ [wrap, extendU]) ((a.setWidth 32).setWidth 64) := by
  intro cs s hs
  simp only [List.append_assoc, List.cons_append, List.nil_append, h, hs, exec_wrap, exec_extendU]

/-- The safe divisor keeps the division from trapping, and the selections give the results that it has not. -/
theorem Pushes.div {least : U64} (h1 : c.Pushes y p1 a) (h2 : c.Pushes y p2 b) (hl : a = BitVec.intMin 64 → a = least) :
    c.Pushes y (divCode p1 p2 least) (if b = 0 then -1 else if a = least ∧ b = -1 then least else a.sdiv b) := by
  intro cs s hs
  have hd : ArithOp.eval a (if b = 0 ∨ a = least ∧ b = -1 then 1 else b) .divS =
      some (a.sdiv (if b = 0 ∨ a = least ∧ b = -1 then 1 else b)) := by
    refine if_neg ?_
    by_cases hc : b = 0 ∨ a = least ∧ b = -1
    · rw [if_pos hc]
      rintro (h | ⟨-, h⟩)
      · exact absurd h (by decide)
      · exact absurd h (by decide)
    · rw [if_neg hc]
      rintro (h0 | ⟨ha, hb⟩)
      · exact hc (Or.inl h0)
      · exact hc (Or.inr ⟨hl ha, hb⟩)
  unfold divCode
  simp only [List.append_assoc, List.cons_append, List.nil_append, h1, h2, hs, holds_push, exec_i64Const, exec_eqz64, exec_cmp,
    exec_bin32, exec_select, exec_eqz32, CmpOp.eval, Bin32Op.eval, truth_and, truth_or, truth_eq_zero, truth_ne_zero,
    exec_arith _ _ _ _ hd]
  congr 2
  grind

theorem Pushes.divU (h1 : c.Pushes y p1 a) (h2 : c.Pushes y p2 b) :
    c.Pushes y (divUCode p1 p2) (if b = 0 then -1 else a / b) := by
  intro cs s hs
  have hd : ArithOp.eval a (if b = 0 then 1 else b) .divU = some (a / if b = 0 then 1 else b) := by
    refine if_neg ?_
    split_ifs with h0
    · decide
    · exact h0
  unfold divUCode
  simp only [List.append_assoc, List.cons_append, List.nil_append, h1, h2, hs, holds_push, exec_i64Const, exec_eqz64,
    exec_select, exec_eqz32, truth_eq_zero, truth_ne_zero, exec_arith _ _ _ _ hd]
  congr 2
  grind

theorem Pushes.rem (h1 : c.Pushes y p1 a) (h2 : c.Pushes y p2 b) {op : ArithOp} {v : U64}
    (hv : b ≠ 0 → op.eval a b = some v) (h0 : (op.eval a 1).isSome) :
    c.Pushes y (remCode p1 p2 op) (if b = 0 then a else v) := by
  intro cs s hs
  obtain ⟨w, hw⟩ := Option.isSome_iff_exists.1 h0
  have hd : op.eval a (if b = 0 then 1 else b) = some (if b = 0 then w else v) := by
    split_ifs with hb
    · exact hw
    · exact hv hb
  unfold remCode
  simp only [List.append_assoc, List.cons_append, List.nil_append, h1, h2, hs, holds_push, exec_i64Const, exec_eqz64,
    exec_select, exec_eqz32, truth_eq_zero, truth_ne_zero, exec_arith _ _ _ _ hd]
  congr 2
  grind

/-! ## The arms -/

theorem pushes_imm (h : c.Pushes y p a) (insn : U32) : c.Pushes y (p ++ immCode insn) (opImm insn a) := by
  have hc := count_and (immI insn) 0x3f (by decide)
  unfold immCode opImm
  dsimp only
  generalize funct3 insn = f3
  rcases f3 with _ | _ | _ | _ | _ | _ | _ | f3
  · exact h.binImm _ .add
  · exact h.arithImm (congrArg (fun k => some (a <<< k)) hc)
  · exact h.lessImm _ rfl
  · exact h.lessImm _ rfl
  · exact h.arithImm rfl
  · split_ifs
    · rw [← hc]
      exact h.binImm _ .shrS
    · rw [← hc]
      exact h.binImm _ .shrU
  · exact h.arithImm rfl
  · exact h.binImm _ .and

/-- The count of a shift by a register is masked first. -/
theorem Pushes.shift (h1 : c.Pushes y p1 a) (h2 : c.Pushes y p2 b) (m : U64) (op : BinOp) :
    c.Pushes y (p1 ++ p2 ++ [i64Const m, Code.bin .and, Code.bin op]) (op.eval a (b &&& m)) := by
  intro cs s hs
  simp only [List.append_assoc, List.cons_append, List.nil_append, h1, h2, hs, holds_push, exec_i64Const, exec_bin]
  rfl

theorem Pushes.shl (h1 : c.Pushes y p1 a) (h2 : c.Pushes y p2 b) {m : U64} (hm : m.toNat < 64) :
    c.Pushes y (p1 ++ p2 ++ [i64Const m, Code.bin .and, Code.arith .shl]) (a <<< (b &&& m).toNat) := by
  intro cs s hs
  have hv : ArithOp.eval a (BinOp.eval b m .and) .shl = some (a <<< (b &&& m).toNat) :=
    congrArg (fun k => some (a <<< k)) (count_and b m hm)
  simp only [List.append_assoc, List.cons_append, List.nil_append, h1, h2, hs, holds_push, exec_i64Const, exec_bin,
    exec_arith _ _ _ _ hv]

/-- Code whose value may take the scratch locals. -/
def Yields (c : Ctx) (y : Fin 32 → U64) (code : List Code) (v : U64) : Prop :=
  ∀ s : State, c.Holds y s → ∃ t : State, (∀ cs, execAll (code ++ cs) s = execAll cs (t.push (.i64 v))) ∧ c.Holds y t ∧
    t.stack = s.stack ∧ t.mem = s.mem ∧ t.locals 0 = s.locals 0

theorem Pushes.yields (h : c.Pushes y p a) : c.Yields y p a := fun s hs => ⟨s, fun cs => h cs s hs, hs, rfl, rfl, rfl⟩

theorem mem_pushReg {i : U32} {r : Fin 32} : localSet i ∉ c.pushRegCode r := by
  unfold pushRegCode
  split_ifs <;> simp

theorem mem_mulHigh {i : U32} {f3 : ℕ} {s1 s2 : Fin 32} (h : localSet i ∈ c.mulHighCode f3 s1 s2) : i.toNat ≠ 0 := by
  have hs (s1 s2 : Fin 32) : localSet i ∉ c.signCorrectionCode s1 s2 := by
    unfold signCorrectionCode
    simp [mem_pushReg]
  have hc : i = scr ∨ i = page ∨ i = pa ∨ i = val := by
    unfold mulHighCode at h
    split_ifs at h <;> simp [mulHighUnsignedCode, mem_pushReg, hs] at h <;> tauto
  rcases hc with rfl | rfl | rfl | rfl <;> decide

/-- The limb multiplication takes the scratch locals only. -/
theorem yields_mulHigh {f3 : ℕ} (h3 : f3 = 1 ∨ f3 = 2 ∨ f3 = 3) (s1 s2 : Fin 32) :
    c.Yields y (c.mulHighCode f3 s1 s2) (mulHigh f3 (y s1) (y s2)) := by
  intro s hs
  obtain ⟨t, he, ht, hstack, hmem⟩ := emits_pushMulHigh (Emits.refl ⟨[]⟩ s) hs h3 s1 s2
  rw [← emitAll_mulHigh] at he
  obtain ⟨hx, hl⟩ := execAll_of_emits he
  exact ⟨t, fun cs => execAll_next hx cs, ht, hstack, hmem, hl 0 fun i hi => mem_mulHigh hi⟩

theorem eval_remS (a : U64) (hb : b ≠ 0) : ArithOp.eval a b .remS = some (a.srem b) := if_neg hb

theorem eval_remU (a : U64) (hb : b ≠ 0) : ArithOp.eval a b .remU = some (a % b) := if_neg hb

/-- The quotient that overflows is its dividend. -/
theorem div_result (a b : U64) :
    (if b = 0 then -1 else if a = minS64 ∧ b = -1 then minS64 else a.sdiv b) = if b = 0 then BitVec.allOnes 64 else a.sdiv b := by
  split_ifs with h0 ho
  · rfl
  · rw [ho.1, ho.2]
    exact BitVec.intMin_sdiv_neg_one.symm
  · rfl

/-- **OP**: the code has the value of the instruction. -/
theorem yields_op (h : aluHandled 0x33 (funct7 insn) (funct3 insn) = true) :
    ∃ v, op64 insn (y (rs1 insn)) (y (rs2 insn)) = some v ∧ c.Yields y (c.opCode insn) v := by
  have h1 : c.Pushes y (c.pushRegCode (rs1 insn)) (y (rs1 insn)) := pushes_reg _
  have h2 : c.Pushes y (c.pushRegCode (rs2 insn)) (y (rs2 insn)) := pushes_reg _
  have hc := count_and (y (rs2 insn)) 0x3f (by decide)
  have hf := funct3_bound insn
  have hm : funct7 insn = 1 → funct3 insn = 1 ∨ funct3 insn = 2 ∨ funct3 insn = 3 →
      op64 insn (y (rs1 insn)) (y (rs2 insn)) = some (mulHigh (funct3 insn) (y (rs1 insn)) (y (rs2 insn))) :=
    fun h7 h3 => op64_mulHigh h7 h3 _ _
  unfold op64 at hm ⊢
  unfold opCode
  have h7 : funct7 insn = 0 ∨ funct7 insn = 0x20 ∧ (funct3 insn = 0 ∨ funct3 insn = 5) ∨ funct7 insn = 1 := by
    simpa [aluHandled] using h
  dsimp only at hm ⊢
  generalize funct7 insn = f7 at hm h7 ⊢
  generalize funct3 insn = f3 at hm h7 hf ⊢
  obtain rfl | ⟨rfl, rfl | rfl⟩ | rfl := h7
  · rcases f3 with _ | _ | _ | _ | _ | _ | _ | _ | f3
    · exact ⟨_, rfl, (h1.bin h2 .add).yields⟩
    · exact ⟨_, rfl, (h1.shl h2 (by decide)).yields⟩
    · exact ⟨_, rfl, (h1.less h2 rfl).yields⟩
    · exact ⟨_, rfl, (h1.less h2 rfl).yields⟩
    · exact ⟨_, rfl, (h1.arith h2 rfl).yields⟩
    · refine ⟨_, rfl, ?_⟩
      rw [← hc]
      exact (h1.shift h2 _ .shrU).yields
    · exact ⟨_, rfl, (h1.arith h2 rfl).yields⟩
    · exact ⟨_, rfl, (h1.bin h2 .and).yields⟩
    · omega
  · exact ⟨_, rfl, (h1.bin h2 .sub).yields⟩
  · refine ⟨_, rfl, ?_⟩
    rw [← hc]
    exact (h1.shift h2 _ .shrS).yields
  · rcases f3 with _ | _ | _ | _ | _ | _ | _ | _ | f3
    · exact ⟨_, rfl, (h1.bin h2 .mul).yields⟩
    · exact ⟨_, hm rfl (by decide), yields_mulHigh (by decide) _ _⟩
    · exact ⟨_, hm rfl (by decide), yields_mulHigh (by decide) _ _⟩
    · exact ⟨_, hm rfl (by decide), yields_mulHigh (by decide) _ _⟩
    · refine ⟨_, rfl, ?_⟩
      rw [← div_result]
      exact (h1.div h2 id).yields
    · exact ⟨_, rfl, (h1.divU h2).yields⟩
    · exact ⟨_, rfl, (h1.rem h2 (eval_remS _) rfl).yields⟩
    · exact ⟨_, rfl, (h1.rem h2 (eval_remU _) rfl).yields⟩
    · omega

/-- **OP-IMM-32**: the code has the value of the instruction. -/
theorem pushes_imm32 (h : c.Pushes y p a) (h3 : funct3 insn = 0 ∨ funct3 insn = 1 ∨ funct3 insn = 5) :
    ∃ v, opImm32 insn a = some v ∧ c.Pushes y (p ++ imm32Code insn) v := by
  have hc := count_and (immI insn) 0x1f (by decide)
  have hshl : ArithOp.eval a (immI insn &&& 0x1f) .shl = some (a <<< (immI insn &&& 0x1f).toNat) :=
    congrArg (fun k => some (a <<< k)) hc
  have hshr (b : U64) : BinOp.eval b (immI insn &&& 0x1f) .shrU = b >>> (immI insn &&& 0x1f).toNat :=
    congrArg (fun k : ℕ => b >>> k) hc
  have hsar (b : U64) : BinOp.eval b (immI insn &&& 0x1f) .shrS = b.sshiftRight (immI insn &&& 0x1f).toNat :=
    congrArg (fun k => b.sshiftRight k) hc
  unfold opImm32 imm32Code narrowCode
  dsimp only
  obtain h3 | h3 | h3 := h3
  · rw [h3, ← List.append_assoc]
    refine ⟨_, rfl, ?_⟩
    rw [← BitVec.setWidth_add _ _ (by decide)]
    exact (h.binImm _ .add).wrapped
  · rw [h3, ← List.append_assoc]
    refine ⟨_, rfl, ?_⟩
    rw [← low_shl]
    exact (h.arithImm hshl).wrapped
  · rw [h3]
    refine ⟨_, rfl, ?_⟩
    split_ifs
    · have e := (h.widened.wrapped.binImm (immI insn &&& 0x1f) .shrS).wrapped
      rw [hsar, BitVec.setWidth_setWidth_of_le _ (by decide), BitVec.setWidth_eq] at e
      unfold extend32 at e ⊢
      rw [low_sar] at e
      simpa only [List.append_assoc, List.cons_append, List.nil_append] using e
    · have e := ((h.widened.binImm 0xffffffff .and).binImm (immI insn &&& 0x1f) .shrU).wrapped
      rw [hshr, show BinOp.eval ((a.setWidth 32).setWidth 64) 0xffffffff .and = _ from low_mask _, low_shr,
        BitVec.setWidth_setWidth_of_le _ (by decide), BitVec.setWidth_eq] at e
      simpa only [List.append_assoc, List.cons_append, List.nil_append] using e

theorem extend32_toInt (a : U32) : (extend32 a).toInt = a.toInt := BitVec.toInt_signExtend_of_le (by decide)

theorem extend32_eq_zero {a : U32} : extend32 a = 0 ↔ a = 0 := by
  rw [← BitVec.toInt_inj, ← BitVec.toInt_inj, extend32_toInt]
  rfl

theorem widen_eq_zero {a : U32} : a.setWidth 64 = (0 : U64) ↔ a = 0 := by
  rw [← BitVec.toNat_inj, ← BitVec.toNat_inj, Emits.toNat_widen]
  rfl

/-- No word is as small as the least 64-bit number. -/
theorem extend32_ne_min (a : U32) : extend32 a ≠ BitVec.intMin 64 := by
  intro h
  have h1 := congrArg BitVec.toInt h
  have h2 := BitVec.le_toInt a
  rw [extend32_toInt, show (BitVec.intMin 64).toInt = -2 ^ 63 by decide] at h1
  omega

/-- The count of a shift of words. -/
theorem count_word (b : U64) : (b.setWidth 32 &&& 0x1f).toNat = (b &&& 0x1f).toNat := by
  rw [BitVec.toNat_and, BitVec.toNat_and, BitVec.toNat_setWidth]
  have h1 := Nat.and_two_pow_sub_one_eq_mod (b.toNat % 2 ^ 32) 5
  have h2 := Nat.and_two_pow_sub_one_eq_mod b.toNat 5
  change b.toNat % 2 ^ 32 &&& 2 ^ 5 - 1 = b.toNat &&& 2 ^ 5 - 1
  omega

theorem divW_result (a b : U32) :
    (if extend32 b = 0 then (-1 : U64) else if extend32 a = minS32 ∧ extend32 b = -1 then minS32
      else (extend32 a).sdiv (extend32 b)).setWidth 32 = if b = 0 then BitVec.allOnes 32 else a.sdiv b := by
  simp only [extend32_eq_zero]
  split_ifs with h0 ho
  · rfl
  · have h := low_sdiv a b
    change ((extend32 a).sdiv (extend32 b)).setWidth 32 = _ at h
    rw [← h, ho.1, ho.2]
    decide
  · exact low_sdiv a b

theorem divUW_result (a b : U32) :
    (if b.setWidth 64 = (0 : U64) then (-1 : U64) else a.setWidth 64 / b.setWidth 64).setWidth 32 =
      if b = 0 then BitVec.allOnes 32 else a / b := by
  simp only [widen_eq_zero]
  split_ifs
  · rfl
  · exact low_udiv a b

theorem remW_result (a b : U32) :
    (if extend32 b = 0 then extend32 a else (extend32 a).srem (extend32 b)).setWidth 32 = if b = 0 then a else a.srem b := by
  simp only [extend32_eq_zero]
  split_ifs
  · rw [low_ofInt, extend32_toInt, BitVec.ofInt_toInt]
  · exact low_srem a b

theorem remUW_result (a b : U32) :
    (if b.setWidth 64 = (0 : U64) then a.setWidth 64 else a.setWidth 64 % b.setWidth 64).setWidth 32 = if b = 0 then a else a % b := by
  simp only [widen_eq_zero]
  split_ifs
  · rw [BitVec.setWidth_setWidth_of_le _ (by decide), BitVec.setWidth_eq]
  · exact low_umod a b

/-- **OP-32**: the code has the value of the instruction. -/
theorem pushes_op32 (h : aluHandled 0x3b (funct7 insn) (funct3 insn) = true) :
    ∃ v, op32 insn (y (rs1 insn)) (y (rs2 insn)) = some v ∧ c.Pushes y (c.op32Code insn) v := by
  have h1 : c.Pushes y (c.pushRegCode (rs1 insn)) (y (rs1 insn)) := pushes_reg _
  have h2 : c.Pushes y (c.pushRegCode (rs2 insn)) (y (rs2 insn)) := pushes_reg _
  have s1 : c.Pushes y (c.pushSigned (rs1 insn)) (extend32 ((y (rs1 insn)).setWidth 32)) := h1.wrapped
  have s2 : c.Pushes y (c.pushSigned (rs2 insn)) (extend32 ((y (rs2 insn)).setWidth 32)) := h2.wrapped
  have u1 : c.Pushes y (c.pushUnsigned (rs1 insn)) (((y (rs1 insn)).setWidth 32).setWidth 64) :=
    low_mask (y (rs1 insn)) ▸ h1.binImm 0xffffffff .and
  have u2 : c.Pushes y (c.pushUnsigned (rs2 insn)) (((y (rs2 insn)).setWidth 32).setWidth 64) :=
    low_mask (y (rs2 insn)) ▸ h2.binImm 0xffffffff .and
  have hf := funct3_bound insn
  have hb := count_word (y (rs2 insn))
  have hc := count_and (y (rs2 insn)) 0x1f (by decide)
  have h7 : funct7 insn = 0 ∧ (funct3 insn = 0 ∨ funct3 insn = 1 ∨ funct3 insn = 5) ∨
      funct7 insn = 0x20 ∧ (funct3 insn = 0 ∨ funct3 insn = 5) ∨ funct7 insn = 1 ∧ (funct3 insn = 0 ∨ 4 ≤ funct3 insn) := by
    simpa [aluHandled] using h
  unfold op32 op32Code narrowCode
  dsimp only
  generalize funct7 insn = f7 at h7 ⊢
  generalize funct3 insn = f3 at h7 hf ⊢
  obtain ⟨rfl, rfl | rfl | rfl⟩ | ⟨rfl, rfl | rfl⟩ | ⟨rfl, rfl | h4⟩ := h7
  · refine ⟨_, rfl, ?_⟩
    rw [← BitVec.setWidth_add _ _ (by decide)]
    exact (h1.bin h2 .add).wrapped
  · refine ⟨_, rfl, ?_⟩
    rw [hb, ← low_shl]
    exact (h1.shl h2 (by decide)).wrapped
  · refine ⟨_, rfl, ?_⟩
    rw [hb, ← low_shr, ← hc]
    exact (u1.shift h2 0x1f .shrU).wrapped
  · refine ⟨_, rfl, ?_⟩
    rw [← low_sub]
    exact (h1.bin h2 .sub).wrapped
  · refine ⟨_, rfl, ?_⟩
    rw [hb, ← low_sar, ← hc]
    exact (s1.shift h2 0x1f .shrS).wrapped
  · refine ⟨_, rfl, ?_⟩
    rw [← BitVec.setWidth_mul _ _ (by decide)]
    exact (h1.bin h2 .mul).wrapped
  · rcases f3 with _ | _ | _ | _ | _ | _ | _ | _ | f3
    any_goals omega
    · refine ⟨_, rfl, ?_⟩
      rw [← divW_result]
      exact (s1.div s2 fun ha => absurd ha (extend32_ne_min _)).wrapped
    · refine ⟨_, rfl, ?_⟩
      rw [← divUW_result]
      exact (u1.divU u2).wrapped
    · refine ⟨_, rfl, ?_⟩
      rw [← remW_result]
      exact (s1.rem s2 (eval_remS _) rfl).wrapped
    · refine ⟨_, rfl, ?_⟩
      rw [← remUW_result]
      exact (u1.rem u2 (eval_remU _) rfl).wrapped

/-- **An instruction inside a trace**: its code has the value that the interpreter gives it. -/
theorem yields_value {pc : U64} {code : List Code} (h : c.valueCode insn pc = some code) :
    ∃ v, aluResult insn pc y = some v ∧ c.Yields y code v := by
  unfold valueCode at h
  unfold aluResult
  generalize hop : opcode insn = op at h ⊢
  split at h
  · obtain rfl := Option.some.inj h
    exact ⟨_, rfl, pushes_const.yields⟩
  · obtain rfl := Option.some.inj h
    exact ⟨_, rfl, pushes_const.yields⟩
  · obtain rfl := Option.some.inj h
    exact ⟨_, rfl, (pushes_imm (pushes_reg _) insn).yields⟩
  · split_ifs at h with ha
    obtain rfl := Option.some.inj h
    exact yields_op ha
  · split_ifs at h with ha
    obtain rfl := Option.some.inj h
    obtain ⟨v, hv, hp⟩ := pushes_imm32 (pushes_reg _) ha
    exact ⟨v, hv, hp.yields⟩
  · split_ifs at h with ha
    obtain rfl := Option.some.inj h
    obtain ⟨v, hv, hp⟩ := pushes_op32 ha
    exact ⟨v, hv, hp.yields⟩
  · cases h

end Ctx

end Lish
