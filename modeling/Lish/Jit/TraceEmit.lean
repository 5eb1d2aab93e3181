import Lish.Jit.Leaders
import Lish.Jit.MulHigh
import Lish.Wasm.Structured
/-!
# TraceEmit — the code of the integer instructions

What the emitter appends for an instruction inside a trace: the operands come from locals or from the state of the hart, and
the result goes back to its register.
-/
namespace Lish

open Leb128 Wasm Code

/-! ## The encoder -/

def i64Or : U8 := 0x84
def i64Xor : U8 := 0x85
def i64Shl : U8 := 0x86
def i64DivS : U8 := 0x7f
def i64DivU : U8 := 0x80
def i64RemS : U8 := 0x81
def i64RemU : U8 := 0x82
def i64Eqz : U8 := 0x50
def i64Eq : U8 := 0x51
def i64Ne : U8 := 0x52
def i64LtS : U8 := 0x53
def i64LtU : U8 := 0x54
def i64GeS : U8 := 0x59
def i64GeU : U8 := 0x5a
def i32Eqz : U8 := 0x45
def i32Ne : U8 := 0x47
def i32And : U8 := 0x71
def i32Or : U8 := 0x72
def i32WrapI64 : U8 := 0xa7
def i64ExtendI32S : U8 := 0xac
def i64ExtendI32U : U8 := 0xad
def selectOp : U8 := 0x1b
def ifOp : U8 := 0x04
def elseOp : U8 := 0x05
def endOp : U8 := 0x0b
def returnOp : U8 := 0x0f
def void : U8 := 0x40

namespace WasmModule

/-- A memory instruction, with its alignment and a constant offset. -/
def memArg (m : WasmModule) (opcode : U8) (align : U32) (offset : U64) : WasmModule :=
  { m with code := uleb (uleb (m.code ++ [opcode]) (align.setWidth 64)) offset }

def returnCall (m : WasmModule) (idx : U32) : WasmModule := { m with code := uleb (m.code ++ [0x12]) (idx.setWidth 64) }

end WasmModule

def binOpcode : BinOp → U8
  | .add => i64Add
  | .sub => i64Sub
  | .mul => i64Mul
  | .and => i64And
  | .shrS => i64ShrS
  | .shrU => i64ShrU

def cmpOpcode : CmpOp → U8
  | .eq => i64Eq
  | .ne => i64Ne
  | .ltS => i64LtS
  | .ltU => i64LtU
  | .geS => i64GeS
  | .geU => i64GeU

def bin32Opcode : Bin32Op → U8
  | .ne => i32Ne
  | .and => i32And
  | .or => i32Or

def arithOpcode : ArithOp → U8
  | .divS => i64DivS
  | .divU => i64DivU
  | .remS => i64RemS
  | .remU => i64RemU
  | .or => i64Or
  | .xor => i64Xor
  | .shl => i64Shl

/-- One instruction through the encoder. -/
def emitOne (m : WasmModule) : Simple → WasmModule
  | .plain (.i32Const v) => m.i32Const v
  | .plain (.i64Const v) => m.i64Const v
  | .plain (.localGet i) => m.localGet i
  | .plain (.localSet i) => m.localSet i
  | .plain (.i64Load align offset) => m.memArg 0x29 align offset
  | .plain (.i64Store align offset) => m.memArg 0x37 align offset
  | .plain (.bin op) => m.op (binOpcode op)
  | .cmp op => m.op (cmpOpcode op)
  | .bin32 op => m.op (bin32Opcode op)
  | .arith op => m.op (arithOpcode op)
  | .eqz64 => m.op i64Eqz
  | .eqz32 => m.op i32Eqz
  | .select => m.op selectOp
  | .wrap => m.op i32WrapI64
  | .extendS => m.op i64ExtendI32S
  | .extendU => m.op i64ExtendI32U
  | .i32Load align offset => m.memArg 0x28 align offset

mutual

/-- Code through the encoder. -/
def emitCode (m : WasmModule) : Code → WasmModule
  | .simple i => emitOne m i
  | .ifThen body => (emitAll ((m.op ifOp).op void) body).op endOp
  | .ifElse body other => (emitAll ((emitAll ((m.op ifOp).op void) body).op elseOp) other).op endOp
  | .ret => m.op returnOp
  | .returnCall f => m.returnCall f

def emitAll (m : WasmModule) : List Code → WasmModule
  | [] => m
  | c :: cs => emitAll (emitCode m c) cs

end

theorem uleb_index (code : List U8) (b : U8) (i : U32) : uleb (code ++ [b]) (i.setWidth 64) = code ++ (b :: encodeU i.toNat) := by
  rw [uleb_eq, Emits.toNat_widen, List.append_assoc]
  rfl

theorem memArg_code (m : WasmModule) (b : U8) (align : U32) (offset : U64) :
    (m.memArg b align offset).code = m.code ++ (b :: (encodeU align.toNat ++ encodeU offset.toNat)) := by
  change uleb (uleb (m.code ++ [b]) (align.setWidth 64)) offset = _
  rw [uleb_eq, uleb_index, List.append_assoc, List.cons_append]

/-- The opcodes are those of the binary form. -/
theorem emitOne_code (m : WasmModule) (i : Simple) : (emitOne m i).code = m.code ++ i.bytes := by
  cases i with
  | plain i =>
    cases i with
    | i32Const v =>
      change sleb (m.code ++ [0x41]) (v.signExtend 64) = _
      rw [sleb_eq, BitVec.toInt_signExtend_of_le (by decide), List.append_assoc]
      rfl
    | i64Const v =>
      change sleb (m.code ++ [0x42]) v = _
      rw [sleb_eq, List.append_assoc]
      rfl
    | localGet i => exact uleb_index _ _ i
    | localSet i => exact uleb_index _ _ i
    | i64Load align offset => exact memArg_code m _ align offset
    | i64Store align offset => exact memArg_code m _ align offset
    | bin op => cases op <;> rfl
  | cmp op => cases op <;> rfl
  | bin32 op => cases op <;> rfl
  | arith op => cases op <;> rfl
  | i32Load align offset => exact memArg_code m _ align offset
  | _ => rfl

theorem op_code (m : WasmModule) (b : U8) : (m.op b).code = m.code ++ [b] := rfl

mutual

theorem emitCode_code (m : WasmModule) : (c : Code) → (emitCode m c).code = m.code ++ c.bytes
  | .simple i => emitOne_code m i
  | .ifThen body => by
    rw [emitCode, op_code, emitAll_code _ body, op_code, op_code, Code.bytes]
    simp only [List.append_assoc, List.cons_append, List.nil_append]
    rfl
  | .ifElse body other => by
    rw [emitCode, op_code, emitAll_code _ other, op_code, emitAll_code _ body, op_code, op_code, Code.bytes]
    simp only [List.append_assoc, List.cons_append, List.nil_append]
    rfl
  | .ret => rfl
  | .returnCall f => uleb_index _ _ f

/-- **The encoder writes the binary form.** -/
theorem emitAll_code (m : WasmModule) : (cs : List Code) → (emitAll m cs).code = m.code ++ bytesAll cs
  | [] => (List.append_nil _).symm
  | c :: cs => by rw [emitAll, emitAll_code _ cs, emitCode_code m c, bytesAll, List.append_assoc]

end

theorem emitAll_append (m : WasmModule) (cs ds : List Code) : emitAll m (cs ++ ds) = emitAll (emitAll m cs) ds := by
  induction cs generalizing m with
  | nil => rfl
  | cons c cs ih =>
    rw [List.cons_append, emitAll, emitAll]
    exact ih _

/-- Code that the encoder has appended goes on as the appended instructions do, and sets no other local. -/
theorem execAll_of_emits {m : WasmModule} {cs : List Code} {s t : State} (h : Emits m (emitAll m cs) s t) :
    execAll cs s = some (.next t) ∧ ∀ k, (∀ i, localSet i ∈ cs → i.toNat ≠ k) → t.locals k = s.locals k := by
  obtain ⟨is, hc, hr⟩ := h
  rw [emitAll_code, List.append_cancel_left_eq, ← bytesAll_straight] at hc
  have hcs := decodeBody_bytes cs
  rw [hc, decodeBody_bytes] at hcs
  obtain rfl := Option.some.inj hcs
  refine ⟨?_, fun k hk => run_locals (run_of_exact hr) fun i hi => hk i (List.mem_map_of_mem hi)⟩
  rw [execAll_straight, run_of_exact hr, Option.map_some]

/-! ## Registers -/

namespace Ctx

variable (c : Ctx)

/-- Push a register: x0 is the constant 0. -/
def pushRegCode (r : Fin 32) : List Code :=
  if r = 0 then [i64Const 0]
  else if c.regLocal r ≠ 0 then [localGet (c.regLocal r)]
  else [i32Const 0, i64Load (c.xOffset r)]

theorem emitAll_pushReg (m : WasmModule) (r : Fin 32) : emitAll m (c.pushRegCode r) = c.pushReg m r := by
  unfold pushRegCode pushReg
  split_ifs <;> rfl

/-- `if store_pre(d) { value; store_post(d) }`. -/
def assign (d : Fin 32) (value : List Code) : Ctx × List Code :=
  if d = 0 then (c, [])
  else
    ({ c with defined := c.defined ||| ((1 : U32) <<< d.val) },
      (if c.regLocal d = 0 then [i32Const 0] else []) ++ value ++
        if c.regLocal d ≠ 0 then [localSet (c.regLocal d)] else [i64Store (c.xOffset d)])

/-! ## The upper half of a product -/

/-- The limb multiplication. -/
def mulHighUnsignedCode (s1 s2 : Fin 32) : List Code :=
  let p1 := c.pushRegCode s1
  let p2 := c.pushRegCode s2
  p1 ++ [i64Const loMask, bin .and, localSet scr] ++ p2 ++ [i64Const loMask, bin .and, localSet page,
    localGet scr, localGet page, bin .mul, i64Const 32, bin .shrU] ++ p1 ++ [i64Const 32, bin .shrU, localGet page, bin .mul, bin .add,
    localSet pa, localGet pa, i64Const 32, bin .shrU, localSet val,
    localGet pa, i64Const loMask, bin .and, localGet scr] ++ p2 ++ [i64Const 32, bin .shrU, bin .mul, bin .add, localSet pa] ++
    p1 ++ [i64Const 32, bin .shrU] ++ p2 ++ [i64Const 32, bin .shrU, bin .mul, localGet val, bin .add,
    localGet pa, i64Const 32, bin .shrU, bin .add]

def signCorrectionCode (sign other : Fin 32) : List Code :=
  c.pushRegCode sign ++ [i64Const 63, bin .shrS] ++ c.pushRegCode other ++ [bin .and, bin .sub]

def mulHighCode (f3 : ℕ) (s1 s2 : Fin 32) : List Code :=
  c.mulHighUnsignedCode s1 s2 ++ (if f3 = 1 ∨ f3 = 2 then c.signCorrectionCode s1 s2 else []) ++
    if f3 = 1 then c.signCorrectionCode s2 s1 else []

theorem emitAll_signCorrection (m : WasmModule) (sign other : Fin 32) :
    emitAll m (c.signCorrectionCode sign other) = c.pushSignCorrection m sign other := by
  unfold signCorrectionCode
  simp only [emitAll_append, emitAll_pushReg]
  rfl

/-- The limb multiplication is the one that the emitter has for the instruction. -/
theorem emitAll_mulHigh (m : WasmModule) (f3 : ℕ) (s1 s2 : Fin 32) :
    emitAll m (c.mulHighCode f3 s1 s2) = c.pushMulHigh m f3 s1 s2 := by
  have hu : emitAll m (c.mulHighUnsignedCode s1 s2) = c.pushMulHighUnsigned m s1 s2 := by
    unfold mulHighUnsignedCode
    simp only [emitAll_append, emitAll_pushReg]
    rfl
  unfold mulHighCode pushMulHigh
  rw [emitAll_append, emitAll_append, hu]
  split_ifs
  · rw [emitAll_signCorrection, emitAll_signCorrection]
  · rw [emitAll_signCorrection]
    rfl
  · rename_i h h1
    exact absurd (Or.inl h1) h
  · rfl

/-! ## Arithmetic -/

/-- OP-IMM, the operand on the stack. -/
def immCode (insn : U32) : List Code :=
  let imm := immI insn
  match funct3 insn with
  | 0 => [i64Const imm, bin .add]
  | 1 => [i64Const (imm &&& 0x3f), arith .shl]
  | 2 => [i64Const imm, cmp64 .ltS, extendU]
  | 3 => [i64Const imm, cmp64 .ltU, extendU]
  | 4 => [i64Const imm, arith .xor]
  | 5 => if insn >>> 26 = 0x10 then [i64Const (imm &&& 0x3f), bin .shrS] else [i64Const (imm &&& 0x3f), bin .shrU]
  | 6 => [i64Const imm, arith .or]
  | _ => [i64Const imm, bin .and]

/-- A signed quotient of operands that are pushed as often as they are needed: the divisor is made safe, and the results that
the architecture defines are selected afterwards. -/
def divCode (p1 p2 : List Code) (least : U64) : List Code :=
  p1 ++ [i64Const 1] ++ p2 ++ p2 ++ [eqz64] ++ p1 ++ [i64Const least, cmp64 .eq] ++ p2 ++
    [i64Const (-1), cmp64 .eq, bin32 .and, bin32 .or, select, arith .divS, i64Const least] ++ p1 ++
      [i64Const least, cmp64 .eq] ++ p2 ++
    [i64Const (-1), cmp64 .eq, bin32 .and, eqz32, select, i64Const (-1)] ++ p2 ++ [eqz64, eqz32, select]

/-- An unsigned quotient; the quotient by zero is all ones. -/
def divUCode (p1 p2 : List Code) : List Code :=
  p1 ++ [i64Const 1] ++ p2 ++ p2 ++ [eqz64, select, arith .divU, i64Const (-1)] ++ p2 ++ [eqz64, eqz32, select]

/-- A remainder; the remainder by zero is the dividend. -/
def remCode (p1 p2 : List Code) (op : ArithOp) : List Code :=
  p1 ++ [i64Const 1] ++ p2 ++ p2 ++ [eqz64, select, arith op] ++ p1 ++ p2 ++ [eqz64, eqz32, select]

/-- `i64::MIN`. -/
def minS64 : U64 := BitVec.intMin 64

/-- `i32::MIN as i64`. -/
def minS32 : U64 := (BitVec.intMin 32).signExtend 64

/-- OP, with the M extension. -/
def opCode (insn : U32) : List Code :=
  let p1 := c.pushRegCode (rs1 insn)
  let p2 := c.pushRegCode (rs2 insn)
  match funct7 insn, funct3 insn with
  | 0x00, 0 => p1 ++ p2 ++ [bin .add]
  | 0x20, 0 => p1 ++ p2 ++ [bin .sub]
  | 0x01, 0 => p1 ++ p2 ++ [bin .mul]
  | 0x01, 1 => c.mulHighCode 1 (rs1 insn) (rs2 insn)
  | 0x01, 2 => c.mulHighCode 2 (rs1 insn) (rs2 insn)
  | 0x01, 3 => c.mulHighCode 3 (rs1 insn) (rs2 insn)
  | 0x00, 1 => p1 ++ p2 ++ [i64Const 0x3f, bin .and, arith .shl]
  | 0x00, 2 => p1 ++ p2 ++ [cmp64 .ltS, extendU]
  | 0x00, 3 => p1 ++ p2 ++ [cmp64 .ltU, extendU]
  | 0x00, 4 => p1 ++ p2 ++ [arith .xor]
  | 0x00, 5 => p1 ++ p2 ++ [i64Const 0x3f, bin .and, bin .shrU]
  | 0x20, 5 => p1 ++ p2 ++ [i64Const 0x3f, bin .and, bin .shrS]
  | 0x00, 6 => p1 ++ p2 ++ [arith .or]
  | 0x00, 7 => p1 ++ p2 ++ [bin .and]
  | 0x01, 4 => divCode p1 p2 minS64
  | 0x01, 5 => divUCode p1 p2
  | 0x01, 6 => remCode p1 p2 .remS
  | 0x01, 7 => remCode p1 p2 .remU
  | _, _ => []

/-- The low word as a 64-bit value again: every 32-bit result ends so. -/
def narrowCode : List Code := [wrap, extendS]

/-- OP-IMM-32, the operand on the stack. -/
def imm32Code (insn : U32) : List Code :=
  let imm := immI insn
  (match funct3 insn with
    | 0 => [i64Const imm, bin .add]
    | 1 => [i64Const (imm &&& 0x1f), arith .shl]
    | _ =>
      [wrap, extendU] ++
        if funct7 insn = 0x20 then [wrap, extendS, i64Const (imm &&& 0x1f), bin .shrS]
        else [i64Const 0xffffffff, bin .and, i64Const (imm &&& 0x1f), bin .shrU]) ++ narrowCode

/-- The low word of a register, with its sign. -/
def pushSigned (r : Fin 32) : List Code := c.pushRegCode r ++ [wrap, extendS]

/-- The low word of a register. -/
def pushUnsigned (r : Fin 32) : List Code := c.pushRegCode r ++ [i64Const 0xffffffff, bin .and]

/-- OP-32. -/
def op32Code (insn : U32) : List Code :=
  let p1 := c.pushRegCode (rs1 insn)
  let p2 := c.pushRegCode (rs2 insn)
  let s1 := c.pushSigned (rs1 insn)
  let s2 := c.pushSigned (rs2 insn)
  let u1 := c.pushUnsigned (rs1 insn)
  let u2 := c.pushUnsigned (rs2 insn)
  (match funct7 insn, funct3 insn with
    | 0x00, 0 => p1 ++ p2 ++ [bin .add]
    | 0x20, 0 => p1 ++ p2 ++ [bin .sub]
    | 0x01, 0 => p1 ++ p2 ++ [bin .mul]
    | 0x00, 1 => p1 ++ p2 ++ [i64Const 0x1f, bin .and, arith .shl]
    | 0x00, 5 => u1 ++ p2 ++ [i64Const 0x1f, bin .and, bin .shrU]
    | 0x20, 5 => s1 ++ p2 ++ [i64Const 0x1f, bin .and, bin .shrS]
    | 0x01, 4 => divCode s1 s2 minS32
    | 0x01, 5 => divUCode u1 u2
    | 0x01, 6 => remCode s1 s2 .remS
    | 0x01, 7 => remCode u1 u2 .remU
    | _, _ => []) ++ narrowCode

/-- The value of an instruction inside a trace, or none where the trace ends before it. -/
def valueCode (insn : U32) (pc : U64) : Option (List Code) :=
  match opcode insn with
  | 0x37 => some [i64Const (immU insn)]
  | 0x17 => some [i64Const (pc + immU insn)]
  | 0x13 => some (c.pushRegCode (rs1 insn) ++ immCode insn)
  | 0x33 => if aluHandled 0x33 (funct7 insn) (funct3 insn) then some (c.opCode insn) else none
  | 0x1b =>
    if funct3 insn = 0 ∨ funct3 insn = 1 ∨ funct3 insn = 5 then some (c.pushRegCode (rs1 insn) ++ imm32Code insn) else none
  | 0x3b => if aluHandled 0x3b (funct7 insn) (funct3 insn) then some (c.op32Code insn) else none
  | _ => none

/-- The integer arms: every one of them assigns its value to rd. -/
def emitSimple (insn : U32) (pc : U64) : Option (Ctx × List Code) := (c.valueCode insn pc).map (c.assign (rd insn))

end Ctx

end Lish
