import Lish.Core.Alu
import Lish.Jit.WasmEmit
import Mathlib.Data.List.FinRange
import Mathlib.Logic.Function.Basic
/-!
# MulHigh — the upper half of a product in generated code

Where a block keeps the registers, how it reads and writes one, and the widening multiplication it forms from the
halves of its operands.
-/
namespace Lish

open Wasm

/-! ## The registers of a block -/

/-- The i64 scratch locals; the register locals follow. -/
def nI64Locals : U32 := 10

def scr : U32 := 1
def page : U32 := 2
def pa : U32 := 3
def val : U32 := 4

/-- The locals handed out so far, and their number. -/
def assignLocal (touched : U32) (st : (Fin 32 → U32) × U32) (r : Fin 32) : (Fin 32 → U32) × U32 :=
  if touched &&& ((1 : U32) <<< r.val) ≠ 0 then (Function.update st.1 r (nI64Locals + 1 + st.2), st.2 + 1) else st

def regLocals (touched : U32) : (Fin 32 → U32) × U32 :=
  ((List.finRange 32).drop 1).foldl (assignLocal touched) (fun _ => 0, 0)

/-- Cached registers have locals of their own, above the scratch locals. -/
structure OwnLocals (st : (Fin 32 → U32) × U32) : Prop where
  range : ∀ r, st.1 r = 0 ∨ 11 ≤ (st.1 r).toNat ∧ (st.1 r).toNat < 11 + st.2.toNat
  distinct : ∀ r r', st.1 r = st.1 r' → st.1 r ≠ 0 → r = r'

theorem OwnLocals.assign {st : (Fin 32 → U32) × U32} (h : OwnLocals st) (hn : st.2.toNat < 32) (touched : U32) (r : Fin 32) :
    OwnLocals (assignLocal touched st r) ∧ (assignLocal touched st r).2.toNat ≤ st.2.toNat + 1 := by
  unfold assignLocal
  split
  · have hl : (nI64Locals + 1 + st.2).toNat = 11 + st.2.toNat := by
      rw [BitVec.toNat_add, show (nI64Locals + 1).toNat = 11 from rfl]
      omega
    have hs : (st.2 + 1).toNat = st.2.toNat + 1 := by
      rw [BitVec.toNat_add, show (1 : U32).toNat = 1 from rfl]
      omega
    have hfresh : ∀ r', nI64Locals + 1 + st.2 ≠ st.1 r' := fun r' he => by
      have ht := congrArg BitVec.toNat he
      rw [hl] at ht
      rcases h.range r' with h0 | ⟨_, hlt⟩
      · rw [h0, show (0 : U32).toNat = 0 from rfl] at ht
        omega
      · omega
    refine ⟨⟨fun q => ?_, fun q q' he hne => ?_⟩, hs.le⟩
    · dsimp only
      by_cases hq : q = r
      · subst hq
        exact Or.inr (by rw [Function.update_self, hl, hs]; omega)
      · rw [Function.update_of_ne hq, hs]
        rcases h.range q with h0 | ⟨hlo, hhi⟩
        · exact Or.inl h0
        · exact Or.inr ⟨hlo, by omega⟩
    · dsimp only at he hne
      by_cases hq : q = r
      · by_cases hq' : q' = r
        · rw [hq, hq']
        · rw [hq, Function.update_self, Function.update_of_ne hq'] at he
          exact absurd he (hfresh q')
      · rw [Function.update_of_ne hq] at he hne
        by_cases hq' : q' = r
        · rw [hq', Function.update_self] at he
          exact absurd he.symm (hfresh q)
        · rw [Function.update_of_ne hq'] at he
          exact h.distinct q q' he hne
  · exact ⟨h, Nat.le_succ _⟩

theorem OwnLocals.foldl (touched : U32) (l : List (Fin 32)) {st : (Fin 32 → U32) × U32} (h : OwnLocals st)
    (hn : st.2.toNat + l.length < 32) : OwnLocals (l.foldl (assignLocal touched) st) := by
  induction l generalizing st with
  | nil => exact h
  | cons r l ih =>
    rw [List.length_cons] at hn
    obtain ⟨ha, hle⟩ := h.assign (by omega) touched r
    exact ih ha (by omega)

theorem ownLocals_regLocals (touched : U32) : OwnLocals (regLocals touched) := by
  refine OwnLocals.foldl touched _ ⟨fun r => Or.inl rfl, fun r r' _ hne => absurd rfl hne⟩ ?_
  rw [List.length_drop, List.length_finRange]
  decide

/-- The context of a block's emission: each register is in a local of its own or in memory. -/
structure Ctx where
  /-- Where the registers of the hart are in linear memory. -/
  xBase : U32
  /-- The local of a register, or 0 while it is in memory. -/
  regLocal : Fin 32 → U32
  /-- The registers whose locals are defined at this point. -/
  defined : U32
  above : ∀ r, regLocal r = 0 ∨ 11 ≤ (regLocal r).toNat
  distinct : ∀ r r', regLocal r = regLocal r' → regLocal r ≠ 0 → r = r'

namespace Ctx

/-- The context of a block that reads and writes the registers of these masks; x0 is never one of them. -/
def build (xBase readMask writeMask defined : U32) : Ctx :=
  let touched := (readMask &&& ~~~1) ||| (writeMask &&& ~~~1)
  { xBase
    regLocal := (regLocals touched).1
    defined
    above := fun r => ((ownLocals_regLocals touched).range r).imp_right And.left
    distinct := (ownLocals_regLocals touched).distinct }

/-- `x_base as u64 + r as u64 * 8`. -/
def xOffset (c : Ctx) (r : Fin 32) : U64 := c.xBase.setWidth 64 + BitVec.ofNat 64 r.val * 8

/-- x0 is the constant 0. -/
def pushReg (c : Ctx) (m : WasmModule) (r : Fin 32) : WasmModule :=
  if r = 0 then m.i64Const 0
  else if c.regLocal r ≠ 0 then m.localGet (c.regLocal r)
  else (m.i32Const 0).i64Load (c.xOffset r)

/-- A store to memory needs its address first; false when there is nothing to store. -/
def storePre (c : Ctx) (m : WasmModule) (rd : Fin 32) : Bool × WasmModule :=
  if rd = 0 then (false, m)
  else (true, if c.regLocal rd = 0 then m.i32Const 0 else m)

def storePost (c : Ctx) (m : WasmModule) (rd : Fin 32) : Ctx × WasmModule :=
  ({ c with defined := c.defined ||| ((1 : U32) <<< rd.val) },
    if c.regLocal rd ≠ 0 then m.localSet (c.regLocal rd) else m.i64Store (c.xOffset rd))

def loMask : U64 := 0xffffffff

/-- The upper half of the unsigned product, from the 32-bit halves of the operands. -/
def pushMulHighUnsigned (c : Ctx) (m : WasmModule) (s1 s2 : Fin 32) : WasmModule :=
  let aLo := scr
  let bLo := page
  let mid := pa
  let carry := val
  let m := (((c.pushReg m s1).i64Const loMask).op i64And).localSet aLo
  let m := (((c.pushReg m s2).i64Const loMask).op i64And).localSet bLo
  -- mid = high32(a_lo * b_lo) + high32(a) * b_lo
  let m := ((((m.localGet aLo).localGet bLo).op i64Mul).i64Const 32).op i64ShrU
  let m := c.pushReg m s1
  let m := (((((m.i64Const 32).op i64ShrU).localGet bLo).op i64Mul).op i64Add).localSet mid
  let m := (((m.localGet mid).i64Const 32).op i64ShrU).localSet carry
  -- the other cross product; its high half and the carry complete the product
  let m := ((m.localGet mid).i64Const loMask).op i64And
  let m := m.localGet aLo
  let m := c.pushReg m s2
  let m := ((((m.i64Const 32).op i64ShrU).op i64Mul).op i64Add).localSet mid
  let m := c.pushReg m s1
  let m := (m.i64Const 32).op i64ShrU
  let m := c.pushReg m s2
  let m := ((((m.i64Const 32).op i64ShrU).op i64Mul).localGet carry).op i64Add
  (((m.localGet mid).i64Const 32).op i64ShrU).op i64Add

/-- `high_signed(a*b) = high_unsigned(a*b) - sign(a)*b - sign(b)*a`. -/
def pushSignCorrection (c : Ctx) (m : WasmModule) (sign other : Fin 32) : WasmModule :=
  let m := ((c.pushReg m sign).i64Const 63).op i64ShrS
  ((c.pushReg m other).op i64And).op i64Sub

/-- The upper 64 bits of rs1 * rs2. -/
def pushMulHigh (c : Ctx) (m : WasmModule) (f3 : ℕ) (s1 s2 : Fin 32) : WasmModule :=
  let m := c.pushMulHighUnsigned m s1 s2
  let m := if f3 = 1 ∨ f3 = 2 then c.pushSignCorrection m s1 s2 else m
  if f3 = 1 then c.pushSignCorrection m s2 s1 else m

/-- The arm of a block for MULH, MULHSU and MULHU. -/
def emitMulHigh (c : Ctx) (m : WasmModule) (f3 : ℕ) (d s1 s2 : Fin 32) : Ctx × WasmModule :=
  let pre := c.storePre m d
  if pre.1 then c.storePost (c.pushMulHigh pre.2 f3 s1 s2) d else (c, pre.2)

end Ctx

/-! ## The product -/

/-- The upper half of the product, of the operands as the function code takes them. -/
def mulHigh (f3 : ℕ) (a b : U64) : U64 :=
  BitVec.ofInt 64 ((if f3 = 3 then (a.toNat : ℤ) else a.toInt) * (if f3 = 1 then b.toInt else (b.toNat : ℤ)) / 2 ^ 64)

theorem high_ofInt (p : ℤ) : ((BitVec.ofInt 128 p) >>> 64).setWidth 64 = BitVec.ofInt 64 (p / 2 ^ 64) := by
  apply BitVec.eq_of_toNat_eq
  rw [BitVec.toNat_setWidth, BitVec.toNat_ushiftRight, BitVec.toNat_ofInt, BitVec.toNat_ofInt, Nat.shiftRight_eq_div_pow]
  omega

theorem signExtend_ofInt (a : U64) : a.signExtend 128 = BitVec.ofInt 128 a.toInt := rfl

theorem setWidth_ofInt (a : U64) : a.setWidth 128 = BitVec.ofInt 128 (a.toNat : ℤ) := by
  rw [BitVec.ofInt_natCast, BitVec.ofNat_toNat]

/-- The interpreter's widening multiplications. -/
theorem op64_mulHigh {insn : U32} (h7 : funct7 insn = 1) (h3 : funct3 insn = 1 ∨ funct3 insn = 2 ∨ funct3 insn = 3) (a b : U64) :
    op64 insn a b = some (mulHigh (funct3 insn) a b) := by
  unfold op64 mulHigh
  rcases h3 with h3 | h3 | h3
  · rw [h7, h3]
    show some (((a.signExtend 128 * b.signExtend 128) >>> 64).setWidth 64) = _
    rw [signExtend_ofInt, signExtend_ofInt, ← BitVec.ofInt_mul, high_ofInt]
    rfl
  · rw [h7, h3]
    show some (((a.signExtend 128 * b.setWidth 128) >>> 64).setWidth 64) = _
    rw [signExtend_ofInt, setWidth_ofInt, ← BitVec.ofInt_mul, high_ofInt]
    rfl
  · rw [h7, h3]
    show some (((a.setWidth 128 * b.setWidth 128) >>> 64).setWidth 64) = _
    rw [setWidth_ofInt, setWidth_ofInt, ← BitVec.ofInt_mul, high_ofInt]
    rfl

/-! ## The limbs -/

section limbs

variable {m m' : WasmModule} {s t : State} {a b : U64}

theorem emits_lo (h : Emits m m' s (t.push (.i64 a))) :
    ∃ v : U64, Emits m ((m'.i64Const Ctx.loMask).op i64And) s (t.push (.i64 v)) ∧ v.toNat = a.toNat % 2 ^ 32 := by
  refine ⟨_, (h.i64Const Ctx.loMask).bin .and trivial, ?_⟩
  show (a &&& Ctx.loMask).toNat = _
  rw [BitVec.toNat_and]
  exact Nat.and_two_pow_sub_one_eq_mod a.toNat 32

theorem emits_hi (h : Emits m m' s (t.push (.i64 a))) :
    ∃ v : U64, Emits m ((m'.i64Const 32).op i64ShrU) s (t.push (.i64 v)) ∧ v.toNat = a.toNat / 2 ^ 32 := by
  refine ⟨_, (h.i64Const 32).bin .shrU trivial, ?_⟩
  show (a >>> 32).toNat = _
  rw [BitVec.toNat_ushiftRight, Nat.shiftRight_eq_div_pow]

theorem emits_mul (h : Emits m m' s ((t.push (.i64 a)).push (.i64 b))) (hf : a.toNat * b.toNat < 2 ^ 64) :
    ∃ v : U64, Emits m (m'.op i64Mul) s (t.push (.i64 v)) ∧ v.toNat = a.toNat * b.toNat := by
  refine ⟨_, h.bin .mul hf, ?_⟩
  show (a * b).toNat = _
  rw [BitVec.toNat_mul, Nat.mod_eq_of_lt hf]

theorem emits_add (h : Emits m m' s ((t.push (.i64 a)).push (.i64 b))) (hf : a.toNat + b.toNat < 2 ^ 64) :
    ∃ v : U64, Emits m (m'.op i64Add) s (t.push (.i64 v)) ∧ v.toNat = a.toNat + b.toNat := by
  refine ⟨_, h.bin .add hf, ?_⟩
  show (a + b).toNat = _
  rw [BitVec.toNat_add, Nat.mod_eq_of_lt hf]

end limbs

theorem mul_limbs {a b : ℕ} (ha : a < 2 ^ 32) (hb : b < 2 ^ 32) : a * b ≤ (2 ^ 32 - 1) * (2 ^ 32 - 1) :=
  Nat.mul_le_mul (by omega) (by omega)

/-- A product in base 2^32. -/
theorem mul_by_limbs (a b : ℕ) :
    a * b = (a / 2 ^ 32) * (b / 2 ^ 32) * 2 ^ 64 +
      ((a / 2 ^ 32) * (b % 2 ^ 32) + (a % 2 ^ 32) * (b / 2 ^ 32)) * 2 ^ 32 + (a % 2 ^ 32) * (b % 2 ^ 32) := by
  have ha := Nat.div_add_mod a (2 ^ 32)
  have hb := Nat.div_add_mod b (2 ^ 32)
  calc a * b = (2 ^ 32 * (a / 2 ^ 32) + a % 2 ^ 32) * (2 ^ 32 * (b / 2 ^ 32) + b % 2 ^ 32) := by rw [ha, hb]
    _ = _ := by ring

/-- Subtracting the other operand for a negative sign. -/
theorem signMask_and (a b : U64) :
    BinOp.eval (BinOp.eval a 63 .shrS) b .and = BitVec.ofInt 64 (if a.toInt < 0 then (b.toNat : ℤ) else 0) := by
  have hs : BinOp.eval a 63 .shrS = if a.toInt < 0 then BitVec.allOnes 64 else 0 := by
    show a.sshiftRight 63 = _
    have h1 := BitVec.le_toInt a
    have h2 := BitVec.toInt_lt (x := a)
    apply BitVec.eq_of_toInt_eq
    rw [BitVec.toInt_sshiftRight, Int.shiftRight_eq_div_pow]
    split
    · rw [BitVec.toInt_allOnes]
      norm_num
      omega
    · rw [show (0 : U64).toInt = 0 from rfl]
      norm_num
      omega
  rw [hs]
  show (if a.toInt < 0 then BitVec.allOnes 64 else 0) &&& b = _
  split
  · rw [BitVec.allOnes_and, BitVec.ofInt_natCast, BitVec.ofNat_toNat, BitVec.setWidth_eq]
  · show 0#64 &&& b = _
    rw [BitVec.zero_and]
    rfl

/-! ## Registers in the locals and the memory -/

/-- The registers are where the context keeps them, and the scratch locals are there. -/
structure Ctx.Holds (c : Ctx) (x : Fin 32 → U64) (s : State) : Prop where
  zero : x 0 = 0
  cached : ∀ r, c.regLocal r ≠ 0 → s.locals (c.regLocal r).toNat = some (.i64 (x r))
  inMemory : ∀ r, r ≠ 0 → c.regLocal r = 0 → s.mem.load64 (c.xOffset r).toNat = some (x r)
  scratch : ∀ i, 1 ≤ i → i ≤ 10 → ∃ v, s.locals i = some (.i64 v)

namespace Ctx

variable {c : Ctx} {x : Fin 32 → U64} {s t : State} {m m' : WasmModule}

theorem Holds.push (h : c.Holds x s) (v : Val) : c.Holds x (s.push v) := ⟨h.zero, h.cached, h.inMemory, h.scratch⟩

/-- The scratch locals hold no register. -/
theorem Holds.setScratch (h : c.Holds x s) {i : ℕ} (hi : i ≤ 10) (v : U64) : c.Holds x (s.setLocal i (.i64 v)) := by
  refine ⟨h.zero, fun r hr => ?_, h.inMemory, fun j hj hj' => ?_⟩
  · have hne : (c.regLocal r).toNat ≠ i := by
      have := (c.above r).resolve_left hr
      omega
    rw [State.setLocal_locals, if_neg hne, h.cached r hr]
  · rw [State.setLocal_locals]
    by_cases hji : j = i
    · exact ⟨v, if_pos hji⟩
    · rw [if_neg hji]
      exact h.scratch j hj hj'

theorem emits_pushReg (h : Emits m m' s t) (hx : c.Holds x t) (r : Fin 32) :
    Emits m (c.pushReg m' r) s (t.push (.i64 (x r))) := by
  unfold pushReg
  by_cases h0 : r = 0
  · rw [if_pos h0, h0, hx.zero]
    exact h.i64Const 0
  · rw [if_neg h0]
    by_cases hl : c.regLocal r = 0
    · rw [if_neg (not_not.2 hl)]
      refine (h.i32Const 0).i64Load ?_
      rw [show (0 : U32).toNat = 0 from rfl, Nat.zero_add]
      exact hx.inMemory r h0 hl
    · rw [if_pos hl]
      exact h.localGet (hx.cached r hl)

/-- A scratch local takes what is on the stack. -/
theorem emits_setScratch (hx : c.Holds x t) {i : U32} {v : U64} (h1 : 1 ≤ i.toNat) (h10 : i.toNat ≤ 10)
    (h : Emits m m' s (t.push (.i64 v))) :
    Emits m (m'.localSet i) s (t.setLocal i.toNat (.i64 v)) ∧ c.Holds x (t.setLocal i.toNat (.i64 v)) := by
  obtain ⟨w, hw⟩ := hx.scratch i.toNat h1 h10
  exact ⟨h.localSet hw, hx.setScratch h10 v⟩

/-- **The unsigned half**: the code leaves the upper half of the unsigned product, and nothing wraps on the way. -/
theorem emits_pushMulHighUnsigned (h : Emits m m' s t) (hx : c.Holds x t) (s1 s2 : Fin 32) :
    ∃ (t' : State) (v : U64), Emits m (c.pushMulHighUnsigned m' s1 s2) s (t'.push (.i64 v)) ∧ c.Holds x t' ∧
      t'.stack = t.stack ∧ t'.mem = t.mem ∧ v.toNat = (x s1).toNat * (x s2).toNat / 2 ^ 64 := by
  have hal : (x s1).toNat % 2 ^ 32 < 2 ^ 32 := Nat.mod_lt _ (by omega)
  have hbl : (x s2).toNat % 2 ^ 32 < 2 ^ 32 := Nat.mod_lt _ (by omega)
  have hah : (x s1).toNat / 2 ^ 32 < 2 ^ 32 := by have := (x s1).isLt; omega
  have hbh : (x s2).toNat / 2 ^ 32 < 2 ^ 32 := by have := (x s2).isLt; omega
  have hprod := mul_by_limbs (x s1).toNat (x s2).toNat
  have hll := mul_limbs hal hbl
  have hhl := mul_limbs hah hbl
  have hlh := mul_limbs hal hbh
  have hhh := mul_limbs hah hbh
  have hmax : (x s1).toNat * (x s2).toNat < 2 ^ 64 * 2 ^ 64 := Nat.mul_lt_mul'' (x s1).isLt (x s2).isLt
  generalize (x s1).toNat * (x s2).toNat = p at hprod hmax ⊢
  -- the lower limbs
  obtain ⟨aLo, e1, val⟩ := emits_lo (emits_pushReg h hx s1)
  obtain ⟨e2, hx2⟩ := emits_setScratch hx (i := scr) (by decide) (by decide) e1
  obtain ⟨bLo, e3, vbl⟩ := emits_lo (emits_pushReg e2 hx2 s2)
  obtain ⟨e4, hx4⟩ := emits_setScratch hx2 (i := page) (by decide) (by decide) e3
  -- mid and its carry
  obtain ⟨ll, e5, vll⟩ := emits_mul ((e4.localGet (i := scr) (v := .i64 aLo) rfl).localGet (i := page) (v := .i64 bLo) rfl)
    (by rw [val, vbl]; omega)
  obtain ⟨llHi, e6, vllHi⟩ := emits_hi e5
  obtain ⟨aHi, e7, vah⟩ := emits_hi (emits_pushReg e6 (hx4.push _) s1)
  obtain ⟨hl, e8, vhl⟩ := emits_mul (e7.localGet (i := page) (v := .i64 bLo) rfl) (by rw [vah, vbl]; omega)
  obtain ⟨mid, e9, vmid⟩ := emits_add e8 (by rw [vllHi, vll, vhl, val, vbl, vah]; omega)
  obtain ⟨e10, hx10⟩ := emits_setScratch hx4 (i := pa) (by decide) (by decide) e9
  obtain ⟨carry, e11, vcarry⟩ := emits_hi (e10.localGet (i := pa) (v := .i64 mid) rfl)
  obtain ⟨e12, hx12⟩ := emits_setScratch hx10 (i := Lish.val) (by decide) (by decide) e11
  -- the other cross product
  obtain ⟨midLo, e13, vmidLo⟩ := emits_lo (e12.localGet (i := pa) (v := .i64 mid) rfl)
  obtain ⟨bHi, e14, vbh⟩ := emits_hi (emits_pushReg (e13.localGet (i := scr) (v := .i64 aLo) rfl) ((hx12.push _).push _) s2)
  obtain ⟨lh, e15, vlh⟩ := emits_mul e14 (by rw [val, vbh]; omega)
  obtain ⟨mid2, e16, vmid2⟩ := emits_add e15 (by rw [vmidLo, vlh, val, vbh]; omega)
  obtain ⟨e17, hx17⟩ := emits_setScratch hx12 (i := pa) (by decide) (by decide) e16
  -- the high limbs
  obtain ⟨aHi', e18, vah'⟩ := emits_hi (emits_pushReg e17 hx17 s1)
  obtain ⟨bHi', e19, vbh'⟩ := emits_hi (emits_pushReg e18 (hx17.push _) s2)
  obtain ⟨hh, e20, vhh⟩ := emits_mul e19 (by rw [vah', vbh']; omega)
  rw [val, vbl] at vll
  rw [vah, vbl] at vhl
  rw [val, vbh] at vlh
  rw [vah', vbh'] at vhh
  rw [← vll, ← vhl, ← vlh, ← vhh] at hprod
  obtain ⟨sum, e21, vsum⟩ := emits_add (e20.localGet (i := Lish.val) (v := .i64 carry) rfl) (by omega)
  obtain ⟨mid2Hi, e22, vmid2Hi⟩ := emits_hi (e21.localGet (i := pa) (v := .i64 mid2) rfl)
  obtain ⟨v, e23, vv⟩ := emits_add e22 (by omega)
  exact ⟨_, v, e23, hx17, rfl, rfl, by omega⟩

/-- A sign correction subtracts the other operand where the sign is negative. -/
theorem emits_pushSignCorrection {v : U64} (h : Emits m m' s (t.push (.i64 v))) (hx : c.Holds x t) (sign other : Fin 32) :
    Emits m (c.pushSignCorrection m' sign other) s
      (t.push (.i64 (v - BitVec.ofInt 64 (if (x sign).toInt < 0 then ((x other).toNat : ℤ) else 0)))) := by
  have e1 := ((emits_pushReg h (hx.push _) sign).i64Const 63).bin .shrS trivial
  have e2 := (emits_pushReg e1 ((hx.push _).push _) other).bin .and trivial
  rw [signMask_and] at e2
  exact e2.bin .sub trivial

/-- An operand with its sign takes the other one off the upper half. -/
theorem signed_high (a : U64) (k : ℤ) : a.toInt * k / 2 ^ 64 = (a.toNat : ℤ) * k / 2 ^ 64 - (if a.toInt < 0 then k else 0) := by
  have hlt := a.isLt
  have ha : a.toInt = (a.toNat : ℤ) - (if a.toInt < 0 then 2 ^ 64 else 0) := by
    rw [BitVec.toInt_eq_toNat_cond]
    split
    · rw [if_neg (by omega)]
      omega
    · rw [if_pos (by omega)]
      rfl
  by_cases hs : a.toInt < 0
  · rw [if_pos hs] at ha ⊢
    rw [ha, show ((a.toNat : ℤ) - 2 ^ 64) * k = (a.toNat : ℤ) * k + (-k) * 2 ^ 64 by ring,
      Int.add_mul_ediv_right _ _ (by norm_num)]
    ring
  · rw [if_neg hs] at ha ⊢
    rw [ha]
    simp

theorem ofInt_toNat (a : U64) : BitVec.ofInt 64 (a.toNat : ℤ) = a := by
  rw [BitVec.ofInt_natCast, BitVec.ofNat_toNat, BitVec.setWidth_eq]

theorem ofInt_sub (p q : ℤ) : BitVec.ofInt 64 (p - q) = BitVec.ofInt 64 p - BitVec.ofInt 64 q := by
  rw [sub_eq_add_neg, BitVec.ofInt_add, BitVec.ofInt_neg, BitVec.sub_eq_add_neg]

theorem mulHigh_unsigned (a b : U64) : mulHigh 3 a b = BitVec.ofInt 64 ((a.toNat : ℤ) * b.toNat / 2 ^ 64) := rfl

theorem mulHigh_signedUnsigned (a b : U64) :
    mulHigh 2 a b = mulHigh 3 a b - BitVec.ofInt 64 (if a.toInt < 0 then (b.toNat : ℤ) else 0) := by
  rw [mulHigh_unsigned, ← ofInt_sub, ← signed_high]
  rfl

theorem mulHigh_signed (a b : U64) :
    mulHigh 1 a b = mulHigh 2 a b - BitVec.ofInt 64 (if b.toInt < 0 then (a.toNat : ℤ) else 0) := by
  have hb : BitVec.ofInt 64 (if a.toInt < 0 then b.toInt else 0) = BitVec.ofInt 64 (if a.toInt < 0 then (b.toNat : ℤ) else 0) := by
    split
    · rw [BitVec.ofInt_toInt, ofInt_toNat]
    · rfl
  have h1 : mulHigh 1 a b = BitVec.ofInt 64 (a.toInt * b.toInt / 2 ^ 64) := rfl
  rw [h1, mulHigh_signedUnsigned, mulHigh_unsigned, signed_high, mul_comm (a.toNat : ℤ) b.toInt, signed_high b, ofInt_sub, ofInt_sub,
    hb, mul_comm (b.toNat : ℤ)]
  ring

/-- **The code of a widening multiplication** leaves the upper half of the product of its operands on the stack. -/
theorem emits_pushMulHigh (h : Emits m m' s t) (hx : c.Holds x t) {f3 : ℕ} (h3 : f3 = 1 ∨ f3 = 2 ∨ f3 = 3) (s1 s2 : Fin 32) :
    ∃ t' : State, Emits m (c.pushMulHigh m' f3 s1 s2) s (t'.push (.i64 (mulHigh f3 (x s1) (x s2)))) ∧ c.Holds x t' ∧
      t'.stack = t.stack ∧ t'.mem = t.mem := by
  obtain ⟨t', v, he, hx', hstack, hmem, hv⟩ := emits_pushMulHighUnsigned h hx s1 s2
  obtain rfl : v = mulHigh 3 (x s1) (x s2) := by
    rw [mulHigh_unsigned, ← ofInt_toNat v, hv]
    rfl
  refine ⟨t', ?_, hx', hstack, hmem⟩
  unfold pushMulHigh
  rcases h3 with rfl | rfl | rfl
  · rw [mulHigh_signed, mulHigh_signedUnsigned]
    exact emits_pushSignCorrection (emits_pushSignCorrection he hx' s1 s2) hx' s2 s1
  · rw [mulHigh_signedUnsigned]
    exact emits_pushSignCorrection he hx' s1 s2
  · exact he

/-- The registers after a result. -/
def setReg (x : Fin 32 → U64) (d : Fin 32) (v : U64) : Fin 32 → U64 := if d = 0 then x else Function.update x d v

theorem toNat_xOffset (c : Ctx) (r : Fin 32) : (c.xOffset r).toNat = c.xBase.toNat + 8 * r.val := by
  have h1 := c.xBase.isLt
  have h2 := r.isLt
  unfold xOffset
  rw [BitVec.toNat_add, BitVec.toNat_mul, BitVec.toNat_ofNat, BitVec.toNat_setWidth, show (8 : U64).toNat = 8 from rfl]
  omega

/-- A cached register takes a result in its local. -/
theorem Holds.setCached (h : c.Holds x t) {d : Fin 32} (h0 : d ≠ 0) (hl : c.regLocal d ≠ 0) (v : U64) :
    c.Holds (setReg x d v) (t.setLocal (c.regLocal d).toNat (.i64 v)) := by
  unfold setReg
  rw [if_neg h0]
  refine ⟨?_, fun r hr => ?_, fun r hr hm => ?_, fun i hi hi' => ?_⟩
  · rw [Function.update_of_ne h0.symm]
    exact h.zero
  · rw [State.setLocal_locals]
    by_cases hrd : r = d
    · rw [hrd, if_pos rfl, Function.update_self]
    · rw [if_neg fun he => hrd (c.distinct r d (BitVec.eq_of_toNat_eq he) hr), Function.update_of_ne hrd]
      exact h.cached r hr
  · rw [Function.update_of_ne fun hrd : r = d => hl (hrd ▸ hm)]
    exact h.inMemory r hr hm
  · have hne : i ≠ (c.regLocal d).toNat := by
      have := (c.above d).resolve_left hl
      omega
    rw [State.setLocal_locals, if_neg hne]
    exact h.scratch i hi hi'

/-- A register in memory takes a result there, and no other register is overlapped. -/
theorem Holds.setInMemory (h : c.Holds x t) {d : Fin 32} (h0 : d ≠ 0) (hl : c.regLocal d = 0) {v : U64} {mem : Memory}
    (hm : t.mem.store64 (c.xOffset d).toNat v = some mem) : c.Holds (setReg x d v) { t with mem } := by
  unfold setReg
  rw [if_neg h0]
  refine ⟨?_, fun r hr => ?_, fun r hr hrl => ?_, h.scratch⟩
  · rw [Function.update_of_ne h0.symm]
    exact h.zero
  · rw [Function.update_of_ne fun hrd : r = d => hr (hrd ▸ hl)]
    exact h.cached r hr
  · by_cases hrd : r = d
    · rw [hrd, Function.update_self]
      exact Memory.load64_store64 hm
    · have hne : r.val ≠ d.val := fun he => hrd (Fin.ext he)
      rw [Function.update_of_ne hrd]
      refine (Memory.load64_store64_ne hm ?_).trans (h.inMemory r hr hrl)
      rw [toNat_xOffset, toNat_xOffset]
      omega

/-- **The arm of a widening multiplication** gives its register the upper half of the product, whatever registers the
operands and the result are and wherever they are kept. -/
theorem emits_emitMulHigh (h : Emits m m' s t) (hx : c.Holds x t) {f3 : ℕ} (h3 : f3 = 1 ∨ f3 = 2 ∨ f3 = 3)
    (d s1 s2 : Fin 32) : ∃ t' : State, Emits m (c.emitMulHigh m' f3 d s1 s2).2 s t' ∧
      (c.emitMulHigh m' f3 d s1 s2).1.Holds (setReg x d (mulHigh f3 (x s1) (x s2))) t' ∧ t'.stack = t.stack := by
  unfold emitMulHigh storePre
  by_cases h0 : d = 0
  · rw [if_pos h0]
    refine ⟨t, h, ?_, rfl⟩
    unfold setReg
    rw [if_pos h0]
    exact hx
  · rw [if_neg h0]
    show ∃ t', Emits m (if c.regLocal d ≠ 0 then _ else _) s t' ∧ _
    by_cases hl : c.regLocal d = 0
    · rw [if_neg (not_not.2 hl), if_pos hl]
      obtain ⟨t', he, hx', hstack, hmem⟩ := emits_pushMulHigh (h.i32Const 0) (hx.push _) h3 s1 s2
      obtain ⟨stack, locals, mem'⟩ := t'
      obtain rfl : stack = .i32 0 :: t.stack := hstack
      obtain ⟨mem, hst⟩ := Memory.store64_isSome (hx'.inMemory d h0 hl) (mulHigh f3 (x s1) (x s2))
      -- the address is under the product
      have hunder : c.Holds x ⟨t.stack, locals, mem'⟩ := ⟨hx'.zero, hx'.cached, hx'.inMemory, hx'.scratch⟩
      have hset := hunder.setInMemory h0 hl hst
      refine ⟨_, Emits.i64Store (a := 0) (t := ⟨t.stack, locals, mem'⟩) he ?_,
        ⟨hset.zero, hset.cached, hset.inMemory, hset.scratch⟩, rfl⟩
      rw [show (0 : U32).toNat = 0 from rfl, Nat.zero_add]
      exact hst
    · rw [if_pos hl, if_neg hl]
      obtain ⟨t', he, hx', hstack, hmem⟩ := emits_pushMulHigh h hx h3 s1 s2
      have hset := hx'.setCached h0 hl (mulHigh f3 (x s1) (x s2))
      exact ⟨_, he.localSet (hx'.cached d hl), ⟨hset.zero, hset.cached, hset.inMemory, hset.scratch⟩, hstack⟩

end Ctx

/-- **The limb multiplication is the 128-bit product**: for every placement of the registers the code leaves the upper
half that the interpreter computes on the stack, nothing wraps in its carry chain, and the arm of the instruction gives
it to the destination alone. -/
theorem limb_product (c : Ctx) (m : WasmModule) (x : Fin 32 → U64) (s : State) (hx : c.Holds x s) (insn : U32)
    (h7 : funct7 insn = 1) (h3 : funct3 insn = 1 ∨ funct3 insn = 2 ∨ funct3 insn = 3) (d s1 s2 : Fin 32) :
    op64 insn (x s1) (x s2) = some (mulHigh (funct3 insn) (x s1) (x s2)) ∧
    (∃ t : State, Runs m (c.pushMulHigh m (funct3 insn) s1 s2) s (t.push (.i64 (mulHigh (funct3 insn) (x s1) (x s2)))) ∧
      c.Holds x t ∧ t.stack = s.stack ∧ t.mem = s.mem) ∧
    ∃ t : State, Runs m (c.emitMulHigh m (funct3 insn) d s1 s2).2 s t ∧ t.stack = s.stack ∧
      (c.emitMulHigh m (funct3 insn) d s1 s2).1.Holds (Ctx.setReg x d (mulHigh (funct3 insn) (x s1) (x s2))) t := by
  refine ⟨op64_mulHigh h7 h3 _ _, ?_, ?_⟩
  · obtain ⟨t, he, hx', hstack, hmem⟩ := Ctx.emits_pushMulHigh (Emits.refl m s) hx h3 s1 s2
    exact ⟨t, he.runs, hx', hstack, hmem⟩
  · obtain ⟨t, he, hx', hstack⟩ := Ctx.emits_emitMulHigh (Emits.refl m s) hx h3 d s1 s2
    exact ⟨t, he.runs, hstack, hx'⟩

/-! ## A product of a cached register and one in memory -/

/-- Register 5 is cached, and all ones. -/
def cachedFive : Ctx := Ctx.build 0 0x20 0 0x20

def fiveOnes : Fin 32 → U64 := fun r => if r = 5 then BitVec.allOnes 64 else 0

def fiveState : State where
  stack := []
  locals := fun i => if i ≤ 10 then some (.i64 0) else if i = 11 then some (.i64 (BitVec.allOnes 64)) else none
  mem := ⟨256, fun _ => 0⟩

theorem load64_zero {a n : ℕ} (h : a + 8 ≤ n) : (⟨n, fun _ => 0⟩ : Memory).load64 a = some 0 := by
  unfold Memory.load64
  rw [if_pos h, Memory.number_digits (v := 0) fun i _ => by rw [Nat.zero_div]; rfl]
  rfl

theorem fiveState_holds : cachedFive.Holds fiveOnes fiveState := by
  have hcached : ∀ r, cachedFive.regLocal r ≠ 0 → r = 5 := by decide
  have hfive : cachedFive.regLocal 5 = 11 := by decide
  refine ⟨rfl, fun r hr => ?_, fun r _ hr => ?_, fun i _ hi => ⟨0, if_pos hi⟩⟩
  · rw [hcached r hr, hfive]
    rfl
  · have hne : r ≠ 5 := fun h => absurd (h ▸ hr) (by rw [hfive]; decide)
    have hload := load64_zero (a := (cachedFive.xOffset r).toNat) (n := 256) (by
      rw [Ctx.toNat_xOffset, show cachedFive.xBase.toNat = 0 from rfl]
      omega)
    rw [show fiveOnes r = 0 from if_neg hne]
    exact hload

/-- MULHSU of registers 5 and 6 into register 7. -/
theorem limb_product_five :
    ∃ t : State, Runs ⟨[]⟩ (cachedFive.emitMulHigh ⟨[]⟩ (funct3 0x0262a3b3) 7 5 6).2 fiveState t ∧ t.stack = [] := by
  obtain ⟨-, -, t, ht, hstack, -⟩ := limb_product cachedFive ⟨[]⟩ fiveOnes fiveState fiveState_holds 0x0262a3b3 (by decide)
    (by decide) 7 5 6
  exact ⟨t, ht, hstack⟩

end Lish
