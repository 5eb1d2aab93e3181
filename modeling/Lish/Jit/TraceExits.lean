import Lish.Jit.TraceScan
import Lish.Jit.TraceValues
/-!
# TraceExits — leaving a trace

The memory that shows a hart: its registers, its pc, and the count of retired instructions.  What the code of an exit makes of
it, and who takes over.
-/
namespace Lish

open Wasm Code

/-! ## The memory of a hart -/

/-- The cells of the layout are in the memory, and those that code writes are apart. -/
structure TraceLayout.Fits (lay : TraceLayout) (size : ℕ) : Prop where
  regs : lay.xBase.toNat + 256 ≤ size
  pc : lay.pcAddr.toNat + 8 ≤ size
  retired : lay.retiredAddr.toNat + 8 ≤ size
  fuel : lay.fuelAddr.toNat + 8 ≤ size
  lines : lay.dispatchBase.toNat + 16 * (lay.dispatchMask.toNat + 1) ≤ size
  mapGen : lay.mapGenAddr.toNat + 4 ≤ size
  pcRegs : lay.pcAddr.toNat + 8 ≤ lay.xBase.toNat ∨ lay.xBase.toNat + 256 ≤ lay.pcAddr.toNat
  retiredRegs : lay.retiredAddr.toNat + 8 ≤ lay.xBase.toNat ∨ lay.xBase.toNat + 256 ≤ lay.retiredAddr.toNat
  pcRetired : lay.pcAddr.toNat + 8 ≤ lay.retiredAddr.toNat ∨ lay.retiredAddr.toNat + 8 ≤ lay.pcAddr.toNat

namespace TraceLayout

variable (lay : TraceLayout)

/-- The cell of a register. -/
def cell (r : Fin 32) : ℕ := lay.xBase.toNat + 8 * r.val

/-- The bytes that a trace may write. -/
def Owns (i : ℕ) : Prop :=
  lay.xBase.toNat ≤ i ∧ i < lay.xBase.toNat + 256 ∨ lay.pcAddr.toNat ≤ i ∧ i < lay.pcAddr.toNat + 8 ∨
    lay.retiredAddr.toNat ≤ i ∧ i < lay.retiredAddr.toNat + 8

/-- The memory shows these registers, pc and count. -/
structure Shows (x : Fin 32 → U64) (pc retired : U64) (mem : Memory) : Prop where
  regs : ∀ r : Fin 32, r ≠ 0 → mem.load64 (lay.cell r) = some (x r)
  pc : mem.load64 lay.pcAddr.toNat = some pc
  retired : mem.load64 lay.retiredAddr.toNat = some retired

/-- Outside its own bytes a trace leaves the memory alone. -/
structure Keeps (mem mem' : Memory) : Prop where
  size : mem'.size = mem.size
  byte : ∀ i, ¬lay.Owns i → mem'.byte i = mem.byte i

theorem Keeps.refl (mem : Memory) : lay.Keeps mem mem := ⟨rfl, fun _ _ => rfl⟩

variable {lay} {x : Fin 32 → U64} {pc retired v : U64} {mem mem' mem'' : Memory}

theorem Keeps.trans (h : lay.Keeps mem mem') (h' : lay.Keeps mem' mem'') : lay.Keeps mem mem'' :=
  ⟨h'.size.trans h.size, fun i hi => (h'.byte i hi).trans (h.byte i hi)⟩

theorem Shows.putReg (h : lay.Shows x pc retired mem) (hf : lay.Fits mem.size) (r : Fin 32) (v : U64) :
    lay.Shows (Function.update x r v) pc retired (mem.put (lay.cell r) v) ∧ lay.Keeps mem (mem.put (lay.cell r) v) := by
  have hr := r.isLt
  have hb := hf.regs
  have hp := hf.pcRegs
  have ht := hf.retiredRegs
  have hin : lay.cell r + 8 ≤ mem.size := by
    unfold cell
    omega
  refine ⟨⟨fun q hq => ?_, ?_, ?_⟩, rfl, fun i hi => Memory.byte_put_ne fun hc => hi ?_⟩
  · by_cases hqr : q = r
    · rw [hqr, Function.update_self]
      exact Memory.load64_put hin
    · have hne : q.val ≠ r.val := fun he => hqr (Fin.ext he)
      rw [Function.update_of_ne hqr, Memory.load64_put_ne hin (by unfold cell; omega)]
      exact h.regs q hq
  · rw [Memory.load64_put_ne hin (by unfold cell; omega)]
    exact h.pc
  · rw [Memory.load64_put_ne hin (by unfold cell; omega)]
    exact h.retired
  · unfold cell at hc
    exact Or.inl (by omega)

theorem Shows.putPc (h : lay.Shows x pc retired mem) (hf : lay.Fits mem.size) (v : U64) :
    lay.Shows x v retired (mem.put lay.pcAddr.toNat v) ∧ lay.Keeps mem (mem.put lay.pcAddr.toNat v) := by
  have hp := hf.pcRegs
  have hr := hf.pcRetired
  refine ⟨⟨fun q hq => ?_, Memory.load64_put hf.pc, ?_⟩, rfl, fun i hi => Memory.byte_put_ne fun hc => hi (Or.inr (Or.inl hc))⟩
  · have := q.isLt
    rw [Memory.load64_put_ne hf.pc (by unfold cell; omega)]
    exact h.regs q hq
  · rw [Memory.load64_put_ne hf.pc (by omega)]
    exact h.retired

theorem Shows.putRetired (h : lay.Shows x pc retired mem) (hf : lay.Fits mem.size) (v : U64) :
    lay.Shows x pc v (mem.put lay.retiredAddr.toNat v) ∧ lay.Keeps mem (mem.put lay.retiredAddr.toNat v) := by
  have hp := hf.retiredRegs
  have hr := hf.pcRetired
  refine ⟨⟨fun q hq => ?_, ?_, Memory.load64_put hf.retired⟩, rfl,
    fun i hi => Memory.byte_put_ne fun hc => hi (Or.inr (Or.inr hc))⟩
  · have := q.isLt
    rw [Memory.load64_put_ne hf.retired (by unfold cell; omega)]
    exact h.regs q hq
  · rw [Memory.load64_put_ne hf.retired (by omega)]
    exact h.pc

end TraceLayout

/-! ## Publishing -/

section

variable {lay : TraceLayout} {x z : Fin 32 → U64} {pc retired : U64} {s : State}

theorem toNat_addr (a : U32) : (0 : U32).toNat + (a.setWidth 64 : U64).toNat = a.toNat := by
  rw [Emits.toNat_widen, toNat_offset]

theorem exec_setPcConst (hf : lay.Fits s.mem.size) (v : U64) (cs : List Code) :
    execAll (lay.setPcConst v ++ cs) s = execAll cs { s with mem := s.mem.put lay.pcAddr.toNat v } := by
  unfold TraceLayout.setPcConst
  rw [List.cons_append, List.cons_append, List.cons_append, exec_i32Const, exec_i64Const, exec_i64Store _ s (by
    rw [toNat_addr]
    exact hf.pc), toNat_addr]
  rfl

theorem exec_setRetired (hf : lay.Fits s.mem.size) (hr : s.mem.load64 lay.retiredAddr.toNat = some retired) (n : ℕ)
    (cs : List Code) :
    execAll (lay.setRetired n ++ cs) s =
      execAll cs { s with mem := s.mem.put lay.retiredAddr.toNat (retired + BitVec.ofNat 64 n) } := by
  have hload : (s.push (.i32 0)).mem.load64 ((0 : U32).toNat + (lay.retiredAddr.setWidth 64 : U64).toNat) = some retired := by
    rw [toNat_addr]
    exact hr
  unfold TraceLayout.setRetired
  simp only [List.cons_append, List.nil_append, exec_i32Const]
  rw [exec_i64Load _ (s.push (.i32 0)) hload]
  simp only [exec_i64Const, exec_bin]
  rw [exec_i64Store _ s (by
    rw [toNat_addr]
    exact hf.retired), toNat_addr]
  rfl

/-- The registers of a list, as far as they have locals, are in memory as they are in their locals. -/
theorem exec_flush {c : Ctx} (hc : c.xBase = lay.xBase) {y : Fin 32 → U64}
    (hl : ∀ r, c.regLocal r ≠ 0 → s.locals (c.regLocal r).toNat = some (.i64 (y r))) (l : List (Fin 32)) {mem : Memory}
    (hm : lay.Shows z pc retired mem) (hf : lay.Fits mem.size) :
    ∃ mem', (∀ cs, execAll ((l.flatMap fun r =>
        if c.regLocal r ≠ 0 then [i32Const 0, localGet (c.regLocal r), i64Store (c.xOffset r)] else []) ++ cs) { s with mem } =
          execAll cs { s with mem := mem' }) ∧
      lay.Shows (fun r => if r ∈ l ∧ c.regLocal r ≠ 0 then y r else z r) pc retired mem' ∧ lay.Keeps mem mem' := by
  induction l generalizing z mem with
  | nil =>
    refine ⟨mem, fun cs => rfl, ?_, .refl lay mem⟩
    simpa using hm
  | cons r l ih =>
    by_cases h0 : c.regLocal r = 0
    · obtain ⟨mem', he, hs, hk⟩ := ih hm hf
      refine ⟨mem', fun cs => ?_, ?_, hk⟩
      · rw [List.flatMap_cons, if_neg (not_not.2 h0), List.nil_append]
        exact he cs
      · have hz :
        (fun q => if q ∈ r :: l ∧ c.regLocal q ≠ 0 then y q else z q) = fun q => if q ∈ l ∧ c.regLocal q ≠ 0 then y q else z q := by
          funext q
          by_cases hq : q = r
          · rw [hq, if_neg fun h => h.2 h0, if_neg fun h => h.2 h0]
          · simp only [List.mem_cons, hq, false_or]
        rw [hz]
        exact hs
    · obtain ⟨hs1, hk1⟩ := hm.putReg hf r (y r)
      obtain ⟨mem', he, hs, hk⟩ := ih hs1 hf
      have haddr : (0 : U32).toNat + (c.xOffset r).toNat = lay.cell r := by
        rw [Ctx.toNat_xOffset, hc]
        exact Nat.zero_add _
      have hr := r.isLt
      have hb := hf.regs
      refine ⟨mem', fun cs => ?_, ?_, hk1.trans hk⟩
      · rw [List.flatMap_cons, if_pos h0, List.append_assoc, List.cons_append, List.cons_append, List.cons_append, exec_i32Const,
          exec_localGet _ (State.push { s with mem } (.i32 0)) (hl r h0), exec_i64Store _ { s with mem } (by
            rw [haddr]
            change _ ≤ mem.size
            unfold TraceLayout.cell
            omega), haddr]
        exact he cs
      · have hz : (fun q => if q ∈ r :: l ∧ c.regLocal q ≠ 0 then y q else z q) =
            fun q => if q ∈ l ∧ c.regLocal q ≠ 0 then y q else Function.update z r (y r) q := by
          funext q
          by_cases hq : q = r
          · subst hq
            rw [Function.update_self, if_pos ⟨List.mem_cons_self, h0⟩, ite_self]
          · rw [Function.update_of_ne hq]
            simp only [List.mem_cons, hq, false_or]
        rw [hz]
        exact hs

end

/-! ## Who takes over -/

section

variable {lay : TraceLayout} {cfg : TranslationConfig} {s : State} {arg : U32}

/-- Less is retired than was granted. -/
def TraceLayout.HasFuel (lay : TraceLayout) (mem : Memory) : Prop :=
  ∃ retired fuel : U64, mem.load64 lay.retiredAddr.toNat = some retired ∧ mem.load64 lay.fuelAddr.toNat = some fuel ∧ retired < fuel

/-- The dispatch line of an address holds it, verified under the current mapping. -/
def TraceLayout.LineHolds (lay : TraceLayout) (target : U64) (mem : Memory) : Prop :=
  mem.load64 (lay.line target).toNat = some target ∧
    mem.load32 ((lay.line target).toNat + 12) = mem.load32 lay.mapGenAddr.toNat

/-- The function that runs next is the one linked for the pc, or the router. -/
def TakesOver (lay : TraceLayout) (cfg : TranslationConfig) (pc : U64) (mem : Memory) (f : U32) : Prop :=
  (∃ member, cfg.link pc = some member ∧ f = cfg.directFuncBase + member ∧ lay.HasFuel mem ∧
    (cfg.validateDirectLink = true → lay.LineHolds pc mem)) ∨ cfg.fallback = .router f

/-- An exit goes on, returns, or hands over. -/
def Ends (lay : TraceLayout) (cfg : TranslationConfig) (arg : U32) (pc : U64) (s : State) (o : Flow) : Prop :=
  o = .next s ∨ o = .left (.returned s.mem) ∨ ∃ f, o = .left (.tailCalled f arg s.mem) ∧ TakesOver lay cfg pc s.mem f

theorem exec_routedExit (lay : TraceLayout) (cfg : TranslationConfig) (s : State) (ha : s.locals 0 = some (.i32 arg)) (pc : U64) :
    ∃ o, execAll (emitRoutedExit cfg) s = some o ∧ Ends lay cfg arg pc s o := by
  unfold emitRoutedExit
  cases hfb : cfg.fallback with
  | host => exact ⟨_, rfl, Or.inl rfl⟩
  | router idx =>
    refine ⟨_, ?_, Or.inr (Or.inr ⟨idx, rfl, Or.inr hfb⟩)⟩
    dsimp only
    rw [exec_localGet _ s (i := 0) ha]
    rfl

theorem load64_isSome (mem : Memory) (a : ℕ) (h : a + 8 ≤ mem.size) : ∃ v, mem.load64 a = some v := ⟨_, if_pos h⟩

theorem load32_isSome (mem : Memory) (a : ℕ) (h : a + 4 ≤ mem.size) : ∃ v, mem.load32 a = some v := ⟨_, if_pos h⟩

/-- The function takes over while there is fuel. -/
theorem exec_pageLink (hf : lay.Fits s.mem.size) (ha : s.locals 0 = some (.i32 arg)) (func : U32) :
    ∃ o, execAll (lay.emitPageLink func) s = some o ∧
      (o = .left (.returned s.mem) ∨ o = .left (.tailCalled func arg s.mem) ∧ lay.HasFuel s.mem) := by
  obtain ⟨k, hk⟩ := load64_isSome _ _ hf.retired
  obtain ⟨fuel, hfuel⟩ := load64_isSome _ _ hf.fuel
  rw [← toNat_addr] at hk hfuel
  unfold TraceLayout.emitPageLink TraceLayout.fuelCheck
  simp only [List.cons_append, List.nil_append, exec_i32Const]
  rw [exec_i64Load _ s hk, exec_i32Const, exec_i64Load _ (s.push (.i64 k)) hfuel, exec_cmp,
    CmpOp.eval_geU, exec_guard]
  by_cases h : k.ult fuel = true
  · rw [if_neg (not_not.2 h), exec_localGet _ s (i := 0) ha]
    rw [toNat_addr] at hk hfuel
    exact ⟨_, rfl, Or.inr ⟨rfl, k, fuel, hk, hfuel, BitVec.ult_iff_lt.1 h⟩⟩
  · rw [if_pos h]
    exact ⟨_, rfl, Or.inl rfl⟩

theorem toNat_line (lay : TraceLayout) (target : U64) :
    (lay.line target).toNat + 16 ≤ lay.dispatchBase.toNat + 16 * (lay.dispatchMask.toNat + 1) := by
  have h1 := lay.dispatchBase.isLt
  have h2 := lay.dispatchMask.isLt
  have h3 : (target >>> 1 &&& lay.dispatchMask.setWidth 64 : U64).toNat ≤ lay.dispatchMask.toNat := by
    rw [BitVec.toNat_and, Emits.toNat_widen]
    exact Nat.and_le_right
  unfold TraceLayout.line
  rw [BitVec.toNat_add, BitVec.toNat_shiftLeft, Emits.toNat_widen, Nat.shiftLeft_eq]
  omega

/-- The function takes over while its dispatch line is verified and there is fuel. -/
theorem exec_directLink (hf : lay.Fits s.mem.size) (ha : s.locals 0 = some (.i32 arg)) (target : U64) (func : U32) :
    ∃ o, execAll (lay.emitDirectLink target func) s = some o ∧
      (o = .left (.returned s.mem) ∨
        o = .left (.tailCalled func arg s.mem) ∧ lay.HasFuel s.mem ∧ lay.LineHolds target s.mem) := by
  have hl := toNat_line lay target
  have hlines := hf.lines
  obtain ⟨v, hv⟩ := load64_isSome s.mem (lay.line target).toNat (by omega)
  obtain ⟨gen, hgen⟩ := load32_isSome s.mem ((lay.line target).toNat + 12) (by omega)
  obtain ⟨now, hnow⟩ := load32_isSome _ _ hf.mapGen
  have hv' : s.mem.load64 ((0 : U32).toNat + (lay.line target).toNat) = some v := by rwa [toNat_offset]
  have h12 : (lay.line target + 12).toNat = (lay.line target).toNat + 12 := by
    have h1 := lay.dispatchBase.isLt
    have h2 := lay.dispatchMask.isLt
    rw [BitVec.toNat_add, show (12 : U64).toNat = 12 from rfl]
    omega
  have hgen' : s.mem.load32 ((0 : U32).toNat + (lay.line target + 12).toNat) = some gen := by
    rwa [h12, toNat_offset]
  have hnow' : s.mem.load32 ((0 : U32).toNat + (lay.mapGenAddr.setWidth 64 : U64).toNat) = some now := by rwa [toNat_addr]
  have hcode : lay.emitDirectLink target func =
      i32Const 0 :: i64Load (lay.line target) :: i64Const target :: cmp64 .ne :: ifThen [ret] :: i32Const 0 ::
        i32Load (lay.line target + 12) :: i32Const 0 :: i32Load (lay.mapGenAddr.setWidth 64) :: bin32 .ne :: ifThen [ret] ::
          lay.emitPageLink func := rfl
  rw [hcode, exec_i32Const, exec_i64Load _ s hv', exec_i64Const, exec_cmp, CmpOp.eval_ne, exec_guard]
  by_cases hne : v ≠ target
  · rw [if_pos hne]
    exact ⟨_, rfl, Or.inl rfl⟩
  · rw [if_neg hne, exec_i32Const, exec_i32Load _ s hgen', exec_i32Const, exec_i32Load _ (s.push (.i32 gen)) hnow', exec_bin32,
      Bin32Op.eval_ne, exec_guard]
    by_cases hne' : gen ≠ now
    · rw [if_pos hne']
      exact ⟨_, rfl, Or.inl rfl⟩
    · rw [if_neg hne']
      obtain ⟨o, ho, h⟩ := exec_pageLink (s := s) hf ha func
      refine ⟨o, ho, h.imp_right fun h => ⟨h.1, h.2, ?_, ?_⟩⟩
      · rw [hv, not_not.1 hne]
      · rw [hgen, hnow, not_not.1 hne']

/-- **An exit to a fixed target** goes on, returns, or hands over to the function of the target. -/
theorem exec_fixedExit (lay : TraceLayout) (cfg : TranslationConfig) (s : State) (hf : lay.Fits s.mem.size)
    (ha : s.locals 0 = some (.i32 arg)) (target : U64) :
    ∃ o, execAll (emitFixedExit lay cfg target) s = some o ∧ Ends lay cfg arg target s o := by
  unfold emitFixedExit
  cases hl : cfg.link target with
  | none => exact exec_routedExit lay cfg s ha target
  | some member =>
    dsimp only
    split_ifs with hv
    · obtain ⟨o, ho, h | ⟨rfl, hfuel, hline⟩⟩ := exec_directLink hf ha target (cfg.directFuncBase + member)
      · exact ⟨o, ho, Or.inr (Or.inl h)⟩
      · exact ⟨_, ho, Or.inr (Or.inr ⟨_, rfl, Or.inl ⟨member, hl, rfl, hfuel, fun _ => hline⟩⟩)⟩
    · obtain ⟨o, ho, h | ⟨rfl, hfuel⟩⟩ := exec_pageLink hf ha (cfg.directFuncBase + member)
      · exact ⟨o, ho, Or.inr (Or.inl h)⟩
      · exact ⟨_, ho, Or.inr (Or.inr ⟨_, rfl, Or.inl ⟨member, hl, rfl, hfuel, fun h => absurd h hv⟩⟩)⟩

end

/-! ## The registers along a trace -/

namespace Ctx

variable (c : Ctx) (wm : U32)

/-- The code has the register: in its local, if it is defined there, or in memory. -/
def Usable (r : Fin 32) : Prop := c.regLocal r = 0 ∨ c.defined.getLsbD r.val = true

/-- The exits write the register back. -/
def Flushed (r : Fin 32) : Prop := r ∈ maskRegs (wm &&& c.defined) ∧ c.regLocal r ≠ 0

/-- The state has the registers `x` where the code can use them, and all others are as at the start of the trace. -/
structure View (x₀ x : Fin 32 → U64) (s : State) : Prop where
  holds : ∃ y, c.Holds y s ∧ ∀ r, c.Usable r → y r = x r
  clean : ∀ r, ¬c.Flushed wm r → x r = x₀ r

variable {c wm} {x₀ x : Fin 32 → U64} {s : State}

/-- The local of a register takes its value. -/
theorem View.store (h : c.View wm x₀ x s) {d : Fin 32} (h0 : d ≠ 0) (hl : c.regLocal d ≠ 0) (hw : wm.getLsbD d.val = true)
    (v : U64) :
    ({ c with defined := c.defined ||| ((1 : U32) <<< d.val) } : Ctx).View wm x₀ (setReg x d v)
      (s.setLocal (c.regLocal d).toNat (.i64 v)) := by
  obtain ⟨⟨y, hy, hagree⟩, hclean⟩ := h
  have hset := hy.setCached h0 hl v
  unfold setReg at hset ⊢
  rw [if_neg h0] at hset ⊢
  refine ⟨⟨_, ⟨hset.zero, hset.cached, hset.inMemory, hset.scratch⟩, fun r hr => ?_⟩, fun r hr => ?_⟩
  · by_cases hrd : r = d
    · rw [hrd, Function.update_self, Function.update_self]
    · rw [Function.update_of_ne hrd, Function.update_of_ne hrd]
      refine hagree r (hr.imp_right fun hdef => ?_)
      rw [getLsbD_set] at hdef
      simpa [hrd] using hdef
  · have hrd : r ≠ d := by
      rintro rfl
      refine hr ⟨mem_maskRegs.2 ?_, hl⟩
      rw [BitVec.getLsbD_and, hw, getLsbD_set]
      simp
    rw [Function.update_of_ne hrd]
    refine hclean r fun hf => hr ⟨mem_maskRegs.2 ?_, hf.2⟩
    have hbit := mem_maskRegs.1 hf.1
    rw [BitVec.getLsbD_and] at hbit ⊢
    rw [getLsbD_set]
    simp_all

/-- **An assignment** gives its register the value, as far as the code can use it and the exits write it back. -/
theorem View.assign (h : c.View wm x₀ x s) {d : Fin 32} (hd : d ≠ 0 → c.regLocal d ≠ 0 ∧ wm.getLsbD d.val = true) {code : List Code}
    {v : U64} (hv : ∀ y, (∀ r, c.Usable r → y r = x r) → c.Yields y code v) :
    ∃ t, execAll (c.assign d code).2 s = some (.next t) ∧ (c.assign d code).1.View wm x₀ (setReg x d v) t ∧ t.stack = s.stack ∧
      t.mem = s.mem ∧ t.locals 0 = s.locals 0 := by
  unfold Ctx.assign
  by_cases h0 : d = 0
  · rw [if_pos h0]
    unfold setReg
    rw [if_pos h0]
    exact ⟨s, rfl, h, rfl, rfl, rfl⟩
  · obtain ⟨hl, hw⟩ := hd h0
    obtain ⟨⟨y, hy, hagree⟩, hclean⟩ := h
    obtain ⟨t, ht, hty, hstack, hmem, hlocal⟩ := hv y hagree s hy
    have habove := (c.above d).resolve_left hl
    have hview : c.View wm x₀ x t := ⟨⟨y, hty, hagree⟩, hclean⟩
    rw [if_neg h0, if_neg hl, if_pos hl, List.nil_append]
    refine ⟨_, (ht _).trans (exec_localSet [] t (hty.cached d hl)), hview.store h0 hl hw v, hstack, hmem, ?_⟩
    change (if 0 = _ then _ else t.locals 0) = s.locals 0
    rw [if_neg (by omega), hlocal]

/-- The assignment of a constant leaves the other locals alone. -/
theorem View.link (h : c.View wm x₀ x s) {d : Fin 32} (hd : d ≠ 0 → c.regLocal d ≠ 0 ∧ wm.getLsbD d.val = true) (v : U64) :
    ∃ t, execAll (c.assign d [i64Const v]).2 s = some (.next t) ∧ (c.assign d [i64Const v]).1.View wm x₀ (setReg x d v) t ∧
      t.stack = s.stack ∧ t.mem = s.mem ∧ ∀ i ≤ 10, t.locals i = s.locals i := by
  unfold Ctx.assign
  by_cases h0 : d = 0
  · rw [if_pos h0]
    unfold setReg
    rw [if_pos h0]
    exact ⟨s, rfl, h, rfl, rfl, fun _ _ => rfl⟩
  · obtain ⟨hl, hw⟩ := hd h0
    have habove := (c.above d).resolve_left hl
    have hstore := h.store h0 hl hw v
    obtain ⟨⟨y, hy, -⟩, -⟩ := h
    rw [if_neg h0, if_neg hl, if_pos hl]
    refine ⟨_, exec_localSet [] s (hy.cached d hl), hstore, rfl, rfl, fun i hi => ?_⟩
    exact if_neg (by omega)

end Ctx

/-! ## Publishing -/

/-- A memory that a trace has made of another one, with what it shows. -/
structure Shown (lay : TraceLayout) (mem₀ : Memory) (x : Fin 32 → U64) (pc retired : U64) (mem : Memory) : Prop where
  shows : lay.Shows x pc retired mem
  keeps : lay.Keeps mem₀ mem
  fits : lay.Fits mem.size

namespace Shown

variable {lay : TraceLayout} {mem₀ mem : Memory} {x x₀ : Fin 32 → U64} {pc retired : U64} {s : State}

theorem setPc (h : Shown lay mem₀ x pc retired s.mem) (v : U64) :
    ∃ mem, execAll (lay.setPcConst v) s = some (.next { s with mem }) ∧ Shown lay mem₀ x v retired mem := by
  obtain ⟨hs, hk⟩ := h.shows.putPc h.fits v
  have he := exec_setPcConst h.fits v []
  rw [List.append_nil] at he
  exact ⟨_, he, hs, h.keeps.trans hk, h.fits⟩

theorem setRetired (h : Shown lay mem₀ x pc retired s.mem) (n : ℕ) :
    ∃ mem, execAll (lay.setRetired n) s = some (.next { s with mem }) ∧ Shown lay mem₀ x pc (retired + BitVec.ofNat 64 n) mem := by
  obtain ⟨hs, hk⟩ := h.shows.putRetired h.fits (retired + BitVec.ofNat 64 n)
  have he := exec_setRetired h.fits h.shows.retired n []
  rw [List.append_nil] at he
  exact ⟨_, he, hs, h.keeps.trans hk, h.fits⟩

/-- The target of an indirect jump is published from its local. -/
theorem setTarget (h : Shown lay mem₀ x pc retired s.mem) {v : U64} (hv : s.locals scr.toNat = some (.i64 v)) :
    ∃ mem, execAll [i32Const 0, localGet scr, i64Store (lay.pcAddr.setWidth 64)] s = some (.next { s with mem }) ∧
      Shown lay mem₀ x v retired mem := by
  obtain ⟨hs, hk⟩ := h.shows.putPc h.fits v
  refine ⟨_, ?_, hs, h.keeps.trans hk, h.fits⟩
  rw [exec_i32Const, exec_localGet _ (s.push (.i32 0)) hv, exec_i64Store _ s (by
    rw [toNat_addr]
    exact h.fits.pc), toNat_addr]
  rfl

/-- The written registers go back. -/
theorem flush (h : Shown lay mem₀ x₀ pc retired s.mem) {c : Ctx} {wm : U32} (hc : c.xBase = lay.xBase) {t : State}
    (ht : c.View wm x₀ x t) (hst : s.locals = t.locals) :
    ∃ mem, execAll (c.flushWrites wm) s = some (.next { s with mem }) ∧ Shown lay mem₀ x pc retired mem := by
  obtain ⟨⟨y, hy, hagree⟩, hclean⟩ := ht
  have hl : ∀ r, c.regLocal r ≠ 0 → s.locals (c.regLocal r).toNat = some (.i64 (y r)) := fun r hr => by
    rw [hst]
    exact hy.cached r hr
  obtain ⟨mem, he, hs, hk⟩ := exec_flush hc hl (maskRegs (wm &&& c.defined)) h.shows h.fits
  have hx : (fun r => if r ∈ maskRegs (wm &&& c.defined) ∧ c.regLocal r ≠ 0 then y r else x₀ r) = x := by
    funext r
    split_ifs with hr
    · refine hagree r (Or.inr ?_)
      have hbit := mem_maskRegs.1 hr.1
      rw [BitVec.getLsbD_and, Bool.and_eq_true] at hbit
      exact hbit.2
    · exact (hclean r hr).symm
  rw [hx] at hs
  have he' := he []
  rw [List.append_nil] at he'
  exact ⟨mem, he', hs, h.keeps.trans hk, hk.size ▸ h.fits⟩

end Shown

section

variable {lay : TraceLayout} {cfg : TranslationConfig} {arg : U32} {pc : U64} {s u : State} {o : Flow}

/-- How the function may be left when the memory shows a hart at this pc. -/
def ExitsTo (lay : TraceLayout) (cfg : TranslationConfig) (arg : U32) (pc : U64) (mem : Memory) (e : Exit) : Prop :=
  e = .returned mem ∨ ∃ f, e = .tailCalled f arg mem ∧ TakesOver lay cfg pc mem f

/-- The end of a function closes an exit. -/
theorem Ends.close (h : Ends lay cfg arg pc s o) (hs : s.stack = []) :
    ∃ e, o.close = some e ∧ ExitsTo lay cfg arg pc s.mem e := by
  obtain rfl | rfl | ⟨f, rfl, hf⟩ := h
  · exact ⟨_, if_pos hs, Or.inl rfl⟩
  · exact ⟨_, rfl, Or.inl rfl⟩
  · exact ⟨_, rfl, Or.inr ⟨f, rfl, hf⟩⟩

/-- An exit may be the last thing in a conditional. -/
theorem Ends.arm (h : Ends lay cfg arg pc s o) (hs : s.stack = []) :
    (o.leave []).bind (Flow.andThen (execAll [])) = some o := by
  have hs' : { s with stack := [] } = s := by rw [← hs]
  obtain rfl | rfl | ⟨f, rfl, -⟩ := h
  · rw [Flow.leave, if_pos hs, hs']
    rfl
  · rfl
  · rfl

/-- A return closes an exit. -/
theorem Ends.ret {code : List Code} (h : Ends lay cfg arg pc s o)
    (ho : execAll code u = some o) : ∃ e, execAll (code ++ [.ret]) u = some (.left e) ∧ ExitsTo lay cfg arg pc s.mem e := by
  obtain rfl | rfl | ⟨f, rfl, hf⟩ := h
  · rw [execAll_next ho]
    exact ⟨_, rfl, Or.inl rfl⟩
  · exact ⟨_, execAll_left ho _, Or.inl rfl⟩
  · exact ⟨_, execAll_left ho _, Or.inr ⟨f, rfl, hf⟩⟩

end

section

variable {lay : TraceLayout} (cfg : TranslationConfig) {wm arg : U32} {c : Ctx} {mem₀ : Memory} {x x₀ : Fin 32 → U64}
  {pc retired : U64} {s : State} (hc : c.xBase = lay.xBase) (hv : c.View wm x₀ x s) (ha : s.locals 0 = some (.i32 arg))
  (hm : Shown lay mem₀ x₀ pc retired s.mem)
include hc hv ha hm

/-- The registers, then the pc, then the count. -/
theorem leave_fixed (target : U64) (n : ℕ) :
    ∃ mem o, execAll (c.flushWrites wm ++ lay.setPcConst target ++ lay.setRetired n ++ emitFixedExit lay cfg target) s = some o ∧
      Shown lay mem₀ x target (retired + BitVec.ofNat 64 n) mem ∧ Ends lay cfg arg target { s with mem } o := by
  obtain ⟨mem₁, he₁, h₁⟩ := hm.flush hc hv rfl
  obtain ⟨mem₂, he₂, h₂⟩ := Shown.setPc (s := { s with mem := mem₁ }) h₁ target
  obtain ⟨mem₃, he₃, h₃⟩ := Shown.setRetired (s := { s with mem := mem₂ }) h₂ n
  obtain ⟨o, ho, hends⟩ := exec_fixedExit lay cfg { s with mem := mem₃ } h₃.fits ha target
  refine ⟨mem₃, o, ?_, h₃, hends⟩
  rw [List.append_assoc, List.append_assoc, execAll_next he₁, execAll_next he₂, execAll_next he₃]
  exact ho

/-- The pc, then the registers, then the count. -/
theorem leave_side (target : U64) (n : ℕ) :
    ∃ mem o, execAll (lay.setPcConst target ++ c.flushWrites wm ++ lay.setRetired n ++ emitFixedExit lay cfg target) s = some o ∧
      Shown lay mem₀ x target (retired + BitVec.ofNat 64 n) mem ∧ Ends lay cfg arg target { s with mem } o := by
  obtain ⟨mem₁, he₁, h₁⟩ := hm.setPc target
  obtain ⟨mem₂, he₂, h₂⟩ := Shown.flush (s := { s with mem := mem₁ }) h₁ hc hv rfl
  obtain ⟨mem₃, he₃, h₃⟩ := Shown.setRetired (s := { s with mem := mem₂ }) h₂ n
  obtain ⟨o, ho, hends⟩ := exec_fixedExit lay cfg { s with mem := mem₃ } h₃.fits ha target
  refine ⟨mem₃, o, ?_, h₃, hends⟩
  rw [List.append_assoc, List.append_assoc, execAll_next he₁, execAll_next he₂, execAll_next he₃]
  exact ho

/-- The target of an indirect jump, then the registers, then the count. -/
theorem leave_target {target : U64} (ht : s.locals scr.toNat = some (.i64 target)) (n : ℕ) :
    ∃ mem o, execAll (leaveAtTarget lay cfg wm c n) s = some o ∧
      Shown lay mem₀ x target (retired + BitVec.ofNat 64 (n + 1)) mem ∧ Ends lay cfg arg target { s with mem } o := by
  obtain ⟨mem₁, he₁, h₁⟩ := hm.setTarget ht
  obtain ⟨mem₂, he₂, h₂⟩ := Shown.flush (s := { s with mem := mem₁ }) h₁ hc hv rfl
  obtain ⟨mem₃, he₃, h₃⟩ := Shown.setRetired (s := { s with mem := mem₂ }) h₂ (n + 1)
  obtain ⟨o, ho, hends⟩ := exec_routedExit lay cfg { s with mem := mem₃ } ha target
  refine ⟨mem₃, o, ?_, h₃, hends⟩
  unfold leaveAtTarget
  rw [List.append_assoc, List.append_assoc, execAll_next he₁, execAll_next he₂, execAll_next he₃]
  exact ho

/-- The registers, then the count, then the pc that the condition selects, each with its own exit. -/
theorem leave_arms (hs : s.stack = []) (p : Prop) [Decidable p] (target other : U64) (n : ℕ) :
    ∃ mem o, execAll (c.flushWrites wm ++ lay.setRetired n ++
        [ifElse (lay.setPcConst target ++ emitFixedExit lay cfg target) (lay.setPcConst other ++ emitFixedExit lay cfg other)])
          (s.push (.i32 (truth p))) = some o ∧
      Shown lay mem₀ x (if p then target else other) (retired + BitVec.ofNat 64 n) mem ∧
        Ends lay cfg arg (if p then target else other) { s with mem } o := by
  obtain ⟨mem₁, he₁, h₁⟩ := Shown.flush (s := s.push (.i32 (truth p))) hm hc hv rfl
  obtain ⟨mem₂, he₂, h₂⟩ := Shown.setRetired (s := { s.push (.i32 (truth p)) with mem := mem₁ }) h₁ n
  obtain ⟨mem₃, he₃, h₃⟩ := Shown.setPc (s := { s with mem := mem₂ }) h₂ (if p then target else other)
  obtain ⟨o, ho, hends⟩ := exec_fixedExit lay cfg { s with mem := mem₃ } h₃.fits ha (if p then target else other)
  have harm : execAll (if p then lay.setPcConst target ++ emitFixedExit lay cfg target
      else lay.setPcConst other ++ emitFixedExit lay cfg other) { s with mem := mem₂, stack := [] } = some o := by
    rw [← apply_ite fun pc => lay.setPcConst pc ++ emitFixedExit lay cfg pc, ← hs, execAll_next he₃]
    exact ho
  refine ⟨mem₃, o, ?_, h₃, hends⟩
  rw [List.append_assoc, execAll_next he₁, execAll_next he₂]
  refine (exec_arm [] { s with mem := mem₂ } harm).trans ?_
  dsimp only
  rw [hs]
  exact hends.arm hs

/-- The pc that the condition selects, then the registers, then the count. -/
theorem leave_branch (p : Prop) [Decidable p] (target other : U64) (n : ℕ) :
    ∃ mem o, execAll (ifElse (lay.setPcConst target) (lay.setPcConst other) ::
        (c.flushWrites wm ++ lay.setRetired n ++ emitRoutedExit cfg)) (s.push (.i32 (truth p))) = some o ∧
      Shown lay mem₀ x (if p then target else other) (retired + BitVec.ofNat 64 n) mem ∧
        Ends lay cfg arg (if p then target else other) { s with mem } o := by
  obtain ⟨mem₁, he₁, h₁⟩ := Shown.setPc (s := { s with stack := [] }) hm (if p then target else other)
  obtain ⟨mem₂, he₂, h₂⟩ := Shown.flush (s := { s with mem := mem₁ }) h₁ hc hv rfl
  obtain ⟨mem₃, he₃, h₃⟩ := Shown.setRetired (s := { s with mem := mem₂ }) h₂ n
  obtain ⟨o, ho, hends⟩ := exec_routedExit lay cfg { s with mem := mem₃ } ha (if p then target else other)
  have harm : execAll (if p then lay.setPcConst target else lay.setPcConst other) { s with stack := [] } =
      some (.next { s with stack := [], mem := mem₁ }) := by
    rw [← apply_ite lay.setPcConst]
    exact he₁
  refine ⟨mem₃, o, (exec_arm _ s harm).trans ?_, h₃, hends⟩
  rw [Flow.leave, if_pos rfl, List.append_assoc]
  exact (execAll_next he₂ _).trans ((execAll_next he₃ _).trans ho)

/-- A guard lets the trace go on at its target, and leaves it at any other. -/
theorem exec_targetGuard (hs : s.stack = []) {target : U64} (ht : s.locals scr.toNat = some (.i64 target)) (n : ℕ) (t : U64) :
    target = t ∧ execAll (targetGuard lay cfg wm c n t) s = some (.next s) ∨
      ∃ mem e, execAll (targetGuard lay cfg wm c n t) s = some (.left e) ∧
        Shown lay mem₀ x target (retired + BitVec.ofNat 64 (n + 1)) mem ∧ ExitsTo lay cfg arg target mem e := by
  unfold targetGuard
  rw [exec_localGet _ s ht, exec_i64Const, exec_cmp, CmpOp.eval_ne]
  by_cases h : target = t
  · rw [exec_pass _ s (not_not.2 h)]
    exact Or.inl ⟨h, rfl⟩
  · obtain ⟨mem, o, ho, hshown, hends⟩ := leave_target cfg hc hv ha hm ht n
    obtain ⟨e, he, hexit⟩ := hends.ret ho
    have hs' : { s with stack := [] } = s := by rw [← hs]
    refine Or.inr ⟨mem, e, exec_side _ s h ?_, hshown, hexit⟩
    rw [hs']
    exact he

end

/-! ## Computing a target -/

namespace Ctx

variable {c : Ctx} {wm : U32} {x₀ x : Fin 32 → U64} {s : State}

theorem View.setScratch (h : c.View wm x₀ x s) {i : ℕ} (hi : i ≤ 10) (v : U64) : c.View wm x₀ x (s.setLocal i (.i64 v)) := by
  obtain ⟨⟨y, hy, hagree⟩, hclean⟩ := h
  exact ⟨⟨y, hy.setScratch hi v, hagree⟩, hclean⟩

/-- The comparison of a branch. -/
theorem View.exec_compare (h : c.View wm x₀ x s) {r r' : Fin 32} (hr : c.Usable r) (hr' : c.Usable r') (op : CmpOp)
    (cs : List Code) :
    execAll (c.pushRegCode r ++ c.pushRegCode r' ++ [cmp64 op] ++ cs) s = execAll cs (s.push (.i32 (op.eval (x r) (x r')))) := by
  obtain ⟨⟨y, hy, hagree⟩, -⟩ := h
  rw [List.append_assoc, List.append_assoc, pushes_reg r _ s hy, pushes_reg r' _ _ (hy.push _), hagree r hr, hagree r' hr']
  exact exec_cmp cs s _ _ op

/-- The target of an indirect jump. -/
theorem View.exec_target (h : c.View wm x₀ x s) {insn : U32} (hu : c.Usable (rs1 insn)) :
    ∃ t, execAll (emitTarget c insn) s = some (.next t) ∧ c.View wm x₀ x t ∧ t.stack = s.stack ∧ t.mem = s.mem ∧
      t.locals 0 = s.locals 0 ∧ t.locals scr.toNat = some (.i64 ((x (rs1 insn) + immI insn) &&& ~~~1)) := by
  have hview := h
  obtain ⟨⟨y, hy, hagree⟩, -⟩ := h
  obtain ⟨w, hw⟩ := hy.scratch scr.toNat (by decide) (by decide)
  refine ⟨s.setLocal scr.toNat (.i64 ((x (rs1 insn) + immI insn) &&& ~~~1)), ?_, hview.setScratch (by decide) _, rfl, rfl, rfl, ?_⟩
  · unfold emitTarget
    rw [pushes_reg (rs1 insn) _ s hy, hagree _ hu, exec_i64Const, exec_bin, exec_i64Const, exec_bin, exec_localSet _ s hw]
    rfl
  · rfl

end Ctx

end Lish
