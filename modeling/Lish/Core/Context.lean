import Lish.Core.Control
import Lish.Core.Tlb
/-!
# Context — the cell of the live permission context

Compiled code forms its tags from a cell of the hart.  The cell holds the permission context, whatever the hart does.
-/
namespace Lish
namespace Cpu

/-- The cell compiled code reads holds the permission context. -/
def Synced (c : Cpu) : Prop := c.jitTlbContextTag = c.translationContext <<< TLB_CONTEXT_SHIFT

/-! ## The cell -/

theorem vpnMask_bit (i : ℕ) : TLB_VPN_MASK.getLsbD i = decide (i < 52) := by
  by_cases hi : i < 64
  · revert i
    decide
  · rw [BitVec.getLsbD_of_ge _ _ (not_lt.1 hi), decide_eq_false (by omega)]

theorem generationMask_bit (i : ℕ) : MAP_GENERATION_MASK.getLsbD i = decide (i < 32) := by
  by_cases hi : i < 64
  · revert i
    decide
  · rw [BitVec.getLsbD_of_ge _ _ (not_lt.1 hi), decide_eq_false (by omega)]

theorem synced_refresh (c : Cpu) : Synced c.refreshJitTlbContext := by
  have hctx : c.refreshJitTlbContext.translationContext = c.translationContext := rfl
  unfold Synced
  rw [hctx]
  unfold jitTlbContextTag refreshJitTlbContext TLB_CONTEXT_SHIFT TLB_VPN_BITS
  apply BitVec.eq_of_getLsbD_eq
  intro i hi
  simp only [BitVec.getLsbD_and, BitVec.getLsbD_or, BitVec.getLsbD_not, BitVec.getLsbD_shiftLeft, vpnMask_bit, generationMask_bit]
  by_cases h : i < 52
  · simp [h]
  · simp [h, hi, show ¬ i < 32 by omega]

theorem tag_bump (c : Cpu) : c.bumpMapGeneration.jitTlbContextTag = c.jitTlbContextTag := by
  unfold jitTlbContextTag bumpMapGeneration
  apply BitVec.eq_of_getLsbD_eq
  intro i hi
  simp only [BitVec.getLsbD_and, BitVec.getLsbD_or, BitVec.getLsbD_not, vpnMask_bit, generationMask_bit]
  by_cases h : i < 52
  · simp [h]
  · simp [h, show ¬ i < 32 by omega, hi]

/-- Compiled code forms the tag the hart forms. -/
theorem Synced.tag {c : Cpu} (h : Synced c) (va : U64) : ((va >>> 12) &&& TLB_VPN_MASK) ||| c.jitTlbContextTag = c.translationTag va := by
  rw [h]
  rfl

/-! ## What the context depends on -/

/-- The status bits the context depends on. -/
def contextBits : U64 := MSTATUS_MPRV ||| MSTATUS_MPP ||| MSTATUS_SUM ||| MSTATUS_MXR

/-- The context is the same, and so is the cell. -/
structure SameContext (c c' : Cpu) : Prop where
  cell : c'.jitTlbContextTag = c.jitTlbContextTag
  sys : c'.sys.map (fun s => (s.mode, s.mstatus &&& contextBits)) = c.sys.map fun s => (s.mode, s.mstatus &&& contextBits)

theorem contextBits_and {x y : U64} (h : x &&& contextBits = y &&& contextBits) {b : U64} (hb : contextBits &&& b = b) :
    x &&& b = y &&& b := by
  rw [← hb, ← BitVec.and_assoc, h, BitVec.and_assoc]

theorem SameContext.context {c c' : Cpu} (h : SameContext c c') : c'.translationContext = c.translationContext := by
  have hs := h.sys
  unfold translationContext
  cases hc : c.sys with
  | none =>
    rw [hc] at hs
    rw [Option.map_eq_none_iff.1 hs]
  | some s =>
    rw [hc] at hs
    obtain ⟨s', hs', he⟩ := Option.map_eq_some_iff.1 hs
    obtain ⟨hm, hb⟩ := Prod.mk.inj he
    rw [hs']
    dsimp only
    unfold dataMode
    rw [hm, contextBits_and hb (b := MSTATUS_SUM) (by decide), contextBits_and hb (b := MSTATUS_MXR) (by decide),
      contextBits_and hb (b := MSTATUS_MPRV) (by decide), contextBits_and hb (b := MSTATUS_MPP) (by decide)]

theorem SameContext.synced {c c' : Cpu} (h : SameContext c c') (hc : Synced c) : Synced c' := by
  unfold Synced
  rw [h.cell, h.context]
  exact hc

theorem SameContext.of_eq {c c' : Cpu} (hg : c'.mapGen = c.mapGen) (hs : c'.sys = c.sys) : SameContext c c' :=
  ⟨by unfold jitTlbContextTag; rw [hg], by rw [hs]⟩

theorem synced_modifySys {c : Cpu} (h : Synced c) {g : SysCsrs → SysCsrs}
    (hg : ∀ s, ((g s).mode, (g s).mstatus &&& contextBits) = (s.mode, s.mstatus &&& contextBits)) : Synced (c.modifySys g) := by
  refine SameContext.synced (c := c) ⟨rfl, ?_⟩ h
  unfold modifySys
  cases c.sys with
  | none => rfl
  | some s => exact congrArg some (hg s)

theorem synced_putSys {c : Cpu} (h : Synced c) {g : SysCsrs → SysCsrs}
    (hg : ∀ s, ((g s).mode, (g s).mstatus &&& contextBits) = (s.mode, s.mstatus &&& contextBits)) : Synced (c.putSys g).1 := by
  unfold putSys
  cases hs : c.sys with
  | none => exact h
  | some s => exact SameContext.synced (c := c) ⟨rfl, by rw [hs]; exact congrArg some (hg s)⟩ h

/-! ## Every operation keeps the cell -/

theorem synced_bump {c : Cpu} (h : Synced c) : Synced c.bumpMapGeneration :=
  SameContext.synced (c := c) ⟨tag_bump c, rfl⟩ h

theorem synced_takeTrap {c : Cpu} (h : Synced c) (cause tval : U64) (isInterrupt : Bool) : Synced (c.takeTrap cause tval isInterrupt) := by
  have hcount : SameContext c ({ c with irqPollCd := 0, reservation := none }.countTrap cause isInterrupt) := by
    unfold countTrap
    cases isInterrupt <;> cases cause == 8 <;> exact .of_eq rfl rfl
  unfold takeTrap
  dsimp only
  generalize countTrap _ cause isInterrupt = c' at hcount ⊢
  cases c'.sys with
  | none => exact hcount.synced h
  | some s => exact synced_refresh _

theorem synced_putStatus {c : Cpu} (h : Synced c) (writable v : U64) : Synced (c.putStatus writable v).1 := by
  unfold putStatus putSys
  cases c.sys with
  | none => exact h
  | some s => exact synced_refresh _

theorem synced_writeSatp {c : Cpu} (h : Synced c) {s : SysCsrs} (hs : c.sys = some s) (v : U64) : Synced (c.writeSatp s v) := by
  have hflush : Synced { c with sys := some { s with satp := v } }.flushTlb :=
    SameContext.synced (c := c) ⟨rfl, by rw [hs]; rfl⟩ h
  unfold writeSatp
  dsimp only
  generalize { c with sys := some { s with satp := v } }.flushTlb = c' at hflush ⊢
  split_ifs
  · refine synced_bump ?_
    exact SameContext.synced (c := c') (.of_eq rfl rfl) hflush
  · exact hflush
  · exact h

theorem synced_csrPut {c : Cpu} (h : Synced c) (csr : ℕ) (v : U64) : Synced (c.csrPut csr v).1 := by
  unfold csrPut
  split
  all_goals first
    | with_reducible exact h
    | with_reducible exact synced_putStatus h _ v
    | (with_reducible refine synced_putSys h fun _ => ?_); rfl
    | (with_reducible refine synced_modifySys h fun _ => ?_); rfl
    | with_reducible exact SameContext.synced (c := c) (.of_eq rfl rfl) h
    | skip
  · unfold putSatp
    cases hs : c.sys with
    | none => exact h
    | some s =>
      dsimp only
      split_ifs
      · exact h
      · exact synced_writeSatp h hs v
  · split_ifs
    · exact synced_putSys h fun _ => rfl
    · exact synced_putSys h fun _ => rfl
    · exact h

/-- **A CSR write** keeps the cell. -/
theorem synced_csrWrite {c : Cpu} (h : Synced c) (csr : ℕ) (v : U64) : Synced (c.csrWrite csr v).1 := by
  have h' : Synced { c with irqPollCd := 0 } := SameContext.synced (c := c) (.of_eq rfl rfl) h
  unfold csrWrite
  dsimp only
  split_ifs
  · exact h'
  · exact h'
  · exact synced_csrPut h' csr v

/-- **A register operation** keeps the cell. -/
theorem synced_apply {c : Cpu} (h : Synced c) (u : CpuOp) : Synced (u.apply c) := by
  cases u with
  | wr rd v =>
    unfold CpuOp.apply wr
    dsimp only
    split_ifs
    · exact SameContext.synced (c := c) (.of_eq rfl rfl) h
    · exact h
  | fpDirty =>
    refine synced_modifySys h fun s => Prod.ext rfl ?_
    dsimp only
    rw [BitVec.and_comm, BitVec.and_or_distrib_left, show contextBits &&& MSTATUS_FS = 0#64 by decide, BitVec.or_zero, BitVec.and_comm]
  | latch lines => exact synced_modifySys h fun _ => rfl
  | trap cause tval isInterrupt => exact synced_takeTrap h cause tval isInterrupt
  | mret =>
    change Synced c.mret
    unfold mret
    exact synced_refresh _
  | sret =>
    change Synced c.sret
    unfold sret
    exact synced_refresh _
  | bumpMapGeneration => exact synced_bump h
  | _ => exact SameContext.synced (c := c) (.of_eq rfl rfl) h

end Cpu
namespace Machine

variable {β : Type} [Bus β]

theorem TlbOnly.synced {c c' : Cpu} (h : TlbOnly c c') (hc : c.Synced) : c'.Synced := by
  unfold TlbOnly at h
  have hg := congrArg Cpu.mapGen h
  have hs := congrArg Cpu.sys h
  exact Cpu.SameContext.synced (c := c) (.of_eq hg hs) hc

/-- **Every operation** keeps the cell. -/
theorem synced_exec (m : Machine β) (o : HartOp) (h : m.cpu.Synced) : (exec o m).2.cpu.Synced := by
  cases o with
  | get => exact h
  | cpu u => exact Cpu.synced_apply h u
  | csrWrite insn csr v => exact Cpu.synced_csrWrite h csr v
  | translate va access => exact (translate_frame busRel_true.paged m va access).2.synced h
  | translateFill va store => exact (translateFill_frame busRel_true.paged m va store).2.synced h
  | _ => exact h

end Machine
end Lish
