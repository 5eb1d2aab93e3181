import Lish.Core.Arms
/-!
# Confine — what supervisor mode cannot reach

A step in supervisor mode leaves the machine-level state: the CSRs of machine mode, the fields of mstatus that sstatus does not
show, and the interrupt bits that are not delegated.  A trap to machine mode changes it, and SRET clears MPRV.
-/
namespace Lish

open Program Machine

/-! ## Masks -/

section masks

variable {x v w k : U64}

/-- A write through a mask keeps what the mask leaves out. -/
theorem masked_write (x v : U64) (h : w &&& ~~~k = 0) : ((x &&& ~~~w) ||| (v &&& w)) &&& ~~~k = x &&& ~~~k := by
  apply BitVec.eq_of_getLsbD_eq
  intro i hi
  have hb := congrArg (fun y : U64 => y.getLsbD i) h
  simp only [BitVec.getLsbD_and, BitVec.getLsbD_or, BitVec.getLsbD_not, hi, decide_true, Bool.true_and] at hb ⊢
  rw [show (0 : U64) = 0#64 from rfl, BitVec.getLsbD_zero] at hb
  cases hw : w.getLsbD i <;> cases hk : k.getLsbD i <;> rw [hw, hk] at hb <;> simp at hb ⊢

theorem masked_clear (x : U64) (h : w &&& ~~~k = 0) : (x &&& ~~~w) &&& ~~~k = x &&& ~~~k := by
  have hm := masked_write x 0 h
  rwa [show (0 : U64) = 0#64 from rfl, BitVec.zero_and, BitVec.or_zero] at hm

theorem masked_or (x : U64) (h : w &&& ~~~k = 0) : (x ||| w) &&& ~~~k = x &&& ~~~k := by
  rw [BitVec.and_comm, BitVec.and_or_distrib_left, BitVec.and_comm _ w, h, show (0 : U64) = 0#64 from rfl, BitVec.or_zero,
    BitVec.and_comm]

/-- One bit, moved, lies in a mask that holds its place. -/
theorem masked_bit (x : U64) (n : ℕ) (h : (1 : U64) <<< n &&& ~~~k = 0) : ((x &&& 1) <<< n) &&& ~~~k = 0 := by
  rw [BitVec.shiftLeft_and_distrib, BitVec.and_assoc, h, show (0 : U64) = 0#64 from rfl, BitVec.and_zero]

end masks

/-! ## The machine-level state -/

/-- The machine-level state is the same, of mstatus what lies outside a mask. -/
structure SameLevel (mask : U64) (s s' : SysCsrs) : Prop where
  mtvec : s'.mtvec = s.mtvec
  mepc : s'.mepc = s.mepc
  mcause : s'.mcause = s.mcause
  mtval : s'.mtval = s.mtval
  mscratch : s'.mscratch = s.mscratch
  medeleg : s'.medeleg = s.medeleg
  mideleg : s'.mideleg = s.mideleg
  mcounteren : s'.mcounteren = s.mcounteren
  mhartid : s'.mhartid = s.mhartid
  pmpcfg : s'.pmpcfg = s.pmpcfg
  pmpaddr : s'.pmpaddr = s.pmpaddr
  counter : s'.minstretOff = s.minstretOff
  status : s'.mstatus &&& ~~~mask = s.mstatus &&& ~~~mask
  mie : s'.mie &&& ~~~s.mideleg = s.mie &&& ~~~s.mideleg
  mip : s'.mip &&& ~~~(IRQ_SSIP &&& s.mideleg) = s.mip &&& ~~~(IRQ_SSIP &&& s.mideleg)

namespace SameLevel

variable {mask : U64} {s s' s'' : SysCsrs}

theorem refl (mask : U64) (s : SysCsrs) : SameLevel mask s s := by constructor <;> rfl

theorem trans (h : SameLevel mask s s') (h' : SameLevel mask s' s'') : SameLevel mask s s'' where
  mtvec := h'.mtvec.trans h.mtvec
  mepc := h'.mepc.trans h.mepc
  mcause := h'.mcause.trans h.mcause
  mtval := h'.mtval.trans h.mtval
  mscratch := h'.mscratch.trans h.mscratch
  medeleg := h'.medeleg.trans h.medeleg
  mideleg := h'.mideleg.trans h.mideleg
  mcounteren := h'.mcounteren.trans h.mcounteren
  mhartid := h'.mhartid.trans h.mhartid
  pmpcfg := h'.pmpcfg.trans h.pmpcfg
  pmpaddr := h'.pmpaddr.trans h.pmpaddr
  counter := h'.counter.trans h.counter
  status := h'.status.trans h.status
  mie := by
    have hm := h'.mie
    rw [h.mideleg] at hm
    exact hm.trans h.mie
  mip := by
    have hm := h'.mip
    rw [h.mideleg] at hm
    exact hm.trans h.mip

/-- A change of mstatus within the mask. -/
theorem status_only (h : v &&& ~~~mask = s.mstatus &&& ~~~mask) (mode : Mode) : SameLevel mask s { s with mstatus := v, mode := mode } := by
  constructor <;> first | rfl | exact h

end SameLevel

/-- Operations that supervisor mode may perform, traps and returns apart. -/
def HartOp.Supervised : HartOp → Prop
  | .cpu (.trap _ _ _) | .cpu .mret | .cpu .sret | .cpu (.latch _) => False
  | _ => True

namespace Cpu

variable {c : Cpu} {s : SysCsrs} {csr : ℕ} {v : U64}

/-- In supervisor mode, with the machine-level state of another. -/
def Contained (s : SysCsrs) (c : Cpu) : Prop := ∃ s', c.sys = some s' ∧ s'.mode = .supervisor ∧ SameLevel SSTATUS_MASK s s'

theorem contained_self (hs : c.sys = some s) (hm : s.mode = .supervisor) : c.Contained s := ⟨s, hs, hm, .refl _ s⟩

theorem Contained.modifySys (h : c.Contained s) {g : SysCsrs → SysCsrs} (hg : ∀ s', s'.mode = .supervisor →
    (g s').mode = .supervisor ∧ SameLevel SSTATUS_MASK s' (g s')) : (c.modifySys g).Contained s := by
  obtain ⟨s', hs, hm, hc⟩ := h
  obtain ⟨hm', hc'⟩ := hg s' hm
  exact ⟨g s', by unfold Cpu.modifySys; rw [hs]; rfl, hm', hc.trans hc'⟩

theorem Contained.putSys (h : c.Contained s) {g : SysCsrs → SysCsrs} (hg : ∀ s', s'.mode = .supervisor →
    (g s').mode = .supervisor ∧ SameLevel SSTATUS_MASK s' (g s')) : (c.putSys g).1.Contained s := by
  obtain ⟨s', hs, hm, hc⟩ := h
  obtain ⟨hm', hc'⟩ := hg s' hm
  exact ⟨g s', by unfold Cpu.putSys; rw [hs], hm', hc.trans hc'⟩

theorem Contained.putSatp (h : c.Contained s) (v : U64) : (c.putSatp v).1.Contained s := by
  obtain ⟨s', hs, hm, hc⟩ := h
  unfold Cpu.putSatp
  rw [hs]
  dsimp only
  split_ifs
  · exact ⟨s', hs, hm, hc⟩
  · have hsatp : SameLevel SSTATUS_MASK s' { s' with satp := v } := by constructor <;> rfl
    unfold writeSatp
    dsimp only
    split_ifs
    · exact ⟨_, rfl, hm, hc.trans hsatp⟩
    · exact ⟨_, rfl, hm, hc.trans hsatp⟩
    · exact ⟨s', hs, hm, hc⟩

/-- **A CSR write** of a register supervisor mode may reach keeps the machine-level state. -/
theorem Contained.csrPut (h : c.Contained s) (hl : (csr >>> 8) % 4 ≤ 1) (v : U64) : (c.csrPut csr v).1.Contained s := by
  have hplain : ∀ {g : SysCsrs → SysCsrs}, (∀ s', (g s').mode = s'.mode ∧ SameLevel SSTATUS_MASK s' (g s')) →
      (c.putSys g).1.Contained s := fun hg => h.putSys fun s' hm => ⟨(hg s').1.trans hm, (hg s').2⟩
  unfold Cpu.csrPut
  split
  case h_6 => -- sstatus
    unfold putStatus
    dsimp only
    have hput := hplain (g := fun s => { s with mstatus := (s.mstatus &&& ~~~sstatusWritable) ||| (v &&& sstatusWritable) })
      fun s' => ⟨rfl, .status_only (masked_write _ _ (by decide)) s'.mode⟩
    split_ifs
    · exact hput
    · exact hput
  case h_7 => -- sie
    refine hplain fun s' => ⟨rfl, ?_⟩
    constructor
    case mie => exact masked_write _ _ (BitVec.and_not_self _)
    all_goals rfl
  case h_14 => -- sip
    refine hplain fun s' => ⟨rfl, ?_⟩
    constructor
    case mip => exact masked_write _ _ (BitVec.and_not_self _)
    all_goals rfl
  all_goals first
    | exact h
    | exact h.putSatp v
    | (refine absurd hl ?_; decide)
    | (refine hplain fun s' => ⟨rfl, ?_⟩; constructor <;> rfl)
    | skip
  -- the PMP registers, all of machine mode
  rw [Nat.shiftRight_eq_div_pow] at hl
  split_ifs with hcfg haddr
  · omega
  · omega
  · exact h

theorem Contained.csrWrite (h : c.Contained s) (csr : ℕ) (v : U64) : (c.csrWrite csr v).1.Contained s := by
  have h' : ({ c with irqPollCd := 0 } : Cpu).Contained s := h
  unfold Cpu.csrWrite
  dsimp only
  split_ifs with hro hlevel
  · exact h'
  · exact h'
  · refine h'.csrPut ?_ v
    obtain ⟨s', hs, hm, -⟩ := h
    rw [hs, Option.any_some, hm, decide_eq_true_eq] at hlevel
    exact Nat.not_lt.1 hlevel

theorem Contained.apply (h : c.Contained s) {u : CpuOp} (hu : (HartOp.cpu u).Supervised) : (u.apply c).Contained s := by
  cases u with
  | wr rd v =>
    change (c.wr rd v).Contained s
    unfold wr
    split_ifs <;> exact h
  | fpDirty =>
    exact h.modifySys fun s' hm => ⟨hm, .status_only (masked_or _ (by decide)) s'.mode⟩
  | trap cause tval isInterrupt => exact hu.elim
  | mret => exact hu.elim
  | sret => exact hu.elim
  | latch lines => exact hu.elim
  | _ => exact h

end Cpu

namespace Machine

variable {β : Type} [Bus β] {m : Machine β} {s : SysCsrs}

theorem TlbOnly.contained {c c' : Cpu} (h : TlbOnly c c') (hk : c.Contained s) : c'.Contained s := by
  unfold TlbOnly at h
  rw [h]
  exact hk

/-- **An operation** that supervisor mode may perform keeps the machine-level state. -/
theorem exec_contained {o : HartOp} (ho : o.Supervised) (m : Machine β) (h : m.cpu.Contained s) : (exec o m).2.cpu.Contained s := by
  have hf := (exec_frame busRel_true o m).2
  cases o with
  | cpu u =>
    rw [show (exec (.cpu u) m).2.cpu = u.apply m.cpu from hf]
    exact h.apply ho
  | csrWrite insn csr v =>
    rw [show (exec (.csrWrite insn csr v) m).2.cpu = (m.cpu.csrWrite csr v).1 from hf]
    exact h.csrWrite csr v
  | _ => exact TlbOnly.contained hf h

theorem run_contained {α : Type} {Q : α → Prop} {p : Hart α} (hp : Shape HartOp.Supervised Q p) (h : m.cpu.Contained s) :
    (p.run exec m).2.cpu.Contained s :=
  Program.run_invariant (J := fun m : Machine β => m.cpu.Contained s) (fun m' _ hk ho => exec_contained ho m' hk) p h
    (hp.only.guarded (fun _ _ ho => ho) m)

end Machine

/-! ## Traps and returns -/

namespace Cpu

variable {c : Cpu} {s : SysCsrs}

theorem takeTrap_sys (hs : c.sys = some s) (cause tval : U64) : (c.takeTrap cause tval false).sys =
    some (if delegated s cause false then trapToS s c.pc cause tval else trapToM s c.pc cause tval) := by
  have hcount : ({ c with irqPollCd := 0, reservation := none }.countTrap cause false).sys = some s ∧
      ({ c with irqPollCd := 0, reservation := none }.countTrap cause false).pc = c.pc := by
    unfold countTrap
    cases cause == 8 <;> exact ⟨hs, rfl⟩
  unfold takeTrap
  dsimp only
  generalize countTrap _ cause false = c' at hcount ⊢
  rw [hcount.1]
  dsimp only
  cases delegated s cause false
  · rw [← hcount.2]
    rfl
  · rw [← hcount.2]
    rfl

/-- A delegated trap changes what sstatus shows, and the CSRs of supervisor mode. -/
theorem trapToS_confined (s : SysCsrs) (pc causeVal tval : U64) : SameLevel SSTATUS_MASK s (trapToS s pc causeVal tval) := by
  constructor
  case status =>
    have hspp : (if s.mode = .supervisor then MSTATUS_SPP else 0 : U64) &&& ~~~SSTATUS_MASK = 0 := by
      split_ifs <;> decide
    unfold trapToS
    dsimp only
    rw [masked_or _ hspp, masked_or _ (masked_bit _ 5 (by decide)), masked_clear _ (by decide)]
  all_goals rfl

/-- SRET changes what sstatus shows, and clears MPRV. -/
theorem sret_confined (hs : c.sys = some s) : ∃ s', c.sret.sys = some s' ∧ s'.mode ≠ .machine ∧
    SameLevel (SSTATUS_MASK ||| MSTATUS_MPRV) s s' ∧ s'.mstatus &&& MSTATUS_MPRV = 0 := by
  have hspp : (if s.mstatus &&& MSTATUS_SPP ≠ 0 then Mode.supervisor else Mode.user) ≠ .machine := by
    split_ifs <;> decide
  refine ⟨_, by unfold sret modifySys refreshJitTlbContext; rw [hs]; rfl, hspp, ?_, ?_⟩
  · constructor
    case status =>
      dsimp only
      rw [if_pos hspp, masked_clear _ (by decide), masked_or _ (by decide), masked_or _ (masked_bit _ 1 (by decide)),
        masked_clear _ (by decide)]
    all_goals rfl
  · dsimp only
    rw [if_pos hspp, BitVec.and_assoc, BitVec.and_comm (~~~MSTATUS_MPRV), BitVec.and_not_self]
    exact BitVec.and_zero

end Cpu

/-! ## Instructions -/

/-- CSRRW, CSRRS or CSRRC, or their immediate forms. -/
def IsCsr (insn : U32) (csr : ℕ) : Prop := opcode insn = 0x73 ∧ funct3 insn ≠ 0 ∧ funct3 insn ≠ 4 ∧ (insn >>> 20).toNat = csr

def IsSfence (insn : U32) : Prop := opcode insn = 0x73 ∧ funct7 insn = 0x09 ∧ funct3 insn = 0

/-- What a step in supervisor mode does to the privileged state: it keeps the machine-level state; or it returns, and clears
MPRV; or it is an ECALL that traps to machine mode. -/
def Confines (insn : U32) (pc : U64) (s s' : SysCsrs) : Prop :=
  (s'.mode ≠ .machine ∧ SameLevel SSTATUS_MASK s s') ∨
    (insn = 0x10200073 ∧ s'.mode ≠ .machine ∧ SameLevel (SSTATUS_MASK ||| MSTATUS_MPRV) s s' ∧ s'.mstatus &&& MSTATUS_MPRV = 0) ∨
    (insn = 0x00000073 ∧ Cpu.delegated s 9 false = false ∧ s' = Cpu.trapToM s pc 9 0)

namespace Hart

variable {β : Type} [Bus β] {m : Machine β} {s : SysCsrs} {insn : U32}

theorem plain_supervised (o : HartOp) (h : Plain o) : o.Supervised := by
  unfold Plain at h
  split at h <;> first | exact trivial | exact h.elim

theorem confines_of_contained {c : Cpu} (h : c.Contained s) (insn : U32) (pc : U64) : ∃ s', c.sys = some s' ∧ Confines insn pc s s' := by
  obtain ⟨s', hs, hm, hc⟩ := h
  exact ⟨s', hs, Or.inl ⟨by rw [hm]; decide, hc⟩⟩

/-- ECALL traps to supervisor mode, or to machine mode, or leaves the call to the host. -/
theorem execEcall_confines (hs : m.cpu.sys = some s) (hm : s.mode = .supervisor) (seq : U64) :
    ∃ s', ((execEcall m.cpu seq).run exec m).2.cpu.sys = some s' ∧ Confines 0x00000073 m.cpu.pc s s' := by
  unfold execEcall
  rw [hs]
  dsimp only
  split_ifs
  · exact confines_of_contained (Cpu.contained_self hs hm) _ _
  · rw [hm]
    refine ⟨_, Cpu.takeTrap_sys hs 9 0, ?_⟩
    cases hd : Cpu.delegated s 9 false with
    | false => exact Or.inr (Or.inr ⟨rfl, hd, rfl⟩)
    | true => exact Or.inl ⟨(nofun : Mode.supervisor ≠ .machine), Cpu.trapToS_confined s _ _ _⟩

theorem execSret_confines (hs : m.cpu.sys = some s) (hm : s.mode = .supervisor) :
    ∃ s', ((execSret m.cpu 0x10200073).run exec m).2.cpu.sys = some s' ∧ Confines 0x10200073 m.cpu.pc s s' := by
  unfold execSret
  rw [hs]
  by_cases htsr : s.mode = .user ∨ (s.mode = .supervisor ∧ s.mstatus &&& MSTATUS_TSR ≠ 0)
  · simp only [bind_eq, require, Program.pure_bind, if_pos htsr]
    exact confines_of_contained (Cpu.contained_self hs hm) _ _
  · simp only [bind_eq, require, Program.pure_bind, if_neg htsr]
    obtain ⟨s', hs', hrest⟩ := Cpu.sret_confined (c := { m.cpu with irqPollCd := 0 }) hs
    exact ⟨s', hs', Or.inr (Or.inl ⟨rfl, hrest⟩)⟩

theorem made_supervised {α : Type} {Q : α → Prop} {P : HartOp → Prop} {p : Hart α} (hp : Made P Q p)
    (h : ∀ o, P o → o.Supervised) : Shape HartOp.Supervised Q p :=
  hp.shape h fun o ho => plain_supervised o (accesses_plain o ho)

theorem execCsr_supervised (c : Cpu) (insn : U32) : Shape HartOp.Supervised (fun _ => True) (execCsr c insn) := by
  have hfp : Shape HartOp.Supervised (fun _ => True) (csrFp c insn (insn >>> 20).toNat) := by
    unfold csrFp
    split_ifs
    · exact (fpCheck_shape c insn).bind fun _ _ => shape_upd trivial
    · exact .pure trivial
  have hput : ∀ v, Shape HartOp.Supervised (fun _ => True) (csrPut insn (insn >>> 20).toNat v) := fun v => by
    cases v with
    | none => exact .pure trivial
    | some v => exact .op trivial fun _ => .pure trivial
  exact hfp.bind fun _ _ => shape_get trivial fun _ => (shape_require insn _ fun _ _ => trivial).bind fun _ _ =>
    (hput _).bind fun _ _ => shape_upd trivial

/-- **A system instruction** in supervisor mode. -/
theorem execSystem_confines (hs : m.cpu.sys = some s) (hm : s.mode = .supervisor) (insn : U32) (seq : U64) :
    ∃ s', ((execSystem m.cpu insn seq).run exec m).2.cpu.sys = some s' ∧ Confines insn m.cpu.pc s s' := by
  have hkept := Cpu.contained_self hs hm
  have hshape : ∀ {p : Hart Next}, Shape HartOp.Supervised (fun _ => True) p →
      ∃ s', (p.run exec m).2.cpu.sys = some s' ∧ Confines insn m.cpu.pc s s' :=
    fun hp => confines_of_contained (run_contained hp hkept) _ _
  unfold execSystem
  by_cases hecall : insn = 0x00000073
  · rw [if_pos hecall, hecall]
    exact execEcall_confines hs hm seq
  rw [if_neg hecall]
  by_cases hbreak : insn = 0x00100073
  · rw [if_pos hbreak]
    refine hshape ?_
    split_ifs
    · exact .throw _
    · exact .pure trivial
  rw [if_neg hbreak]
  by_cases hmret : insn = 0x30200073
  · rw [if_pos hmret]
    refine hshape ((shape_upd trivial).bind fun _ _ => ?_)
    simp only [hs, require, bind_eq, Program.pure_bind]
    rw [if_pos (by rw [hm]; decide)]
    exact .throw _
  rw [if_neg hmret]
  by_cases hsret : insn = 0x10200073
  · rw [if_pos hsret, hsret]
    exact execSret_confines hs hm
  rw [if_neg hsret]
  refine hshape ?_
  split_ifs
  · unfold execWfi
    rw [hs]
    dsimp only
    split_ifs
    · exact .throw _
    · exact .pure trivial
    · exact .pure trivial
  · refine Shape.bind (Q := fun _ => True) ?_ fun _ _ => .pure trivial
    unfold execSfence
    split_ifs
    · exact .throw _
    · exact (shape_upd trivial).bind fun _ _ => shape_upd trivial
    · exact (shape_upd trivial).bind fun _ _ => shape_upd trivial
  · exact (execCsr_supervised m.cpu insn).bind fun _ _ => .pure trivial
  · exact .throw _

theorem execArm_confines (host : Option HostFp) (hs : m.cpu.sys = some s) (hm : s.mode = .supervisor) (insn : U32) (seq : U64) :
    ∃ s', ((execArm host m.cpu insn seq).run exec m).2.cpu.sys = some s' ∧ Confines insn m.cpu.pc s s' := by
  have hkept := Cpu.contained_self hs hm
  by_cases hsys : opcode insn = 0x73
  · unfold execArm
    rw [hsys]
    exact execSystem_confines hs hm insn seq
  by_cases hf : opcode insn = 0x0f
  · refine confines_of_contained (run_contained (Q := fun _ => True) ?_ hkept) _ _
    unfold execArm
    rw [hf]
    refine Shape.bind (Q := fun _ => True) ?_ fun _ _ => .pure trivial
    unfold fence
    split_ifs
    · exact shape_upd trivial
    · exact .pure trivial
  · exact confines_of_contained (run_contained ((execArm_plain host m.cpu seq hf hsys).mono plain_supervised fun _ h => h) hkept) _ _

/-- A decoded instruction in supervisor mode. -/
theorem executeDecoded_confines (host : Option HostFp) (d : DecodedInsn) (hs : m.cpu.sys = some s) (hm : s.mode = .supervisor) :
    ∃ s', ((executeDecoded host d).run exec m).2.cpu.sys = some s' ∧ Confines d.bits m.cpu.pc s s' := by
  unfold executeDecoded
  split_ifs
  · exact confines_of_contained (Cpu.contained_self hs hm) _ _
  · obtain ⟨s', hs', hc⟩ := execArm_confines host hs hm d.bits (m.cpu.pc + d.byteLen)
    change ∃ s', (((execArm host m.cpu d.bits (m.cpu.pc + d.byteLen)).bind _).run exec m).2.cpu.sys = some s' ∧ _
    rw [run_bind]
    rcases hr : (execArm host m.cpu d.bits (m.cpu.pc + d.byteLen)).run exec m with ⟨e | next, m'⟩
    · rw [hr] at hs'
      exact ⟨s', hs', hc⟩
    · rw [hr] at hs'
      rcases next with ⟨pc, stop⟩ | _
      · exact ⟨s', hs', hc⟩
      · exact ⟨s', hs', hc⟩

/-! ## TVM, TW and TSR -/

/-- An instruction that an arm refuses fails as the arm does. -/
theorem executeDecoded_refused {host : Option HostFp} {d : DecodedInsn} {m' : Machine β}
    (h : ∀ seq, (execArm host m.cpu d.bits seq).run exec m = (.error (.illegalInstruction d.bits), m')) :
    (executeDecoded host d).run exec m = (.error (.illegalInstruction d.bits), if d.valid then m' else m) := by
  unfold executeDecoded
  by_cases hv : d.valid
  · rw [if_neg (by simp [hv]), if_pos hv]
    change ((execArm host m.cpu d.bits (m.cpu.pc + d.byteLen)).bind _).run exec m = _
    rw [run_bind, h]
  · rw [if_pos (by simpa using hv), if_neg hv]
    rfl

theorem csrRead_satp {c : Cpu} (hs : c.sys = some s) (hm : s.mode = .supervisor) (htvm : s.mstatus &&& MSTATUS_TVM ≠ 0) :
    c.csrRead SATP = none := by
  have hread : c.csrRead SATP = if s.mode = .supervisor ∧ s.mstatus &&& MSTATUS_TVM ≠ 0 then none else some s.satp := by
    unfold Cpu.csrRead
    rw [hs, Option.any_some, if_neg (by rw [hm]; decide)]
    rfl
  rw [hread, if_pos ⟨hm, htvm⟩]

/-- Accesses to satp under TVM. -/
theorem satp_refused (hs : m.cpu.sys = some s) (hm : s.mode = .supervisor) (htvm : s.mstatus &&& MSTATUS_TVM ≠ 0)
    (h : IsCsr insn SATP) (host : Option HostFp) (seq : U64) :
    (execArm host m.cpu insn seq).run exec m = (.error (.illegalInstruction insn), m) := by
  obtain ⟨hop, h0, h4, hcsr⟩ := h
  have hne : ∀ w : U32, funct3 w = 0 → insn ≠ w := fun w hw he => h0 (he ▸ hw)
  have hcsrs : (execCsr m.cpu insn).run exec m = (.error (.illegalInstruction insn), m) := by
    unfold execCsr csrFp
    simp only [hcsr, bind_eq]
    rw [if_neg (by decide), pure_bind]
    change ((require insn (m.cpu.csrRead SATP)).bind _).run exec m = _
    rw [csrRead_satp hs hm htvm]
    rfl
  unfold execArm
  rw [hop]
  change (execSystem m.cpu insn seq).run exec m = _
  unfold execSystem
  rw [if_neg (hne _ (by decide)), if_neg (hne _ (by decide)), if_neg (hne _ (by decide)), if_neg (hne _ (by decide)),
    if_neg (hne _ (by decide)), if_neg (fun hf => h0 hf.2), if_pos ⟨h0, h4⟩, bind_eq, run_bind, hcsrs]

/-- SFENCE.VMA under TVM. -/
theorem sfence_refused (hs : m.cpu.sys = some s) (hm : s.mode = .supervisor) (htvm : s.mstatus &&& MSTATUS_TVM ≠ 0)
    (h : IsSfence insn) (host : Option HostFp) (seq : U64) :
    (execArm host m.cpu insn seq).run exec m = (.error (.illegalInstruction insn), m) := by
  obtain ⟨hop, h7, h0⟩ := h
  have hne : ∀ w : U32, funct7 w ≠ 0x09 → insn ≠ w := fun w hw he => hw (he ▸ h7)
  have hallowed : sfenceAllowed m.cpu = false := by
    unfold sfenceAllowed
    rw [hs]
    dsimp only
    rw [decide_eq_true (Or.inr ⟨hm, htvm⟩)]
    rfl
  unfold execArm
  rw [hop]
  change (execSystem m.cpu insn seq).run exec m = _
  unfold execSystem
  rw [if_neg (hne _ (by decide)), if_neg (hne _ (by decide)), if_neg (hne _ (by decide)), if_neg (hne _ (by decide)),
    if_neg (hne _ (by decide)), if_pos ⟨h7, h0⟩]
  unfold execSfence
  rw [hallowed]
  rfl

/-- WFI under TW. -/
theorem wfi_refused (hs : m.cpu.sys = some s) (hm : s.mode = .supervisor) (htw : s.mstatus &&& MSTATUS_TW ≠ 0)
    (host : Option HostFp) (seq : U64) :
    (execArm host m.cpu 0x10500073 seq).run exec m = (.error (.illegalInstruction 0x10500073), m) := by
  change (execWfi m.cpu 0x10500073 seq).run exec m = _
  unfold execWfi
  rw [hs]
  dsimp only
  rw [if_pos (Or.inr ⟨hm, htw⟩)]
  rfl

/-- SRET under TSR. -/
theorem sret_refused (hs : m.cpu.sys = some s) (hm : s.mode = .supervisor) (htsr : s.mstatus &&& MSTATUS_TSR ≠ 0)
    (host : Option HostFp) (seq : U64) : (execArm host m.cpu 0x10200073 seq).run exec m =
      (.error (.illegalInstruction 0x10200073), { m with cpu := { m.cpu with irqPollCd := 0 } }) := by
  change (execSret m.cpu 0x10200073).run exec m = _
  unfold execSret
  rw [hs]
  simp only [bind_eq, require, Program.pure_bind]
  rw [if_pos (Or.inr ⟨hm, htsr⟩)]
  rfl

/-- **Supervisor confinement.**  A step in supervisor mode keeps the machine-level state, but for an ECALL that traps to machine
mode and for MPRV, which SRET clears.  Under TVM accesses to satp and SFENCE.VMA, under TW WFI and under TSR SRET are illegal
instructions that change nothing else; SRET, when it is refused, has reset the countdown to the next interrupt poll. -/
theorem supervisor_confined (host : Option HostFp) (d : DecodedInsn) (m : Machine β) (s : SysCsrs) (hs : m.cpu.sys = some s)
    (hm : s.mode = .supervisor) :
    (∃ s', ((executeDecoded host d).run exec m).2.cpu.sys = some s' ∧ Confines d.bits m.cpu.pc s s') ∧
    (s.mstatus &&& MSTATUS_TVM ≠ 0 → IsCsr d.bits SATP ∨ IsSfence d.bits →
      (executeDecoded host d).run exec m = (.error (.illegalInstruction d.bits), m)) ∧
    (s.mstatus &&& MSTATUS_TW ≠ 0 → d.bits = 0x10500073 →
      (executeDecoded host d).run exec m = (.error (.illegalInstruction d.bits), m)) ∧
    (s.mstatus &&& MSTATUS_TSR ≠ 0 → d.bits = 0x10200073 → (executeDecoded host d).run exec m =
      (.error (.illegalInstruction d.bits), if d.valid then { m with cpu := { m.cpu with irqPollCd := 0 } } else m)) := by
  refine ⟨executeDecoded_confines host d hs hm, fun htvm h => ?_, fun htw h => ?_, fun htsr h => ?_⟩
  · refine (executeDecoded_refused fun seq => ?_).trans (by rw [ite_self])
    rcases h with h | h
    · exact satp_refused hs hm htvm h host seq
    · exact sfence_refused hs hm htvm h host seq
  · refine (executeDecoded_refused fun seq => ?_).trans (by rw [ite_self])
    rw [h]
    exact wfi_refused hs hm htw host seq
  · refine executeDecoded_refused fun seq => ?_
    rw [h]
    exact sret_refused hs hm htsr host seq

/-! ## The countdown to the interrupt poll -/

/-- A hart in supervisor mode under TSR, five instructions before its next poll. -/
def trappedHart : Machine FlatMemory where
  cpu := { Cpu.new with sys := some { SysCsrs.new with mode := .supervisor, mstatus := MSTATUS_TSR }, irqPollCd := 5 }
  bus := .empty

/-- SRET. -/
def sretInsn : DecodedInsn := .fromWord 0x10200073

theorem supervisor_confined_sret : (executeDecoded none sretInsn).run exec trappedHart =
    (.error (.illegalInstruction 0x10200073), { trappedHart with cpu := { trappedHart.cpu with irqPollCd := 0 } }) :=
  (supervisor_confined none sretInsn trappedHart _ rfl rfl).2.2.2 (by decide) rfl

/-- An SRET that is refused changes the countdown. -/
theorem sret_resets_poll : ¬ ∀ (m : Machine FlatMemory) (s : SysCsrs), m.cpu.sys = some s → s.mode = .supervisor →
    m.cpu.hostSbi = false → s.mstatus &&& MSTATUS_TSR ≠ 0 →
      (executeDecoded none sretInsn).run exec m = (.error (.illegalInstruction sretInsn.bits), m) := by
  intro h
  have hrun := congrArg (fun r => r.2.cpu.irqPollCd) (h trappedHart _ rfl rfl rfl (by decide))
  have hcd : ((executeDecoded none sretInsn).run exec trappedHart).2.cpu.irqPollCd = 0 := by decide
  exact absurd (hcd.symm.trans hrun) (by decide)

end Hart
end Lish
