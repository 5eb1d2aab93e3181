import Lish.Core.Retire
/-!
# Rank — interrupts close interrupts

How many interrupts a hart can take in a row without retiring an instruction (`interruptRank`): traps close what is enabled,
and only instructions that retire open it.
-/
namespace Lish

open Program

/-! ## The rank -/

/-- The interrupts a hart in a mode can still take before it retires an instruction. -/
def SysCsrs.interruptRank (s : SysCsrs) : ℕ :=
  match s.mode with
  | .user => 2
  | .supervisor => if s.mstatus &&& MSTATUS_SIE ≠ 0 then 2 else 1
  | .machine => if s.mstatus &&& MSTATUS_MIE ≠ 0 then 1 else 0

namespace Cpu

def interruptRank (c : Cpu) : ℕ := (c.sys.map SysCsrs.interruptRank).getD 0

/-- The mode and the enable bits decide. -/
theorem rank_congr {s s' : SysCsrs} (hm : s'.mode = s.mode) (hs : s'.mstatus &&& MSTATUS_SIE = s.mstatus &&& MSTATUS_SIE)
    (hi : s'.mstatus &&& MSTATUS_MIE = s.mstatus &&& MSTATUS_MIE) : s'.interruptRank = s.interruptRank := by
  unfold SysCsrs.interruptRank
  rw [hm, hs, hi]

theorem or_fs_and {v mask : U64} (h : MSTATUS_FS &&& mask = 0) : (v ||| MSTATUS_FS) &&& mask = v &&& mask := by
  rw [BitVec.and_comm, BitVec.and_or_distrib_left, BitVec.and_comm mask MSTATUS_FS, h, show (0 : U64) = 0#64 from rfl, BitVec.or_zero, BitVec.and_comm]

theorem rank_fs (s : SysCsrs) : ({ s with mstatus := s.mstatus ||| MSTATUS_FS } : SysCsrs).interruptRank = s.interruptRank :=
  rank_congr rfl (or_fs_and (by decide)) (or_fs_and (by decide))

theorem control_rank {c c' : Cpu} (h : c'.control = c.control) : c'.interruptRank = c.interruptRank := by
  have hs := control_sys h
  unfold interruptRank
  cases hc : c.sys with
  | none =>
    rw [hc] at hs
    rw [Option.map_eq_none_iff.1 hs]
  | some s =>
    rw [hc] at hs
    obtain ⟨s', hs', he⟩ := Option.map_eq_some_iff.1 hs
    rw [hs', Option.map_some, Option.map_some, Option.getD_some, Option.getD_some, ← rank_fs s', he, rank_fs]

/-! ## Traps -/

/-- A bit mask keeps no bit that is cleared and not set again. -/
theorem and_bit_eq_zero {v : U64} {k : ℕ} (h : v.getLsbD k = false) : v &&& (1#64 <<< k) = 0 := by
  have ht : v &&& BitVec.twoPow 64 k = 0 := by
    rw [BitVec.and_twoPow, h]
    rfl
  exact ht

theorem trapToS_rank (s : SysCsrs) (pc causeVal tval : U64) : (trapToS s pc causeVal tval).interruptRank = 1 := by
  have hclear : (trapToS s pc causeVal tval).mstatus &&& MSTATUS_SIE = 0 := by
    apply and_bit_eq_zero
    unfold trapToS MSTATUS_SPIE MSTATUS_SPP MSTATUS_SIE
    dsimp only
    split_ifs <;> simp
  unfold SysCsrs.interruptRank
  rw [show (trapToS s pc causeVal tval).mode = .supervisor from rfl]
  dsimp only
  rw [hclear, if_neg (by simp)]

theorem trapToM_rank (s : SysCsrs) (pc causeVal tval : U64) : (trapToM s pc causeVal tval).interruptRank = 0 := by
  have hclear : (trapToM s pc causeVal tval).mstatus &&& MSTATUS_MIE = 0 := by
    apply and_bit_eq_zero
    unfold trapToM MSTATUS_MPIE MSTATUS_MPP MSTATUS_MIE
    dsimp only
    simp
  unfold SysCsrs.interruptRank
  rw [show (trapToM s pc causeVal tval).mode = .machine from rfl]
  dsimp only
  rw [hclear, if_neg (by simp)]

theorem takeTrap_rank (c : Cpu) {s : SysCsrs} (hs : c.sys = some s) (cause tval : U64) (isInterrupt : Bool) :
    (c.takeTrap cause tval isInterrupt).interruptRank = if delegated s cause isInterrupt then 1 else 0 := by
  obtain ⟨hsys, -⟩ := sys_countTrap { c with irqPollCd := 0, reservation := none } cause isInterrupt
  unfold takeTrap
  dsimp only
  generalize countTrap _ cause isInterrupt = c' at hsys ⊢
  dsimp only at hsys
  rw [hsys, hs]
  dsimp only
  by_cases hd : delegated s cause isInterrupt
  · rw [if_pos hd, if_pos hd]
    exact trapToS_rank _ _ _ _
  · rw [if_neg hd, if_neg hd]
    exact trapToM_rank _ _ _ _

theorem rank_pos {s : SysCsrs} (h : s.mode ≠ .machine) : 1 ≤ s.interruptRank := by
  unfold SysCsrs.interruptRank
  cases hm : s.mode with
  | user => exact (by decide : 1 ≤ 2)
  | supervisor =>
    dsimp only
    split_ifs <;> decide
  | machine => exact absurd hm h

theorem takeTrap_isSome (c : Cpu) (cause tval : U64) (isInterrupt : Bool) :
    (c.takeTrap cause tval isInterrupt).sys.isSome = c.sys.isSome := by
  obtain ⟨hsys, -⟩ := sys_countTrap { c with irqPollCd := 0, reservation := none } cause isInterrupt
  unfold takeTrap
  dsimp only
  generalize countTrap _ cause isInterrupt = c' at hsys ⊢
  dsimp only at hsys
  rw [← hsys]
  cases hs : c'.sys with
  | none =>
    dsimp only
    rw [hs]
  | some s =>
    dsimp only
    cases delegated s cause isInterrupt <;> rfl

/-- **An exception** opens no interrupt. -/
theorem takeTrap_rank_le (c : Cpu) (cause tval : U64) (isInterrupt : Bool) :
    (c.takeTrap cause tval isInterrupt).interruptRank ≤ c.interruptRank := by
  cases hs : c.sys with
  | none =>
    have hnone := takeTrap_isSome c cause tval isInterrupt
    rw [hs, Option.isSome_none, Option.isSome_eq_false_iff, Option.isNone_iff_eq_none] at hnone
    unfold interruptRank
    rw [hnone, hs]
  | some s =>
    rw [takeTrap_rank c hs]
    split_ifs with hd
    · have hm : s.mode ≠ .machine := by
        unfold delegated at hd
        exact (of_decide_eq_true hd).1
      unfold interruptRank
      rw [hs]
      exact rank_pos hm
    · exact Nat.zero_le _

theorem getLsbD_of_and_bit {v : U64} {k : ℕ} (h : v &&& (1#64 <<< k) ≠ 0) : v.getLsbD k = true := by
  by_contra hc
  exact h (and_bit_eq_zero (by simpa using hc))

/-- **An interrupt** closes at least one. -/
theorem interrupt_rank {c : Cpu} {s : SysCsrs} (hs : c.sys = some s) {irq : ℕ} (hi : irq ∈ Hart.irqPriority)
    (hd : Hart.deliverable s irq = true) :
    (c.takeTrap (BitVec.ofNat 64 irq) 0 true).interruptRank < c.interruptRank := by
  have hlt : (BitVec.ofNat 64 irq &&& 63).toNat = irq := by
    unfold Hart.irqPriority at hi
    simp only [List.mem_cons, List.not_mem_nil, or_false] at hi
    rcases hi with rfl | rfl | rfl | rfl | rfl | rfl <;> rfl
  rw [takeTrap_rank c hs]
  unfold Hart.deliverable at hd
  rw [Bool.and_eq_true] at hd
  have hen := hd.2
  have hrank : c.interruptRank = s.interruptRank := by
    unfold interruptRank
    rw [hs]
    rfl
  rw [hrank]
  unfold delegated
  dsimp only
  rw [hlt, if_pos rfl]
  cases hb : s.mideleg.getLsbD irq with
  | true =>
    rw [hb, if_pos rfl] at hen
    have hen := of_decide_eq_true hen
    have htwo : s.interruptRank = 2 := by
      unfold SysCsrs.interruptRank
      cases hm : s.mode with
      | user => rfl
      | supervisor =>
        rw [hm] at hen
        dsimp only
        rcases hen with h | ⟨-, h⟩
        · cases h
        · rcases h with h | ⟨-, h⟩
          · cases h
          · exact if_pos h
      | machine =>
        rw [hm] at hen
        rcases hen with h | ⟨h, -⟩ <;> cases h
    rw [htwo]
    split_ifs <;> decide
  | false =>
    rw [hb] at hen
    have hen := of_decide_eq_true hen
    have hzero : s.mideleg &&& (1#64 <<< irq) = 0 := and_bit_eq_zero hb
    rw [if_neg (by simp [hzero])]
    unfold SysCsrs.interruptRank
    cases hm : s.mode with
    | user => exact (by decide : 0 < 2)
    | supervisor =>
      dsimp only
      split_ifs <;> decide
    | machine =>
      rw [hm] at hen
      dsimp only
      have hmie : s.mstatus &&& MSTATUS_MIE ≠ 0 := by
        rcases hen with h | h | h
        · exact absurd rfl h
        · exact absurd rfl h
        · exact h
      rw [if_pos hmie]
      decide

end Cpu

/-! ## Polls -/

namespace Hart

theorem poll_eq : poll = pollTaken.bind fun _ => .pure () := by
  unfold poll pollTaken
  simp only [Program.bind_eq]
  rw [get, op_bind, op_bind, op_bind]
  refine congrArg (Program.op (I := hartOps) HartOp.get) (funext fun c => ?_)
  simp only [Program.pure_bind]
  split_ifs
  · rfl
  · rw [bind_assoc]
    rfl
  · rw [bind_assoc]
    rfl

end Hart

namespace Machine

variable {β : Type}

/-- A poll counts no instruction and opens no interrupt; one that takes an interrupt closes one. -/
structure Polled (m m' : Machine β) (taken : Bool) : Prop where
  insnCount : m'.cpu.insnCount = m.cpu.insnCount
  system : m'.cpu.sys.isSome = m.cpu.sys.isSome
  rank : m'.cpu.interruptRank ≤ m.cpu.interruptRank
  taken : taken = true → m'.cpu.interruptRank < m.cpu.interruptRank

theorem latch_polled (m : Machine β) (lines : U64) : Polled m { m with cpu := (CpuOp.latch lines).apply m.cpu } false := by
  have hrank : ((CpuOp.latch lines).apply m.cpu).interruptRank = m.cpu.interruptRank := by
    unfold Cpu.interruptRank CpuOp.apply Cpu.modifySys
    cases m.cpu.sys <;> rfl
  exact ⟨rfl, by unfold CpuOp.apply Cpu.modifySys; cases m.cpu.sys <;> rfl, hrank.le, nofun⟩

theorem Polled.trans {m m' m'' : Machine β} {taken : Bool} (h : Polled m m' false) (h' : Polled m' m'' taken) :
    Polled m m'' taken :=
  ⟨h'.insnCount.trans h.insnCount, h'.system.trans h.system, h'.rank.trans h.rank, fun ht => (h'.taken ht).trans_le h.rank⟩

theorem Polled.refl (m : Machine β) : Polled m m false := ⟨rfl, rfl, le_rfl, nofun⟩

variable [Bus β]

theorem takeInterrupt_polled {m : Machine β} {s : SysCsrs} (hs : m.cpu.sys = some s) :
    ∃ taken m', (Hart.takeInterrupt s).run exec m = (.ok taken, m') ∧ Polled m m' taken := by
  unfold Hart.takeInterrupt
  cases hf : Hart.irqPriority.find? (Hart.deliverable s) with
  | none => exact ⟨false, m, rfl, .refl m⟩
  | some irq =>
    have hr := Cpu.interrupt_rank hs (List.mem_of_find?_eq_some hf) (List.find?_some hf)
    refine ⟨true, _, rfl, ⟨(Cpu.clocks_takeTrap m.cpu _ _ _).2, ?_, hr.le, fun _ => hr⟩⟩
    exact Cpu.takeTrap_isSome m.cpu _ _ _

theorem checkInterrupts_polled (m : Machine β) :
    ∃ taken m', Hart.checkInterrupts.run exec m = (.ok taken, m') ∧ Polled m m' taken := by
  unfold Hart.checkInterrupts
  simp only [Program.bind_eq]
  rw [run_get]
  cases hs : m.cpu.sys with
  | none => exact ⟨false, m, rfl, .refl m⟩
  | some s =>
    rw [if_neg (by simp)]
    have hl := latch_polled { m with bus := (Bus.irqLines m.bus).2 } (Bus.irqLines m.bus).1
    have hsys : ((CpuOp.latch (Bus.irqLines m.bus).1).apply m.cpu).sys =
        some { s with mip := (s.mip &&& ~~~hwLines) ||| ((Bus.irqLines m.bus).1 &&& hwLines) } := by
      unfold CpuOp.apply Cpu.modifySys
      dsimp only
      rw [hs]
      rfl
    obtain ⟨taken, m', hr, hp⟩ := takeInterrupt_polled
      (m := { m with cpu := (CpuOp.latch (Bus.irqLines m.bus).1).apply m.cpu, bus := (Bus.irqLines m.bus).2 }) hsys
    refine ⟨taken, m', ?_, ⟨hp.insnCount, ?_, hp.rank.trans hl.rank, fun ht => (hp.taken ht).trans_le hl.rank⟩⟩
    · have hlines : exec .irqLines m = (.ok (Bus.irqLines m.bus).1, { m with bus := (Bus.irqLines m.bus).2 }) := rfl
      rw [← hr, Hart.irqLines, op_bind, run_op_ok hlines, pure_bind, run_upd, run_get]
      dsimp only
      rw [hsys]
    · rw [hp.system]
      exact hl.system

/-- **A poll** ends, counts nothing and opens no interrupt. -/
theorem pollTaken_polled (m : Machine β) :
    ∃ taken m', Hart.pollTaken.run exec m = (.ok taken, m') ∧ Polled m m' taken := by
  unfold Hart.pollTaken
  simp only [Program.bind_eq]
  rw [run_get]
  split_ifs
  · exact ⟨false, m, rfl, .refl m⟩
  · rw [run_upd]
    obtain ⟨taken, m', hr, hp⟩ := checkInterrupts_polled { m with cpu := (CpuOp.pollCd IRQ_POLL_INTERVAL).apply m.cpu }
    exact ⟨taken, m', hr, ⟨hp.insnCount, hp.system, hp.rank, hp.taken⟩⟩
  · exact ⟨false, _, rfl, ⟨rfl, rfl, le_rfl, nofun⟩⟩

theorem poll_polled (m : Machine β) : ∃ taken m', Hart.poll.run exec m = (.ok (), m') ∧ Polled m m' taken := by
  obtain ⟨taken, m', hr, hp⟩ := pollTaken_polled m
  refine ⟨taken, m', ?_, hp⟩
  rw [Hart.poll_eq, run_bind, hr]
  rfl

end Machine

/-! ## Instructions that trap -/

namespace Hart

/-- Operations that leave the rank. -/
def RankKeeps : HartOp → Prop
  | .csrWrite _ _ _ | .cpu (.trap _ _ _) | .cpu .mret | .cpu .sret => False
  | _ => True

def IsCsrWrite : HartOp → Prop
  | .csrWrite _ _ _ => True
  | _ => False

/-- Register operations: they are never refused. -/
def IsCpu : HartOp → Prop
  | .cpu _ => True
  | _ => False

/-- Whatever opens interrupts is done when nothing can fail any more. -/
abbrev OpensLast {α : Type} (p : Hart α) : Prop := p.Late RankKeeps IsCsrWrite IsCpu

theorem plain_rankKeeps {o : HartOp} (h : Plain o) : RankKeeps o := by
  cases o with
  | cpu u => cases u <;> trivial
  | csrWrite insn csr v => exact absurd h id
  | _ => trivial

theorem upd_total (u : CpuOp) : (upd u).Total IsCpu := .op trivial fun _ => .pure ()

theorem execCsr_late (c : Cpu) (insn : U32) : OpensLast (execCsr c insn) := by
  have hfp : (csrFp c insn (insn >>> 20).toNat).Only RankKeeps := by
    unfold csrFp
    split_ifs
    · exact ((fpCheck_shape c insn).bind fun _ _ => shape_upd trivial).only
    · exact .pure ()
  refine hfp.bind_late fun _ => .quiet trivial fun c' => ?_
  have hreq : (require insn (c'.csrRead (insn >>> 20).toNat)).Only RankKeeps :=
    (shape_require (Q := fun _ => True) insn _ fun _ _ => trivial).only
  refine hreq.bind_late fun old => Late.bind_total ?_ fun _ => upd_total _
  unfold csrPut
  split
  · exact .clean trivial fun _ => .pure ()
  · exact .pure ()

theorem execSystem_late (c : Cpu) (insn : U32) (seq : U64) : OpensLast (execSystem c insn seq) := by
  have hsys : (require insn c.sys).Only RankKeeps := (shape_require (Q := fun _ => True) insn _ fun _ _ => trivial).only
  have hpoll : (upd (.pollCd 0)).Only RankKeeps := .op trivial fun _ => .pure ()
  unfold execSystem
  split_ifs
  · unfold execEcall
    cases c.sys with
    | none => exact .pure _
    | some s =>
      dsimp only
      split_ifs
      · exact .pure _
      · exact .last (.op trivial fun _ => .op trivial fun _ => .pure _)
  · exact .throw _
  · exact .pure _
  · refine hpoll.bind_late fun _ => hsys.bind_late fun s => ?_
    split_ifs
    · exact .throw _
    · exact .last (.op trivial fun _ => .pure _)
  · refine hpoll.bind_late fun _ => hsys.bind_late fun s => ?_
    split_ifs
    · exact .throw _
    · exact .last (.op trivial fun _ => .pure _)
  · unfold execWfi
    cases c.sys with
    | none => exact .pure _
    | some s =>
      dsimp only
      split_ifs
      · exact .throw _
      · exact .pure _
      · exact .pure _
  · refine Late.bind_total ?_ fun _ => .pure _
    unfold execSfence
    split_ifs
    · exact .throw _
    · exact .quiet trivial fun _ => .quiet trivial fun _ => .pure ()
    · exact .quiet trivial fun _ => .quiet trivial fun _ => .pure ()
  · exact (execCsr_late c insn).bind_total fun _ => .pure _
  · exact .throw _

theorem execArm_late (host : Option HostFp) (c : Cpu) (insn : U32) (seq : U64) : OpensLast (execArm host c insn seq) := by
  by_cases hf : opcode insn = 0x0f
  · unfold execArm
    rw [hf]
    refine Late.bind_total ?_ fun _ => .pure _
    unfold fence
    split_ifs
    · exact .quiet trivial fun _ => .pure ()
    · exact .pure ()
  by_cases hs : opcode insn = 0x73
  · unfold execArm
    rw [hs]
    exact execSystem_late c insn seq
  · exact ((execArm_plain host c seq hf hs).mono (fun _ => plain_rankKeeps) fun _ h => h).only.late

theorem executeDecoded_late (host : Option HostFp) (d : DecodedInsn) : OpensLast (executeDecoded host d) := by
  unfold executeDecoded
  split_ifs
  · exact .throw _
  · refine .quiet trivial fun c => (execArm_late host c d.bits _).bind_total fun next => ?_
    rcases next with ⟨pc, stop⟩ | _
    · exact .op trivial fun _ => .pure _
    · exact .pure _

theorem step_late (host : Option HostFp) : OpensLast (step host) := by
  rw [step_eq]
  refine .quiet trivial fun c => ?_
  rw [pure_bind]
  split_ifs
  · exact .throw _
  · have hfetch : (fetchInsn c).Only RankKeeps :=
      ((fetchInsn_shape c).mono (fun o ho => by cases o <;> trivial) fun _ h => h).only
    exact hfetch.bind_late fun full => executeDecoded_late host _

end Hart

namespace Cpu

/-- A refused CSR write leaves the privileged state. -/
theorem csrWrite_refused (c : Cpu) (csr : ℕ) (v : U64) (h : (c.csrWrite csr v).2 = false) : (c.csrWrite csr v).1.sys = c.sys := by
  have hput : ∀ c : Cpu, (c.csrPut csr v).2 = false → (c.csrPut csr v).1.sys = c.sys := by
    intro c
    have hsys : ∀ g, (c.putSys g).2 = false → (c.putSys g).1.sys = c.sys := by
      intro g
      unfold putSys
      cases hs : c.sys with
      | none => exact fun _ => hs
      | some s => exact fun h => Bool.noConfusion h
    unfold csrPut
    split
    all_goals first
      | exact hsys _
      | exact fun h => Bool.noConfusion h
      | skip
    · unfold putStatus
      dsimp only
      intro hok
      rw [hok, if_neg (by simp)]
      exact hsys _ hok
    · unfold putSatp
      cases hs : c.sys with
      | none => exact fun _ => hs
      | some s =>
        dsimp only
        split_ifs
        · exact fun _ => hs
        · exact nofun
    · unfold putStatus
      dsimp only
      intro hok
      rw [hok, if_neg (by simp)]
      exact hsys _ hok
    · split_ifs
      · exact hsys _
      · exact hsys _
      · exact fun _ => rfl
  unfold csrWrite at h ⊢
  dsimp only at h ⊢
  split_ifs at h ⊢
  · rfl
  · rfl
  · exact hput _ h

end Cpu

namespace Machine

variable {β : Type} [Bus β] {m m' : Machine β}

theorem exec_rank (m : Machine β) {o : HartOp} (h : Hart.RankKeeps o) : (exec o m).2.cpu.interruptRank = m.cpu.interruptRank := by
  have hf := (exec_frame busRel_true o m).2
  cases o with
  | cpu u =>
    cases u with
    | wr rd v => exact Cpu.control_rank (exec_control m (o := .cpu (.wr rd v)) trivial)
    | fpDirty => exact Cpu.control_rank (exec_control m (o := .cpu .fpDirty) trivial)
    | latch lines =>
      unfold exec Cpu.interruptRank CpuOp.apply Cpu.modifySys
      cases m.cpu.sys <;> rfl
    | trap cause tval isInterrupt => exact absurd h id
    | mret => exact absurd h id
    | sret => exact absurd h id
    | _ => rfl
  | csrWrite insn csr v => exact absurd h id
  | translate va access => unfold Cpu.interruptRank; rw [TlbOnly.sys hf]
  | translateFill va store => unfold Cpu.interruptRank; rw [TlbOnly.sys hf]
  | _ => rfl

/-- **What fails opens no interrupt.** -/
theorem late_rank {α : Type} {p : Hart α} (hp : Hart.OpensLast p) {e : Exception} (he : p.run exec m = (.error e, m')) :
    m'.cpu.interruptRank = m.cpu.interruptRank := by
  have h := Late.run_error (h := exec) (g := fun m : Machine β => m.cpu.interruptRank) (fun o m ho => exec_rank m ho)
    (fun o m e ho hr => ?_) (fun o m ho => ?_) hp (s := m) (e := e) (by rw [he])
  · rw [he] at h
    exact h
  · cases o with
    | csrWrite insn csr v =>
      have hok : (m.cpu.csrWrite csr v).2 = false := by
        by_contra hc
        have hr' : (if (m.cpu.csrWrite csr v).2 then (.ok () : Except Exception Unit) else .error (.illegalInstruction insn)) =
          .error e := hr
        rw [if_pos (by simpa using hc)] at hr'
        cases hr'
      change ((m.cpu.csrWrite csr v).1.sys.map SysCsrs.interruptRank).getD 0 = _
      rw [Cpu.csrWrite_refused _ _ _ hok]
      rfl
    | _ => exact absurd ho id
  · cases o with
    | cpu u => exact ⟨(), rfl⟩
    | _ => exact absurd ho id

/-! ## Attempts -/

/-- An attempt counts one, or traps: then it opens no interrupt. -/
structure Attempt (m m' : Machine β) : Prop where
  insnCount : m'.cpu.insnCount = m.cpu.insnCount + 1 ∨ m'.cpu.insnCount = m.cpu.insnCount
  rank : m'.cpu.insnCount = m.cpu.insnCount → m'.cpu.interruptRank ≤ m.cpu.interruptRank

theorem exceptionToTrap_run (e : Exception) (m : Machine β) :
    (Hart.exceptionToTrap e).run exec m = (.ok (), { m with cpu := m.cpu.takeTrap (m.cpu.causeOf e).1 (m.cpu.causeOf e).2 false }) :=
  rfl

theorem succ_ne (n : U64) : n + 1 ≠ n := by
  intro h
  have := congrArg (· - n) h
  simp at this

/-- **One iteration of `run`** is an attempt; what it stops for retired, but for an exception outside full-system mode. -/
theorem runOne_attempt (host : Option HostFp) (m : Machine β) :
    Attempt m (m.runOne host).2 ∧ ((m.runOne host).2.cpu.insnCount = m.cpu.insnCount →
      (m.runOne host).1 = none ∨ ∃ e, (m.runOne host).1 = some (.trap e)) := by
  obtain ⟨taken, m₁, hp, hpoll⟩ := poll_polled m
  have hcount := step_insnCount host m₁
  unfold runOne
  dsimp only
  rw [hp]
  dsimp only
  rcases hr : (Hart.step host).run exec m₁ with ⟨e | stop, m₂⟩ <;> rw [hr] at hcount <;> dsimp only at hcount ⊢
  · have hrank := late_rank (Hart.step_late host) hr
    by_cases hs : m.cpu.sys.isSome
    · rw [if_pos hs, exceptionToTrap_run]
      have hle := Cpu.takeTrap_rank_le m₂.cpu (m₂.cpu.causeOf e).1 (m₂.cpu.causeOf e).2 false
      have hi : (m₂.cpu.takeTrap (m₂.cpu.causeOf e).1 (m₂.cpu.causeOf e).2 false).insnCount = m.cpu.insnCount := by
        rw [(Cpu.clocks_takeTrap _ _ _ _).2, hcount, hpoll.insnCount]
      exact ⟨⟨Or.inr hi, fun _ => hle.trans (hrank.le.trans hpoll.rank)⟩, fun _ => Or.inl rfl⟩
    · rw [if_neg hs]
      exact ⟨⟨Or.inr (hcount.trans hpoll.insnCount), fun _ => hrank.le.trans hpoll.rank⟩, fun _ => Or.inr ⟨e, rfl⟩⟩
  · have hi : m₂.cpu.insnCount = m.cpu.insnCount + 1 := by rw [hcount, hpoll.insnCount]
    exact ⟨⟨Or.inl hi, fun h => absurd (hi.symm.trans h) (succ_ne _)⟩, fun h => absurd (hi.symm.trans h) (succ_ne _)⟩

/-- One iteration, as the loops issue it. -/
theorem run_one (host : Option HostFp) (m : Machine β) :
    m.run host 1 = (((m.runOne host).1).getD .budget, (m.runOne host).2) := by
  rw [run]
  rcases m.runOne host with ⟨_ | stop, m'⟩ <;> rfl

/-- What a run over a block does: so many instructions retired, and why it ended if none did. -/
structure BlockRun (block : List DecodedInsn) (m m' : Machine β) (out : DecodedRunOutcome) (k : ℕ) : Prop where
  le : k ≤ block.length
  insnCount : m'.cpu.insnCount = m.cpu.insnCount + BitVec.ofNat 64 k
  rank : k = 0 → m'.cpu.interruptRank ≤ m.cpu.interruptRank
  stalled : k = 0 → block = [] ∨ out = .trapped ∨ (∃ e, out = .stop (.trap e)) ∨
    out = .stop .budget ∧ m'.cpu.interruptRank < m.cpu.interruptRank

theorem executeOne_attempt (host : Option HostFp) (d : DecodedInsn) (m : Machine β) :
    Attempt m (m.executeOne host d).2 ∧ ((m.executeOne host d).2.cpu.insnCount = m.cpu.insnCount →
      (m.executeOne host d).1 = some .trapped ∨ ∃ e, (m.executeOne host d).1 = some (.stop (.trap e))) := by
  have hcount := executeDecoded_insnCount host d m
  unfold executeOne
  dsimp only
  rcases hr : (Hart.executeDecoded host d).run exec m with ⟨e | stop, m₁⟩ <;> rw [hr] at hcount <;> dsimp only at hcount ⊢
  · have hrank := late_rank (Hart.executeDecoded_late host d) hr
    by_cases hs : m.cpu.sys.isSome
    · rw [if_pos hs, exceptionToTrap_run]
      have hle := Cpu.takeTrap_rank_le m₁.cpu (m₁.cpu.causeOf e).1 (m₁.cpu.causeOf e).2 false
      have hi : (m₁.cpu.takeTrap (m₁.cpu.causeOf e).1 (m₁.cpu.causeOf e).2 false).insnCount = m.cpu.insnCount := by
        rw [(Cpu.clocks_takeTrap _ _ _ _).2, hcount]
      exact ⟨⟨Or.inr hi, fun _ => hle.trans hrank.le⟩, fun _ => Or.inl rfl⟩
    · rw [if_neg hs]
      exact ⟨⟨Or.inr hcount, fun _ => hrank.le⟩, fun _ => Or.inr ⟨e, rfl⟩⟩
  · exact ⟨⟨Or.inl hcount, fun h => absurd (hcount.symm.trans h) (succ_ne _)⟩,
      fun h => absurd (hcount.symm.trans h) (succ_ne _)⟩

/-- **A run over a block** retires at most its length, and without retiring it ends by a trap or an interrupt. -/
theorem runDecoded_blockRun (host : Option HostFp) (block : List DecodedInsn) (m : Machine β) :
    ∃ k, BlockRun block m (m.runDecoded host block).2 (m.runDecoded host block).1 k := by
  induction block generalizing m with
  | nil => exact ⟨0, le_rfl, (BitVec.add_zero _).symm, fun _ => le_rfl, fun _ => Or.inl rfl⟩
  | cons d rest ih =>
    obtain ⟨taken, m₁, hp, hpoll⟩ := pollTaken_polled m
    rw [runDecoded, hp]
    cases taken with
    | true =>
      exact ⟨0, Nat.zero_le _, by rw [hpoll.insnCount]; exact (BitVec.add_zero _).symm, fun _ => hpoll.rank,
        fun _ => Or.inr (Or.inr (Or.inr ⟨rfl, hpoll.taken rfl⟩))⟩
    | false =>
      obtain ⟨ha, hout⟩ := executeOne_attempt host d m₁
      dsimp only
      rcases hr : m₁.executeOne host d with ⟨out, m₂⟩
      rw [hr] at ha hout
      dsimp only at ha hout
      rcases ha.insnCount with hi | hi
      · have hone : m₂.cpu.insnCount = m.cpu.insnCount + BitVec.ofNat 64 1 := by rw [hi, hpoll.insnCount]; rfl
        have hdone : ∀ out, BlockRun (d :: rest) m m₂ out 1 := fun out =>
          ⟨by simp, hone, nofun, nofun⟩
        cases out with
        | some out => exact ⟨1, hdone out⟩
        | none =>
          dsimp only
          split_ifs
          · exact ⟨1, hdone _⟩
          · obtain ⟨k, hk⟩ := ih m₂
            refine ⟨k + 1, ⟨by have := hk.le; simp only [List.length_cons]; omega, ?_, nofun, nofun⟩⟩
            rw [hk.insnCount, hone, BitVec.add_assoc, ← BitVec.ofNat_add, Nat.add_comm 1 k]
      · have hzero : m₂.cpu.insnCount = m.cpu.insnCount + BitVec.ofNat 64 0 := by
          rw [hi, hpoll.insnCount]
          exact (BitVec.add_zero _).symm
        have hrank := (ha.rank hi).trans hpoll.rank
        rcases hout hi with rfl | ⟨e, rfl⟩
        · exact ⟨0, Nat.zero_le _, hzero, fun _ => hrank, fun _ => Or.inr (Or.inl rfl)⟩
        · exact ⟨0, Nat.zero_le _, hzero, fun _ => hrank, fun _ => Or.inr (Or.inr (Or.inl ⟨e, rfl⟩))⟩

end Machine
end Lish
