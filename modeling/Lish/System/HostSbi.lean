import Lish.Core.Tlb
import Lish.System.VirtMachine
/-!
# HostSbi — the supervisor calls the host answers

What a call asks of the one hart is read off its extension and function; the contract says what the hart has to be afterwards.
-/
namespace Lish
namespace VirtMachine

/-! ## What a call asks for -/

/-- What a supervisor call asks the hart itself to do. -/
inductive SbiKind
  | timer | ipi | fenceI | fenceVma | other
  deriving DecidableEq

def sbiKind (ext function : U64) : SbiKind :=
  match ext.toNat, function.toNat with
  | SBI_TIME, 0 | 0, _ => .timer
  | SBI_IPI, 0 | 4, _ => .ipi
  | SBI_RFENCE, 0 | 5, _ => .fenceI
  | SBI_RFENCE, 1 | SBI_RFENCE, 2 | 6, _ | 7, _ => .fenceVma
  | _, _ => .other

/-- A call of SBI 0.1. -/
def legacyCall (ext : U64) : Prop := ext.toNat ≤ 8

instance (ext : U64) : Decidable (legacyCall ext) := inferInstanceAs (Decidable (_ ≤ _))

/-- The mask of a call selects hart 0: it follows its base, or is all harts; a call of SBI 0.1 gives the address of the mask,
  read as `load`
says. -/
def selectsHart (load : U64 → Option U64) (ext mask base : U64) : Prop :=
  if legacyCall ext then ∃ v, load mask = some v ∧ v.getLsbD 0 = true
  else base = BitVec.allOnes 64 ∨ base = 0 ∧ mask.getLsbD 0 = true

/-- The range of addresses a remote SFENCE.VMA names is not empty; both of 0 name every address. -/
def namesPages (start size : U64) : Prop := size ≠ 0 ∨ start = 0

/-- A page lies in the range. -/
def inRange (start size page : U64) : Prop :=
  (start = 0 ∧ size = 0) ∨ size = BitVec.allOnes 64 ∨
    size ≠ 0 ∧ start.toNat < (page.toNat + 1) * 4096 ∧ page.toNat * 4096 < start.toNat + size.toNat

/-- An interrupt is pending. -/
def irqPends (m : VirtMachine) (irq : U64) : Prop := ∃ s, m.hart.cpu.sys = some s ∧ s.mip &&& irq ≠ 0

section Call

variable (load : U64 → Option U64) (m : VirtMachine)

/-- The kind of the call that the registers hold. -/
def calledKind : SbiKind := sbiKind (m.hart.cpu.x 17) (m.hart.cpu.x 16)

def calledSelects : Prop := selectsHart load (m.hart.cpu.x 17) (m.hart.cpu.x 10) (m.hart.cpu.x 11)

/-- Start and size of a remote SFENCE.VMA. -/
def calledRange : U64 × U64 :=
  if legacyCall (m.hart.cpu.x 17) then (m.hart.cpu.x 11, m.hart.cpu.x 12) else (m.hart.cpu.x 12, m.hart.cpu.x 13)

/-- Error and value of the call. -/
def callResult : U64 × U64 :=
  let r := m.sbiCall (m.hart.cpu.x 17) (m.hart.cpu.x 16) (m.hart.cpu.x 10) (m.hart.cpu.x 11)
  (r.1, r.2.1)

/-- The interrupts a call may change. -/
def calledIrqs : U64 :=
  match m.calledKind with
  | .timer => IRQ_STIP
  | .ipi => IRQ_SSIP
  | _ => 0

/-- **The contract** of a supervisor call, with the machine after it. -/
structure ObeysSbi (m' : VirtMachine) : Prop where
  timer : m.calledKind = .timer → (m'.irqPends IRQ_STIP ↔ m.hart.bus.mtime ≥ m.hart.cpu.x 10)
  ipi : m.calledKind = .ipi → calledSelects load m → m'.irqPends IRQ_SSIP
  /-- A remote FENCE.I has the effect of a local one, on the harts of its mask. -/
  fenceI : m.calledKind = .fenceI → calledSelects load m → m'.hart.cpu.icacheGen = m.hart.cpu.icacheGen + 1
  noFenceI : m.calledKind = .fenceI → ¬calledSelects load m → m'.hart.cpu.icacheGen = m.hart.cpu.icacheGen
  /-- A remote SFENCE.VMA drops the translations of its range, and lets those of code be verified again. -/
  fenceVma : m.calledKind = .fenceVma → calledSelects load m → namesPages m.calledRange.1 m.calledRange.2 →
    m'.hart.cpu.mapGen ≠ m.hart.cpu.mapGen ∧
      ∀ q : Query, inRange m.calledRange.1 m.calledRange.2 q.page → m'.hart.cpu.tlb q = none ∧ m'.hart.cpu.jtlb q = none
  noFenceVma : m.calledKind = .fenceVma → ¬calledSelects load m →
    m'.hart.cpu.mapGen = m.hart.cpu.mapGen ∧ m'.hart.cpu.tlbTag = m.hart.cpu.tlbTag ∧ m'.hart.cpu.jtlbTag = m.hart.cpu.jtlbTag
  legacy : legacyCall (m.hart.cpu.x 17) → m'.hart.cpu.x 10 = m.callResult.2 ∧ m'.hart.cpu.x 11 = m.hart.cpu.x 11
  result : ¬legacyCall (m.hart.cpu.x 17) → m'.hart.cpu.x 10 = m.callResult.1 ∧ m'.hart.cpu.x 11 = m.callResult.2
  registers : (∀ r, r ≠ 10 → r ≠ 11 → m'.hart.cpu.x r = m.hart.cpu.x r) ∧ m'.hart.cpu.pc = m.hart.cpu.pc ∧
    m'.hart.cpu.f = m.hart.cpu.f ∧ m'.hart.cpu.fcsr = m.hart.cpu.fcsr
  /-- No CSR changes but the interrupt of the call. -/
  csrs : ∀ s, m.hart.cpu.sys = some s → ∃ mip, m'.hart.cpu.sys = some { s with mip := mip } ∧
    mip &&& ~~~m.calledIrqs = s.mip &&& ~~~m.calledIrqs

/-- The calls that the host answers as the contract says. -/
structure Answered : Prop where
  ipi : m.calledKind = .ipi → calledSelects load m → m.irqPends IRQ_SSIP
  fenceI : m.calledKind = .fenceI → calledSelects load m
  fenceVma : m.calledKind = .fenceVma → calledSelects load m → ¬namesPages m.calledRange.1 m.calledRange.2
  legacy : legacyCall (m.hart.cpu.x 17) → (m.hart.cpu.x 17).toNat ≠ 2 ∧ m.hart.cpu.x 11 = 0

end Call

/-! ## What a call does -/

variable {m : VirtMachine} {load : U64 → Option U64} {s : SysCsrs}

/-- **The hart after a call**: a timer's interrupt follows the deadline, a fence of instructions is counted,
  and nothing else is done. -/
theorem sbiCall_cpu (m : VirtMachine) (ext function arg0 arg1 : U64) :
    (m.sbiCall ext function arg0 arg1).2.2.hart.cpu =
      if sbiKind ext function = .timer then m.hart.cpu.modifySys (setStip { m.hart.bus with mtimecmp := arg0 })
      else if sbiKind ext function = .fenceI then { m.hart.cpu with icacheGen := m.hart.cpu.icacheGen + 1 }
      else m.hart.cpu := by
  unfold sbiCall
  split
  all_goals try
    rename_i hext hfun
    simp only [sbiKind, hext, hfun]
    rfl
  all_goals try
    rename_i hext
    simp only [sbiKind, hext]
    rfl
  -- a reset, which may be refused
  rename_i hext hfun
  simp only [sbiKind, hext, hfun]
  by_cases hreset : arg0 ≤ 2
  · rw [if_pos hreset]
    rfl
  · rw [if_neg hreset]
    rfl

/-- Error and value of a call of SBI 0.1. -/
theorem sbiCall_legacy (m : VirtMachine) {ext : U64} (h : legacyCall ext) (function arg0 arg1 : U64) :
    (m.sbiCall ext function arg0 arg1).1 = 0 ∧
      (m.sbiCall ext function arg0 arg1).2.1 = if ext.toNat = 2 then BitVec.allOnes 64 else 0 := by
  unfold legacyCall at h
  have hext : ext.toNat = 0 ∨ ext.toNat = 1 ∨ ext.toNat = 2 ∨ ext.toNat = 3 ∨ ext.toNat = 4 ∨ ext.toNat = 5 ∨ ext.toNat = 6 ∨
      ext.toNat = 7 ∨ ext.toNat = 8 := by omega
  rcases hext with hext | hext | hext | hext | hext | hext | hext | hext | hext
  all_goals
    unfold sbiCall
    rw [hext]
    exact ⟨rfl, rfl⟩

theorem serviceSbi_x (m : VirtMachine) (r : Fin 32) : m.serviceSbi.hart.cpu.x r =
    if r = 10 then m.callResult.1 else if r = 11 then m.callResult.2 else m.hart.cpu.x r := by
  have hx : (m.sbiCall (m.hart.cpu.x 17) (m.hart.cpu.x 16) (m.hart.cpu.x 10) (m.hart.cpu.x 11)).2.2.hart.cpu.x = m.hart.cpu.x := by
    rw [sbiCall_cpu]
    split_ifs <;> rfl
  rw [← hx]
  rfl

/-- The hart after a call but for its registers. -/
theorem serviceSbi_cpu (m : VirtMachine) : { m.serviceSbi.hart.cpu with x := m.hart.cpu.x } =
    if m.calledKind = .timer then m.hart.cpu.modifySys (setStip { m.hart.bus with mtimecmp := m.hart.cpu.x 10 })
    else if m.calledKind = .fenceI then { m.hart.cpu with icacheGen := m.hart.cpu.icacheGen + 1 }
    else m.hart.cpu := by
  have h := sbiCall_cpu m (m.hart.cpu.x 17) (m.hart.cpu.x 16) (m.hart.cpu.x 10) (m.hart.cpu.x 11)
  have hc : { m.serviceSbi.hart.cpu with x := m.hart.cpu.x } =
      { (m.sbiCall (m.hart.cpu.x 17) (m.hart.cpu.x 16) (m.hart.cpu.x 10)
        (m.hart.cpu.x 11)).2.2.hart.cpu with x := m.hart.cpu.x } := rfl
  rw [hc, h]
  unfold calledKind
  split_ifs <;> rfl

/-- A call that is no timer leaves the CSRs. -/
theorem serviceSbi_sys (h : m.calledKind ≠ .timer) : m.serviceSbi.hart.cpu.sys = m.hart.cpu.sys := by
  have hc := congrArg Cpu.sys (serviceSbi_cpu m)
  rw [if_neg h] at hc
  refine hc.trans ?_
  split_ifs <;> rfl

/-- A call fences no translations. -/
theorem serviceSbi_tlb (m : VirtMachine) : m.serviceSbi.hart.cpu.mapGen = m.hart.cpu.mapGen ∧
    m.serviceSbi.hart.cpu.tlbTag = m.hart.cpu.tlbTag ∧ m.serviceSbi.hart.cpu.jtlbTag = m.hart.cpu.jtlbTag := by
  have hc := serviceSbi_cpu m
  refine ⟨(congrArg Cpu.mapGen hc).trans ?_, (congrArg Cpu.tlbTag hc).trans ?_, (congrArg Cpu.jtlbTag hc).trans ?_⟩ <;>
    split_ifs <;> rfl

theorem serviceSbi_fenceI (h : m.calledKind = .fenceI) : m.serviceSbi.hart.cpu.icacheGen = m.hart.cpu.icacheGen + 1 := by
  have hc := congrArg Cpu.icacheGen (serviceSbi_cpu m)
  rwa [if_neg (by rw [h]; decide), if_pos h] at hc

/-- A timer sets its interrupt if the deadline has been reached. -/
theorem serviceSbi_timer (h : m.calledKind = .timer) (hs : m.hart.cpu.sys = some s) : m.serviceSbi.hart.cpu.sys =
    some { s with mip := if m.hart.bus.mtime ≥ m.hart.cpu.x 10 then s.mip ||| IRQ_STIP else s.mip &&& ~~~IRQ_STIP } := by
  have hc := congrArg Cpu.sys (serviceSbi_cpu m)
  rw [if_pos h] at hc
  refine hc.trans ?_
  unfold Cpu.modifySys
  rw [hs]
  rfl

/-! ## The contract -/

/-- A line that is set, or cleared. -/
theorem setLine (v mask : U64) : (v ||| mask) &&& mask = mask ∧ (v ||| mask) &&& ~~~mask = v &&& ~~~mask ∧
    (v &&& ~~~mask) &&& mask = 0#64 ∧ (v &&& ~~~mask) &&& ~~~mask = v &&& ~~~mask := by
  refine ⟨?_, ?_, ?_, ?_⟩ <;>
    · ext i hi
      simp only [BitVec.getElem_and, BitVec.getElem_or, BitVec.getElem_not, BitVec.getElem_zero]
      cases v[i] <;> cases mask[i] <;> rfl

/-- The timer's interrupt pends exactly if the deadline has been reached. -/
theorem timer_pends (h : m.calledKind = .timer) (hs : m.hart.cpu.sys = some s) :
    m.serviceSbi.irqPends IRQ_STIP ↔ m.hart.bus.mtime ≥ m.hart.cpu.x 10 := by
  have hsys := serviceSbi_timer h hs
  have hset := setLine s.mip IRQ_STIP
  unfold irqPends
  rw [hsys]
  by_cases hdue : m.hart.bus.mtime ≥ m.hart.cpu.x 10
  · refine ⟨fun _ => hdue, fun _ => ⟨_, rfl, ?_⟩⟩
    dsimp only
    rw [if_pos hdue, hset.1]
    decide
  · refine ⟨fun ⟨s', hs', hne⟩ => absurd ?_ hne, fun h => absurd h hdue⟩
    obtain rfl := Option.some.inj hs'
    dsimp only
    rw [if_neg hdue, hset.2.2.1]
    rfl

/-- No CSR changes but a timer's interrupt. -/
theorem serviceSbi_csrs (hs : m.hart.cpu.sys = some s) : ∃ mip, m.serviceSbi.hart.cpu.sys = some { s with mip := mip } ∧
    mip &&& ~~~m.calledIrqs = s.mip &&& ~~~m.calledIrqs := by
  by_cases h : m.calledKind = .timer
  · refine ⟨_, serviceSbi_timer h hs, ?_⟩
    have hirq : m.calledIrqs = IRQ_STIP := by
      unfold calledIrqs
      rw [h]
    have hset := setLine s.mip IRQ_STIP
    rw [hirq]
    split_ifs
    · exact hset.2.1
    · exact hset.2.2.2
  · exact ⟨s.mip, (serviceSbi_sys h).trans hs, rfl⟩

theorem irqPends_serviceSbi (h : m.calledKind ≠ .timer) (irq : U64) : m.serviceSbi.irqPends irq ↔ m.irqPends irq := by
  unfold irqPends
  rw [serviceSbi_sys h]

/-- A machine booted without firmware, in a call. -/
def calling (ext function arg0 arg1 : U64) : VirtMachine :=
  (VirtMachine.new ⟨4096, fun _ => 0, 0, RAM_page_fits, ptr_page_fits⟩ [] true 0 0 0).mapCpu fun c =>
    { c with x := fun r => if r = 17 then ext else if r = 16 then function else if r = 10 then arg0 else if r = 11 then
      arg1 else 0 }

end VirtMachine
end Lish
