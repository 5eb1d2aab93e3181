import Lish.Core.Rank
/-!
# Priority — which interrupt is taken

The privileged architecture takes an interrupt destined for machine mode before any destined for supervisor mode.  The poll walks one
list for both, so that it takes the architecture's choice unless a delegated interrupt stands first while one for machine mode waits.
-/
namespace Lish

namespace SysCsrs

/-! ## The architecture's choice -/

/-- An interrupt is destined for supervisor mode. -/
def ForSupervisor (s : SysCsrs) (irq : ℕ) : Prop := s.mideleg.getLsbD irq = true

/-- Interrupts of the mode an interrupt is destined for are taken in the current mode. -/
def Unmasked (s : SysCsrs) (irq : ℕ) : Prop :=
  (s.ForSupervisor irq ∧ (s.mode = .user ∨ (s.mode = .supervisor ∧ s.mstatus &&& MSTATUS_SIE ≠ 0))) ∨
    (¬s.ForSupervisor irq ∧ (s.mode ≠ .machine ∨ s.mstatus &&& MSTATUS_MIE ≠ 0))

/-- An interrupt is pending and enabled, and its destination takes it. -/
def Waiting (s : SysCsrs) (irq : ℕ) : Prop := s.mip.getLsbD irq = true ∧ s.mie.getLsbD irq = true ∧ s.Unmasked irq

instance (s : SysCsrs) (irq : ℕ) : Decidable (s.ForSupervisor irq) := inferInstanceAs (Decidable (s.mideleg.getLsbD irq = true))

instance (s : SysCsrs) (irq : ℕ) : Decidable (s.Unmasked irq) :=
  inferInstanceAs (Decidable ((s.ForSupervisor irq ∧ (s.mode = .user ∨ (s.mode = .supervisor ∧ s.mstatus &&& MSTATUS_SIE ≠ 0))) ∨
    (¬s.ForSupervisor irq ∧ (s.mode ≠ .machine ∨ s.mstatus &&& MSTATUS_MIE ≠ 0))))

instance (s : SysCsrs) (irq : ℕ) : Decidable (s.Waiting irq) :=
  inferInstanceAs (Decidable (s.mip.getLsbD irq = true ∧ s.mie.getLsbD irq = true ∧ s.Unmasked irq))

/-- External, software, timer; of machine level, then of supervisor level. -/
def levelOrder : List ℕ := [11, 3, 7, 9, 1, 5]

/-- The interrupt that the architecture selects: one destined for machine mode before any other. -/
def selected (s : SysCsrs) : Option ℕ :=
  (levelOrder.find? fun irq => decide (s.Waiting irq ∧ ¬s.ForSupervisor irq)).or
    (levelOrder.find? fun irq => decide (s.Waiting irq ∧ s.ForSupervisor irq))

/-! ## Trap entry -/

/-- What a trap leaves of the state of the mode it enters; `e`, `pe` and `pp` are the bits of the enable, the previous enable and the
previous mode. -/
structure Stacked (s s' : SysCsrs) (e pe : ℕ) (pp : List ℕ) : Prop where
  enable : s'.mstatus.getLsbD e = false
  previous : s'.mstatus.getLsbD pe = s.mstatus.getLsbD e
  rest : ∀ i, i ≠ e → i ≠ pe → i ∉ pp → s'.mstatus.getLsbD i = s.mstatus.getLsbD i

/-- The trap of an interrupt into supervisor mode. -/
structure EntersSupervisor (irq : ℕ) (pc : U64) (s : SysCsrs) (pc' : U64) (s' : SysCsrs) : Prop where
  same : s' = { s with mode := s'.mode, mstatus := s'.mstatus, scause := s'.scause, stval := s'.stval, sepc := s'.sepc }
  mode : s'.mode = .supervisor
  cause : s'.scause = (1#64 <<< 63) ||| BitVec.ofNat 64 irq
  value : s'.stval = 0
  epc : s'.sepc = pc
  stacked : Stacked s s' 1 5 [8]
  previousMode : s'.mstatus.getLsbD 8 = decide (s.mode = .supervisor)
  vector : pc' = if s.stvec &&& 3 = 1 then (s.stvec &&& ~~~3) + 4 * BitVec.ofNat 64 irq else s.stvec &&& ~~~3

/-- The trap of an interrupt into machine mode. -/
structure EntersMachine (irq : ℕ) (pc : U64) (s : SysCsrs) (pc' : U64) (s' : SysCsrs) : Prop where
  same : s' = { s with mode := s'.mode, mstatus := s'.mstatus, mcause := s'.mcause, mtval := s'.mtval, mepc := s'.mepc }
  mode : s'.mode = .machine
  cause : s'.mcause = (1#64 <<< 63) ||| BitVec.ofNat 64 irq
  value : s'.mtval = 0
  epc : s'.mepc = pc
  stacked : Stacked s s' 3 7 [11, 12]
  previousMode : (s'.mstatus >>> 11) &&& 3 = s.mode.bits
  vector : pc' = if s.mtvec &&& 3 = 1 then (s.mtvec &&& ~~~3) + 4 * BitVec.ofNat 64 irq else s.mtvec &&& ~~~3

end SysCsrs

namespace Cpu

variable {c : Cpu} {s : SysCsrs} {irq : ℕ}

theorem mem_levelOrder (h : irq ∈ SysCsrs.levelOrder) : irq < 16 := by
  unfold SysCsrs.levelOrder at h
  simp only [List.mem_cons, List.not_mem_nil, or_false] at h
  omega

theorem oneShift_bit {k : ℕ} (hk : k < 64) (i : ℕ) : (1#64 <<< k).getLsbD i = decide (i = k) := by
  rw [← BitVec.twoPow_eq, BitVec.getLsbD_twoPow, decide_eq_true hk, Bool.true_and]
  exact decide_eq_decide.2 eq_comm

/-- One bit of a word, moved to another place. -/
theorem movedBit (v : U64) (a : ℕ) {n : ℕ} (hn : n < 64) (i : ℕ) : (((v >>> a) &&& 1) <<< n).getLsbD i = (decide (i = n) && v.getLsbD a) := by
  rw [BitVec.getLsbD_shiftLeft, BitVec.getLsbD_and, BitVec.getLsbD_ushiftRight, show (1 : U64) = 1#64 from rfl, BitVec.getLsbD_one]
  by_cases h : i = n
  · subst h
    simp [hn]
  · by_cases hlt : i < n
    · simp [h, hlt]
    · have : i - n ≠ 0 := by omega
      simp [h, this]

theorem trapToS_mstatus (s : SysCsrs) (pc causeVal tval : U64) (i : ℕ) : (trapToS s pc causeVal tval).mstatus.getLsbD i =
    if i = 1 then false else if i = 5 then s.mstatus.getLsbD 1 else if i = 8 then decide (s.mode = .supervisor) else s.mstatus.getLsbD i := by
  have hspp : (if s.mode = Mode.supervisor then MSTATUS_SPP else 0 : U64).getLsbD i = (decide (i = 8) && decide (s.mode = .supervisor)) := by
    split <;> rename_i hm
    · rw [MSTATUS_SPP, oneShift_bit (by decide), decide_eq_true hm, Bool.and_true]
    · rw [decide_eq_false hm, Bool.and_false]
      exact BitVec.getLsbD_zero
  unfold trapToS
  dsimp only
  rw [BitVec.getLsbD_or, BitVec.getLsbD_or, BitVec.getLsbD_and, BitVec.getLsbD_not, BitVec.getLsbD_or, BitVec.getLsbD_or, hspp,
    movedBit _ _ (by decide), MSTATUS_SPIE, MSTATUS_SPP, MSTATUS_SIE, oneShift_bit (by decide), oneShift_bit (by decide), oneShift_bit (by decide)]
  by_cases hi : i < 64
  · by_cases h1 : i = 1 <;> by_cases h5 : i = 5 <;> by_cases h8 : i = 8 <;> simp_all
  · rw [BitVec.getLsbD_of_ge _ _ (not_lt.1 hi)]
    simp [hi, show i ≠ 1 by omega, show i ≠ 5 by omega, show i ≠ 8 by omega]

theorem modeBits_bit (m : Mode) {j : ℕ} (hj : 2 ≤ j) : m.bits.getLsbD j = false := by
  rw [BitVec.getLsbD, Nat.testBit_lt_two_pow]
  have hlt : m.bits.toNat < 2 ^ 2 := by cases m <;> decide
  exact hlt.trans_le (Nat.pow_le_pow_right (by decide) hj)

theorem mppBit (i : ℕ) : MSTATUS_MPP.getLsbD i = decide (i = 11 ∨ i = 12) := by
  have h3 : (3#64) = (1#64 <<< 0) ||| (1#64 <<< 1) := rfl
  rw [MSTATUS_MPP, BitVec.getLsbD_shiftLeft, h3, BitVec.getLsbD_or, oneShift_bit (by decide), oneShift_bit (by decide)]
  by_cases h11 : i = 11
  · subst h11
    rfl
  · by_cases h12 : i = 12
    · subst h12
      rfl
    · by_cases hlt : i < 11
      · simp [h11, h12, hlt]
      · simp [h11, h12, show i - 11 ≠ 0 by omega, show i - 11 ≠ 1 by omega]

theorem trapToM_mstatus (s : SysCsrs) (pc causeVal tval : U64) (i : ℕ) : (trapToM s pc causeVal tval).mstatus.getLsbD i =
    if i = 3 then false else if i = 7 then s.mstatus.getLsbD 3 else if i = 11 then s.mode.bits.getLsbD 0
      else if i = 12 then s.mode.bits.getLsbD 1 else s.mstatus.getLsbD i := by
  unfold trapToM
  dsimp only
  rw [BitVec.getLsbD_or, BitVec.getLsbD_or, BitVec.getLsbD_and, BitVec.getLsbD_not, BitVec.getLsbD_or, BitVec.getLsbD_or, mppBit,
    movedBit _ _ (by decide), MSTATUS_MPIE, MSTATUS_MIE, oneShift_bit (by decide), oneShift_bit (by decide), BitVec.getLsbD_shiftLeft]
  by_cases hi : i < 64
  · by_cases h12 : 13 ≤ i
    · rw [modeBits_bit s.mode (show 2 ≤ i - 11 by omega)]
      simp [hi, show i ≠ 3 by omega, show i ≠ 7 by omega, show i ≠ 11 by omega, show i ≠ 12 by omega]
    · by_cases h3 : i = 3 <;> by_cases h7 : i = 7 <;> by_cases h11 : i = 11 <;> by_cases h12 : i = 12 <;> simp_all
      omega
  · rw [BitVec.getLsbD_of_ge _ _ (not_lt.1 hi)]
    simp [hi, show i ≠ 3 by omega, show i ≠ 7 by omega, show i ≠ 11 by omega, show i ≠ 12 by omega]

theorem trapVector_irq (tvec : U64) (irq : ℕ) : trapVector tvec (BitVec.ofNat 64 irq) true =
    if tvec &&& 3 = 1 then (tvec &&& ~~~3) + 4 * BitVec.ofNat 64 irq else tvec &&& ~~~3 := by
  unfold trapVector
  simp

theorem trapToS_enters (irq : ℕ) (s : SysCsrs) (pc : U64) :
    SysCsrs.EntersSupervisor irq pc s (trapVector s.stvec (BitVec.ofNat 64 irq) true) (trapToS s pc ((1#64 <<< 63) ||| BitVec.ofNat 64 irq) 0) where
  same := rfl
  mode := rfl
  cause := rfl
  value := rfl
  epc := rfl
  stacked := by
    refine ⟨trapToS_mstatus s _ _ _ 1, trapToS_mstatus s _ _ _ 5, fun i h1 h5 h8 => ?_⟩
    rw [trapToS_mstatus, if_neg h1, if_neg h5, if_neg (by simpa using h8)]
  previousMode := trapToS_mstatus s _ _ _ 8
  vector := trapVector_irq s.stvec irq

theorem trapToM_enters (irq : ℕ) (s : SysCsrs) (pc : U64) :
    SysCsrs.EntersMachine irq pc s (trapVector s.mtvec (BitVec.ofNat 64 irq) true) (trapToM s pc ((1#64 <<< 63) ||| BitVec.ofNat 64 irq) 0) where
  same := rfl
  mode := rfl
  cause := rfl
  value := rfl
  epc := rfl
  stacked := by
    refine ⟨trapToM_mstatus s _ _ _ 3, trapToM_mstatus s _ _ _ 7, fun i h3 h7 hp => ?_⟩
    simp only [List.mem_cons, List.not_mem_nil, or_false, not_or] at hp
    rw [trapToM_mstatus, if_neg h3, if_neg h7, if_neg hp.1, if_neg hp.2]
  previousMode := by
    refine BitVec.eq_of_getLsbD_eq fun j hj => ?_
    rw [BitVec.getLsbD_and, BitVec.getLsbD_ushiftRight, trapToM_mstatus]
    have h3 : (3 : U64) = (1#64 <<< 0) ||| (1#64 <<< 1) := rfl
    rw [h3, BitVec.getLsbD_or, oneShift_bit (by decide), oneShift_bit (by decide)]
    rcases Nat.lt_or_ge j 2 with h2 | h2
    · have : j = 0 ∨ j = 1 := by omega
      rcases this with rfl | rfl <;> simp
    · rw [modeBits_bit s.mode h2]
      simp [show j ≠ 0 by omega, show j ≠ 1 by omega]
  vector := trapVector_irq s.mtvec irq

/-- **A trap** of an interrupt enters the mode it is destined for. -/
theorem takeTrap_enters (hs : c.sys = some s) (hi : irq ∈ SysCsrs.levelOrder) (hu : s.Unmasked irq) :
    ∃ s', (c.takeTrap (BitVec.ofNat 64 irq) 0 true).sys = some s' ∧ (c.takeTrap (BitVec.ofNat 64 irq) 0 true).x = c.x ∧
      (c.takeTrap (BitVec.ofNat 64 irq) 0 true).f = c.f ∧
        (s.ForSupervisor irq → SysCsrs.EntersSupervisor irq c.pc s (c.takeTrap (BitVec.ofNat 64 irq) 0 true).pc s') ∧
          (¬s.ForSupervisor irq → SysCsrs.EntersMachine irq c.pc s (c.takeTrap (BitVec.ofNat 64 irq) 0 true).pc s') := by
  have hlt : (BitVec.ofNat 64 irq &&& 63).toNat = irq := by
    unfold SysCsrs.levelOrder at hi
    simp only [List.mem_cons, List.not_mem_nil, or_false] at hi
    rcases hi with rfl | rfl | rfl | rfl | rfl | rfl <;> rfl
  have hdeleg : delegated s (BitVec.ofNat 64 irq) true = decide (s.ForSupervisor irq) := by
    unfold delegated
    dsimp only
    rw [hlt, if_pos rfl]
    refine decide_eq_decide.2 ⟨fun h => getLsbD_of_and_bit h.2, fun h => ⟨?_, fun hz => ?_⟩⟩
    · rcases hu with ⟨-, hm | hm⟩ | ⟨hn, -⟩
      · rw [hm]
        exact Mode.noConfusion
      · rw [hm.1]
        exact Mode.noConfusion
      · exact absurd h hn
    · have hbit : (s.mideleg &&& (1#64 <<< irq)).getLsbD irq = true := by
        rw [BitVec.getLsbD_and, oneShift_bit (by have := mem_levelOrder hi; omega), h]
        simp
      rw [hz] at hbit
      simp at hbit
  have hcount : ({ c with irqPollCd := 0, reservation := none }.countTrap (BitVec.ofNat 64 irq) true).sys = some s := by
    rw [(sys_countTrap _ _ _).1]
    exact hs
  unfold takeTrap
  dsimp only
  rw [hcount]
  dsimp only
  rw [hdeleg, if_pos rfl]
  by_cases hd : s.ForSupervisor irq
  · rw [if_pos (decide_eq_true hd)]
    exact ⟨_, rfl, rfl, rfl, fun _ => trapToS_enters irq s c.pc, fun hn => absurd hd hn⟩
  · rw [if_neg (by simpa using hd)]
    exact ⟨_, rfl, rfl, rfl, fun hn => absurd hn hd, fun _ => trapToM_enters irq s c.pc⟩

end Cpu

namespace Machine

open Hart

variable {β : Type} [Bus β] {m : Machine β} {s : SysCsrs}

/-! ## The poll -/

/-- The privileged state with the hardware bits of mip refreshed from the bus. -/
def refreshed (s : SysCsrs) (lines : U64) : SysCsrs :=
  { s with mip := (s.mip &&& ~~~(IRQ_MTIP ||| IRQ_MSIP ||| IRQ_MEIP ||| IRQ_SEIP)) ||| (lines &&& (IRQ_MTIP ||| IRQ_MSIP ||| IRQ_MEIP ||| IRQ_SEIP)) }

/-- The poll takes the architecture's choice: nothing else changes where there is none, and one trap is entered where there is one. -/
def TakesSelected (m : Machine β) (s : SysCsrs) : Prop :=
  match s.selected with
  | none => checkInterrupts.run exec m = (.ok false, { cpu := { m.cpu with sys := some s }, bus := (Bus.irqLines m.bus).2 })
  | some irq => ∃ c' s', checkInterrupts.run exec m = (.ok true, { cpu := c', bus := (Bus.irqLines m.bus).2 }) ∧ c'.sys = some s' ∧
      c'.x = m.cpu.x ∧ c'.f = m.cpu.f ∧ (s.ForSupervisor irq → SysCsrs.EntersSupervisor irq m.cpu.pc s c'.pc s') ∧
        (¬s.ForSupervisor irq → SysCsrs.EntersMachine irq m.cpu.pc s c'.pc s')

/-- The first interrupt of the list that waits is for machine mode, or none is. -/
def MachineFirst (s : SysCsrs) : Prop :=
  ∀ d, SysCsrs.levelOrder.find? (fun irq => decide (s.Waiting irq)) = some d → s.ForSupervisor d →
    ∀ irq ∈ SysCsrs.levelOrder, s.Waiting irq → s.ForSupervisor irq

theorem deliverable_eq (s : SysCsrs) (irq : ℕ) : deliverable s irq = decide (s.Waiting irq) := by
  rw [Bool.eq_iff_iff, decide_eq_true_iff]
  unfold deliverable SysCsrs.Waiting SysCsrs.Unmasked SysCsrs.ForSupervisor
  dsimp only
  rw [Bool.and_eq_true, BitVec.getLsbD_and, Bool.and_eq_true, and_assoc]
  refine and_congr_right fun _ => and_congr_right fun _ => ?_
  by_cases hb : s.mideleg.getLsbD irq = true
  · rw [if_pos hb, decide_eq_true_iff]
    tauto
  · rw [if_neg hb, decide_eq_true_iff]
    tauto

theorem checkInterrupts_run {s₀ : SysCsrs} (hs : m.cpu.sys = some s₀) : checkInterrupts.run exec m =
    (takeInterrupt (refreshed s₀ (Bus.irqLines m.bus).1)).run exec
      { cpu := { m.cpu with sys := some (refreshed s₀ (Bus.irqLines m.bus).1) }, bus := (Bus.irqLines m.bus).2 } := by
  have hsys : (CpuOp.latch (Bus.irqLines m.bus).1).apply m.cpu = { m.cpu with sys := some (refreshed s₀ (Bus.irqLines m.bus).1) } := by
    unfold CpuOp.apply Cpu.modifySys
    dsimp only
    rw [hs]
    rfl
  have hlines : exec .irqLines m = (.ok (Bus.irqLines m.bus).1, { m with bus := (Bus.irqLines m.bus).2 }) := rfl
  unfold checkInterrupts
  simp only [Program.bind_eq]
  rw [run_get, hs, if_neg (by simp), Hart.irqLines, Program.op_bind, Program.run_op_ok hlines, Program.pure_bind, run_upd, run_get]
  dsimp only
  rw [hsys]

/-- The first of those that wait is the choice, if it is for machine mode or all are for supervisor mode. -/
theorem selected_first (l : List ℕ) (s : SysCsrs) {d : ℕ} (hd : l.find? (fun irq => decide (s.Waiting irq)) = some d)
    (h : s.ForSupervisor d → ∀ irq ∈ l, s.Waiting irq → s.ForSupervisor irq) :
    ((l.find? fun irq => decide (s.Waiting irq ∧ ¬s.ForSupervisor irq)).or (l.find? fun irq => decide (s.Waiting irq ∧ s.ForSupervisor irq))) =
      some d := by
  induction l with
  | nil => cases hd
  | cons a l ih =>
    rw [List.find?_cons] at hd
    rw [List.find?_cons, List.find?_cons]
    by_cases hw : s.Waiting a
    · rw [decide_eq_true hw] at hd
      obtain rfl := Option.some.inj hd
      by_cases hf : s.ForSupervisor a
      · have hnone : l.find? (fun irq => decide (s.Waiting irq ∧ ¬s.ForSupervisor irq)) = none :=
          List.find?_eq_none.2 fun irq hi hn =>
            (of_decide_eq_true hn).2 (h hf irq (List.mem_cons_of_mem a hi) (of_decide_eq_true hn).1)
        rw [decide_eq_false fun hn => hn.2 hf, decide_eq_true ⟨hw, hf⟩, hnone]
        rfl
      · rw [decide_eq_true ⟨hw, hf⟩]
        rfl
    · rw [decide_eq_false hw] at hd
      rw [decide_eq_false fun hn => hw hn.1, decide_eq_false fun hn => hw hn.1]
      exact ih hd fun hf irq hi => h hf irq (List.mem_cons_of_mem a hi)

theorem selected_none (l : List ℕ) (s : SysCsrs) (hd : l.find? (fun irq => decide (s.Waiting irq)) = none) :
    ((l.find? fun irq => decide (s.Waiting irq ∧ ¬s.ForSupervisor irq)).or (l.find? fun irq => decide (s.Waiting irq ∧ s.ForSupervisor irq))) =
      none := by
  have hno : ∀ irq ∈ l, ¬s.Waiting irq := fun irq hi hw => List.find?_eq_none.1 hd irq hi (decide_eq_true hw)
  rw [List.find?_eq_none.2 fun irq hi hn => hno irq hi (of_decide_eq_true hn).1,
    List.find?_eq_none.2 fun irq hi hn => hno irq hi (of_decide_eq_true hn).1]
  rfl

theorem takeInterrupt_none (hd : SysCsrs.levelOrder.find? (fun irq => decide (s.Waiting irq)) = none) (m : Machine β) :
    (takeInterrupt s).run exec m = (.ok false, m) := by
  unfold takeInterrupt
  rw [funext (deliverable_eq s), show irqPriority = SysCsrs.levelOrder from rfl, hd]
  rfl

theorem takeInterrupt_some {d : ℕ} (hd : SysCsrs.levelOrder.find? (fun irq => decide (s.Waiting irq)) = some d) (m : Machine β) :
    (takeInterrupt s).run exec m = (.ok true, { m with cpu := m.cpu.takeTrap (BitVec.ofNat 64 d) 0 true }) := by
  unfold takeInterrupt
  rw [funext (deliverable_eq s), show irqPriority = SysCsrs.levelOrder from rfl, hd]
  rfl

theorem takesSelected_of_machineFirst {s₀ : SysCsrs} (hs : m.cpu.sys = some s₀) (hfirst : MachineFirst (refreshed s₀ (Bus.irqLines m.bus).1)) :
    TakesSelected m (refreshed s₀ (Bus.irqLines m.bus).1) := by
  obtain ⟨s, hs'⟩ : ∃ s, s = refreshed s₀ (Bus.irqLines m.bus).1 := ⟨_, rfl⟩
  have hrun := checkInterrupts_run hs
  rw [← hs'] at hrun hfirst ⊢
  unfold TakesSelected
  cases hd : SysCsrs.levelOrder.find? (fun irq => decide (s.Waiting irq)) with
  | none =>
    have hsel : s.selected = none := selected_none _ s hd
    rw [takeInterrupt_none hd] at hrun
    rw [hsel]
    exact hrun
  | some d =>
    have hsel : s.selected = some d := selected_first _ s hd (hfirst d hd)
    have hwait : s.Waiting d := of_decide_eq_true (List.find?_some (p := fun irq => decide (s.Waiting irq)) hd)
    obtain ⟨s', hsys, hx, hf, hsup, hmach⟩ :=
      Cpu.takeTrap_enters (c := { m.cpu with sys := some s }) rfl (List.mem_of_find?_eq_some hd) hwait.2.2
    rw [takeInterrupt_some hd] at hrun
    rw [hsel]
    exact ⟨_, s', hrun, hsys, hx, hf, hsup, hmach⟩

/-- Where a delegated interrupt stands before one for machine mode, the poll enters supervisor mode. -/
theorem machineFirst_of_takesSelected {s₀ : SysCsrs} (hs : m.cpu.sys = some s₀) (ht : TakesSelected m (refreshed s₀ (Bus.irqLines m.bus).1)) :
    MachineFirst (refreshed s₀ (Bus.irqLines m.bus).1) := by
  obtain ⟨s, hs'⟩ : ∃ s, s = refreshed s₀ (Bus.irqLines m.bus).1 := ⟨_, rfl⟩
  have hrun := checkInterrupts_run hs
  rw [← hs'] at hrun ht ⊢
  intro d hd hfor irq hi hw
  by_contra hnot
  have hwait : s.Waiting d := of_decide_eq_true (List.find?_some (p := fun irq => decide (s.Waiting irq)) hd)
  obtain ⟨s', hsys, -, -, hsup, -⟩ :=
    Cpu.takeTrap_enters (c := { m.cpu with sys := some s }) rfl (List.mem_of_find?_eq_some hd) hwait.2.2
  rw [takeInterrupt_some hd] at hrun
  -- the architecture would enter machine mode
  have hsome : (SysCsrs.levelOrder.find? fun irq => decide (s.Waiting irq ∧ ¬s.ForSupervisor irq)).isSome :=
    List.find?_isSome.2 ⟨irq, hi, decide_eq_true ⟨hw, hnot⟩⟩
  obtain ⟨j, hj⟩ := Option.isSome_iff_exists.1 hsome
  have hjm : ¬s.ForSupervisor j := (of_decide_eq_true (List.find?_some (p := fun irq => decide (s.Waiting irq ∧ ¬s.ForSupervisor irq)) hj)).2
  have hsel : s.selected = some j := by
    unfold SysCsrs.selected
    rw [hj]
    rfl
  unfold TakesSelected at ht
  rw [hsel] at ht
  obtain ⟨c', s'', hr, hsys', -, -, -, hm⟩ := ht
  rw [hrun] at hr
  have hc : c' = Cpu.takeTrap { m.cpu with sys := some s } (BitVec.ofNat 64 d) 0 true := (congrArg (fun r => r.2.cpu) hr).symm
  rw [hc, hsys] at hsys'
  obtain rfl := Option.some.inj hsys'
  have hmode := (hsup hfor).mode
  rw [(hm hjm).mode] at hmode
  cases hmode

/-- **The poll takes the architecture's choice** exactly where no delegated interrupt stands before one for machine mode. -/
theorem takes_selected_iff (m : Machine β) (s₀ : SysCsrs) (hs : m.cpu.sys = some s₀) :
    TakesSelected m (refreshed s₀ (Bus.irqLines m.bus).1) ↔ MachineFirst (refreshed s₀ (Bus.irqLines m.bus).1) :=
  ⟨machineFirst_of_takesSelected hs, takesSelected_of_machineFirst hs⟩

/-- A user-mode hart whose supervisor software interrupt is delegated and whose supervisor timer interrupt is not. -/
def waitingHart (mip : U64) : SysCsrs :=
  { SysCsrs.new with mode := .user, mideleg := IRQ_SSIP, mie := IRQ_SSIP ||| IRQ_STIP, mip := mip }

theorem takes_selected_iff_timer :
    TakesSelected (β := FlatMemory) ⟨{ Cpu.new with sys := some (waitingHart IRQ_STIP) }, .empty⟩ (refreshed (waitingHart IRQ_STIP) 0) :=
  (takes_selected_iff (β := FlatMemory) ⟨{ Cpu.new with sys := some (waitingHart IRQ_STIP) }, .empty⟩ (waitingHart IRQ_STIP) rfl).2 (by
    intro d hd hf
    obtain rfl : 5 = d := Option.some.inj hd
    exact absurd hf (by decide))

/-- The delegated software interrupt is taken before the timer interrupt for machine mode. -/
theorem delegated_before_machine : ¬∀ (m : Machine FlatMemory) (s : SysCsrs), m.cpu.sys = some s →
    TakesSelected m (refreshed s (Bus.irqLines m.bus).1) := by
  intro hall
  obtain ⟨m, hm⟩ : ∃ m : Machine FlatMemory, m = ⟨{ Cpu.new with sys := some (waitingHart (IRQ_SSIP ||| IRQ_STIP)) }, .empty⟩ := ⟨_, rfl⟩
  have hs : m.cpu.sys = some (waitingHart (IRQ_SSIP ||| IRQ_STIP)) := by rw [hm]
  have hfirst := machineFirst_of_takesSelected hs (hall m _ hs)
  rw [hm] at hfirst
  have hsup : (refreshed (waitingHart (IRQ_SSIP ||| IRQ_STIP)) 0).ForSupervisor 5 := hfirst 1 (by decide) (by decide) 5 (by decide) (by decide)
  exact absurd hsup (by decide)

end Machine
end Lish
