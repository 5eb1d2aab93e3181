import Lish.Core.Retire
import Lish.System.Slices
/-!
# Idle — what a waiting hart misses

WFI looks at the pending bits of the last poll, the slice then moves the clock.  A slice that ends idle has missed a wake-up
exactly if a device line was up at the WFI, or the deadline has passed at the sync.
-/
namespace Lish

open Machine Program

/-! ## WFI -/

/-- No interrupt is pending and enabled, as of the last poll. -/
def Waits (h : Machine VirtBus) : Prop := ∃ s, h.cpu.sys = some s ∧ s.mip &&& s.mie = 0

namespace Hart

/-- Execution does not stop in WFI. -/
def Awake : Next → Prop
  | .to _ stop => stop ≠ some .wfi
  | .trapped => True

theorem execSystem_awake (c : Cpu) {insn : U32} (seq : U64) (h : insn ≠ 0x10500073) :
    Shape (fun _ => True) Awake (execSystem c insn seq) := by
  have hany : ∀ {p : Hart Unit} {P : HartOp → Prop}, Shape P (fun _ => True) p →
      Shape (fun _ => True) Awake (p.bind fun _ => .pure (.to seq none)) :=
    fun hp => (hp.mono (fun _ _ => trivial) fun _ h => h).bind fun _ _ => .pure nofun
  unfold execSystem
  split_ifs
  · unfold execEcall
    cases c.sys with
    | none => exact .pure (fun h => nomatch h)
    | some s =>
      dsimp only
      split_ifs
      · exact .pure (fun h => nomatch h)
      · exact (shape_upd trivial).bind fun _ _ => (shape_upd trivial).bind fun _ _ => .pure trivial
  · exact .throw _
  · exact .pure (fun h => nomatch h)
  · refine (shape_upd trivial).bind fun _ _ => (shape_require insn c.sys fun _ _ => trivial).bind fun s _ => ?_
    split_ifs
    · exact .throw _
    · exact (shape_upd trivial).bind fun _ _ => .pure nofun
  · refine (shape_upd trivial).bind fun _ _ => (shape_require insn c.sys fun _ _ => trivial).bind fun s _ => ?_
    split_ifs
    · exact .throw _
    · exact (shape_upd trivial).bind fun _ _ => .pure nofun
  · refine hany (P := fun _ => True) ?_
    unfold execSfence
    split_ifs
    · exact .throw _
    · exact (shape_upd trivial).bind fun _ _ => shape_upd trivial
    · exact (shape_upd trivial).bind fun _ _ => shape_upd trivial
  · exact hany (execCsr_counts c insn)
  · exact .throw _

theorem execArm_awake (host : Option HostFp) (c : Cpu) {insn : U32} (seq : U64) (h : insn ≠ 0x10500073) :
    Shape (fun _ => True) Awake (execArm host c insn seq) := by
  by_cases hf : opcode insn = 0x0f
  · unfold execArm
    rw [hf]
    refine Shape.bind (Q := fun _ => True) ?_ fun _ _ => .pure nofun
    unfold fence
    split_ifs
    · exact shape_upd trivial
    · exact .pure trivial
  by_cases hs : opcode insn = 0x73
  · unfold execArm
    rw [hs]
    exact execSystem_awake c seq h
  · refine (execArm_plain host c seq hf hs).mono (fun _ _ => trivial) fun r hr => ?_
    rcases r with ⟨pc, stop⟩ | _
    · rw [show stop = none from hr]
      exact nofun
    · trivial

end Hart

variable {host : Option HostFp} {h h' : Machine VirtBus}

/-- **An instruction that stops in WFI** has found nothing pending. -/
theorem executeDecoded_waits {d : DecodedInsn} (hr : (Hart.executeDecoded host d).run exec h = (.ok (some .wfi), h')) : Waits h' := by
  unfold Hart.executeDecoded at hr
  by_cases hv : !d.valid
  · rw [if_pos hv] at hr
    cases hr
  rw [if_neg hv] at hr
  simp only [Program.bind_eq] at hr
  rw [run_get] at hr
  by_cases hw : d.bits = 0x10500073
  · have harm : Hart.execArm host h.cpu d.bits (h.cpu.pc + d.byteLen) =
        Hart.execWfi h.cpu 0x10500073 (h.cpu.pc + d.byteLen) := by
      rw [hw]
      rfl
    rw [harm] at hr
    unfold Hart.execWfi at hr
    cases hs : h.cpu.sys with
    | none =>
      rw [hs] at hr
      cases hr
    | some s =>
      rw [hs] at hr
      dsimp only at hr
      split_ifs at hr with h1 h2
      · cases hr
      · cases hr
        exact ⟨s, hs, h2⟩
      · cases hr
  · rw [Program.run_bind] at hr
    have hshape := Hart.execArm_awake host h.cpu (h.cpu.pc + d.byteLen) hw
    rcases ha : (Hart.execArm host h.cpu d.bits (h.cpu.pc + d.byteLen)).run exec h with ⟨e | next, h₁⟩ <;> rw [ha] at hr
    · cases hr
    · have hq := hshape.run_ok ha
      rcases next with ⟨pc, stop⟩ | _
      · have hstop : stop = some .wfi := by cases hr; rfl
        exact absurd hstop hq
      · cases hr

theorem runOne_waits (hr : h.runOne host = (some .wfi, h')) : Waits h' := by
  unfold runOne at hr
  dsimp only at hr
  rcases hs : (Hart.step host).run exec (Hart.poll.run exec h).2 with ⟨e | stop, h₁⟩ <;> rw [hs] at hr <;> dsimp only at hr
  · split_ifs at hr
    · cases hr
    · cases hr
  · cases hr
    rw [Hart.step_eq, run_get] at hs
    split_ifs at hs
    · cases hs
    · rw [Program.run_bind] at hs
      rcases hf : (Hart.fetchInsn (Hart.poll.run exec h).2.cpu).run exec (Hart.poll.run exec h).2 with ⟨e | full, h₂⟩ <;>
        rw [hf] at hs
      · cases hs
      · exact executeDecoded_waits hs

theorem run_waits {n : ℕ} (hr : h.run host n = (.wfi, h')) : Waits h' := by
  induction n generalizing h with
  | zero => cases hr
  | succ n ih =>
    rw [Machine.run] at hr
    rcases ho : h.runOne host with ⟨_ | stop, h₁⟩ <;> rw [ho] at hr
    · exact ih hr
    · cases hr
      exact runOne_waits ho

theorem runDecoded_waits {block : List DecodedInsn} (hr : h.runDecoded host block = (.stop .wfi, h')) : Waits h' := by
  induction block generalizing h with
  | nil => cases hr
  | cons d rest ih =>
    rw [runDecoded] at hr
    rcases hp : Hart.pollTaken.run exec h with ⟨e | taken, h₁⟩ <;> rw [hp] at hr
    · cases hr
    cases taken with
    | true => cases hr
    | false =>
      dsimp only at hr
      rcases ho : h₁.executeOne host d with ⟨_ | out, h₂⟩ <;> rw [ho] at hr <;> dsimp only at hr
      · split_ifs at hr
        · cases hr
        · exact ih hr
      · cases hr
        unfold executeOne at ho
        dsimp only at ho
        rcases he : (Hart.executeDecoded host d).run exec h₁ with ⟨e | stop, h₃⟩ <;> rw [he] at ho <;> dsimp only at ho
        · split_ifs at ho
          · cases ho
          · cases ho
        · cases stop with
          | none => cases ho
          | some stop =>
            cases ho
            exact executeDecoded_waits he

/-! ## The loops -/

variable {S : Type} {fuel : ℕ} {maxInsns start : U64}

/-- A loop that stops in WFI leaves a waiting hart. -/
def WaitsAtWfi (stop : InterpreterStop) (h : Machine VirtBus) : Prop := stop = .cpu .wfi → Waits h

theorem runCpuUntil_waits {compiled : Option (S → U64 → Bool × S)} {l : Stepping S} {r : InterpreterStop × Stepping S}
    (hr : runCpuUntil host fuel compiled maxInsns l = some r) : WaitsAtWfi r.1 r.2.hart := by
  cases compiled with
  | none =>
    obtain rfl := Option.some.inj hr
    exact fun hs => run_waits (Prod.ext (InterpreterStop.cpu.inj hs) rfl)
  | some compiled =>
    refine Loop.run_invariant (J := fun _ => True) (Q := fun r => WaitsAtWfi r.1 r.2.hart) (fun _ _ _ _ => trivial) ?_ trivial hr
    rintro s ⟨stop, s'⟩ - ht hs
    subst hs
    unfold stepUntil at ht
    split_ifs at ht
    · rcases ho : s.hart.run host 1 with ⟨stop, h₁⟩
      rw [ho] at ht
      cases stop with
      | budget =>
        dsimp only at ht
        cases hc : (compiled s.watch h₁.cpu.pc).1 <;> rw [hc] at ht <;> cases ht
      | wfi =>
        cases ht
        exact run_waits ho
      | _ => cases ht
    · cases ht

theorem runCachedCpu_waits {contains : S → U64 → Bool} {observe : S → U64 → Bool × S} {stopCapable : Bool}
    {hart : Machine VirtBus} {cache : CodePageCache} {watch : S} {r : InterpreterStop × Blocks S}
    (hr : runCachedCpu host fuel contains observe stopCapable maxInsns hart cache watch = some r) : WaitsAtWfi r.1 r.2.hart := by
  refine Loop.run_invariant (J := fun _ => True) (Q := fun r => WaitsAtWfi r.1 r.2.hart) (fun _ _ _ _ => trivial) ?_ trivial hr
  rintro l ⟨stop, l'⟩ - ht hs
  dsimp only at hs
  subst hs
  unfold blockTurn at ht
  generalize observeBlock observe l = o at ht
  obtain ⟨_ | _, l₁⟩ := o
  · dsimp only at ht
    by_cases hb : l₁.hart.cpu.insnCount - hart.cpu.insnCount ≥ maxInsns ∨ l₁.stalledTraps ≥ maxInsns
    · rw [if_pos hb] at ht
      cases ht
    rw [if_neg hb] at ht
    generalize blockAt l₁ = o at ht
    obtain ⟨_ | block, l₂⟩ := o
    · have ht := Option.some.inj ht
      unfold runUncachedOne at ht
      rcases ho : l₂.hart.run host 1 with ⟨stop, h₁⟩
      rw [ho] at ht
      dsimp only at ht
      by_cases hstop : stop = .budget
      · rw [if_pos hstop] at ht
        cases ht
      · rw [if_neg hstop] at ht
        cases ht
        exact run_waits ho
    · have ht := Option.some.inj ht
      unfold runBlock at ht
      generalize (if stopCapable then _ else _ : List DecodedInsn) = insns at ht
      rcases ho : l₂.hart.runDecoded host insns with ⟨stop | _, h₁⟩ <;> rw [ho] at ht
      · cases stop with
        | wfi =>
          cases ht
          exact runDecoded_waits ho
        | _ => cases ht
      · cases ht
  · cases ht

theorem Interpreter.run_waits {m m' : VirtMachine} {watch watch' : S} {backend : Interpreter S} {stop : InterpreterStop}
    (hr : backend.run host fuel maxInsns m watch = some (stop, m', watch')) : WaitsAtWfi stop m'.hart := by
  cases backend with
  | legacy compiled =>
    obtain ⟨⟨stop', l⟩, hl, he⟩ := Option.map_eq_some_iff.1 hr
    cases he
    exact runCpuUntil_waits hl
  | cached contains observe stopCapable =>
    obtain ⟨⟨stop', l⟩, hl, he⟩ := Option.map_eq_some_iff.1 hr
    cases he
    exact runCachedCpu_waits hl

namespace VirtMachine

variable {m m' : VirtMachine} {backend : Interpreter S} {watch watch' : S}

/-- The turn does not stop in WFI. -/
def StopsAwake : Turn (Slice S) (Slice S) → Prop
  | .next l => l.stop ≠ .cpu .wfi
  | .done l => l.stop ≠ .cpu .wfi

theorem afterEcall_awake (backend : Interpreter S) {l : Slice S} (h : l.stop ≠ .cpu .wfi) : StopsAwake (afterEcall backend l) := by
  unfold afterEcall
  dsimp only
  split_ifs
  · exact h
  · exact h
  · exact nofun
  · exact h

theorem afterBudget_awake (backend : Interpreter S) (retired : U64) {l : Slice S} (h : l.stop ≠ .cpu .wfi) :
    StopsAwake (afterBudget backend retired l) := by
  unfold afterBudget
  dsimp only
  split_ifs <;> exact h

/-- What a turn leaves when it is the last, or goes on. -/
def TurnWaits : Turn (Slice S) (Slice S) → Prop
  | .next l => l.stop ≠ .cpu .wfi
  | .done l => WaitsAtWfi l.stop l.machine.hart

theorem StopsAwake.waits {t : Turn (Slice S) (Slice S)} (h : StopsAwake t) : TurnWaits t := by
  rcases t with l | l
  · exact h
  · exact fun hs => absurd hs h

theorem sliceTurn_waits {l : Slice S} {t : Turn (Slice S) (Slice S)} (hl : l.stop ≠ .cpu .wfi)
    (ht : sliceTurn host fuel backend l = some t) : TurnWaits t := by
  unfold sliceTurn at ht
  by_cases hd : l.remaining = 0 ∨ l.machine.powerOff
  · rw [if_pos hd] at ht
    cases ht
    exact fun hs => absurd hs hl
  rw [if_neg hd] at ht
  obtain ⟨⟨stop, m, watch⟩, hrun, rfl⟩ := Option.map_eq_some_iff.1 ht
  dsimp only
  generalize m.hart.cpu.insnCount - l.machine.hart.cpu.insnCount = retired
  generalize (if retired ≤ l.remaining then l.remaining - retired else 0) = remaining
  by_cases hecall : stop = .cpu .ecall ∧ m.hart.bus.directSbi
  · rw [if_pos hecall]
    exact (afterEcall_awake backend (by dsimp only; rw [hecall.1]; exact nofun)).waits
  · rw [if_neg hecall]
    by_cases hb : stop = .cpu .budget ∧ remaining ≠ 0
    · rw [if_pos hb]
      exact (afterBudget_awake backend retired (by dsimp only; rw [hb.1]; exact nofun)).waits
    · rw [if_neg hb]
      exact Interpreter.run_waits hrun

/-- A slice whose loop ends in WFI leaves a waiting hart. -/
theorem loop_waits {l l' : Slice S} (hl : l.stop ≠ .cpu .wfi) (hr : Loop.run (sliceTurn host fuel backend) fuel l = some l') :
    WaitsAtWfi l'.stop l'.machine.hart :=
  Loop.run_invariant (J := fun l : Slice S => l.stop ≠ .cpu .wfi) (Q := fun l : Slice S => WaitsAtWfi l.stop l.machine.hart)
    (fun _ _ hl ht => sliceTurn_waits hl ht) (fun _ _ hl ht => sliceTurn_waits hl ht) hl hr

/-! ## Missed wake-ups -/

/-- The machine at the WFI that ends a slice, before the clock moves. -/
def atWfi (host : Option HostFp) (fuel : ℕ) (backend : Interpreter S) (maxInsns : U64) (m : VirtMachine) (watch : S) :
    Option VirtMachine :=
  (Loop.run (sliceTurn host fuel backend) fuel ⟨m.startSlice, watch, maxInsns, .cpu .budget⟩).bind fun l =>
    if l.stop = .cpu .wfi then some l.machine else none

/-- No interrupt the guest has enabled is pending, in mip or on the lines of the devices. -/
def NothingPending (m : VirtMachine) : Prop :=
  ∀ s, m.hart.cpu.sys = some s → s.mip &&& s.mie = 0 ∧ m.hart.bus.lines &&& s.mie = 0

/-- The lines that do not come from the clock. -/
def deviceLines (b : VirtBus) : U64 :=
  (if b.msip then IRQ_MSIP else 0) ||| (if b.refreshPlic.plic.pendingCtx 0 then IRQ_MEIP else 0) |||
    (if b.refreshPlic.plic.pendingCtx 1 then IRQ_SEIP else 0)

/-- The timer interrupt of the machine: the supervisor's under direct SBI. -/
def timerBit (b : VirtBus) : U64 := if b.directSbi then IRQ_STIP else IRQ_MTIP

/-- At the WFI an enabled device line is up, or the next sync reaches an enabled deadline. -/
def Missed (w : VirtMachine) : Prop :=
  ∃ s, w.hart.cpu.sys = some s ∧ (deviceLines w.hart.bus &&& s.mie ≠ 0 ∨
    w.hart.bus.mtimecmp ≤ w.nextMtime ∧ timerBit w.hart.bus &&& s.mie ≠ 0)

theorem or_and_eq_zero {a b c : U64} : (a ||| b) &&& c = 0 ↔ a &&& c = 0 ∧ b &&& c = 0 := by
  rw [BitVec.and_comm, BitVec.and_or_distrib_left, BitVec.and_comm c a, BitVec.and_comm c b]
  constructor
  · intro h
    constructor <;> apply BitVec.eq_of_getLsbD_eq <;> intro i hi
    · have hb := congrArg (·.getLsbD i) h
      simp only [BitVec.getLsbD_or, Bool.or_eq_false_iff, show (0 : U64) = 0#64 from rfl, BitVec.getLsbD_zero] at hb
      rw [hb.1]
      simp
    · have hb := congrArg (·.getLsbD i) h
      simp only [BitVec.getLsbD_or, Bool.or_eq_false_iff, show (0 : U64) = 0#64 from rfl, BitVec.getLsbD_zero] at hb
      rw [hb.2]
      simp
  · rintro ⟨h1, h2⟩
    rw [h1, h2]
    rfl

theorem lines_eq (b : VirtBus) : b.lines = (if !b.directSbi && decide (b.mtime ≥ b.mtimecmp) then IRQ_MTIP else 0) ||| deviceLines b := by
  unfold VirtBus.lines deviceLines
  rw [BitVec.or_assoc, BitVec.or_assoc, BitVec.or_assoc]

/-- The pending bits after a sync. -/
theorem sync_mip {w : VirtMachine} {s : SysCsrs} (hs : w.hart.cpu.sys = some s) :
    ∃ s', w.syncDevices.hart.cpu.sys = some s' ∧ s'.mie = s.mie ∧
      s'.mip = if w.hart.bus.directSbi then
        if w.nextMtime ≥ w.hart.bus.mtimecmp then s.mip ||| IRQ_STIP else s.mip &&& ~~~IRQ_STIP
      else s.mip := by
  refine ⟨_, congrArg (Option.map _) hs, ?_, ?_⟩
  · dsimp only
    split_ifs <;> rfl
  · dsimp only [mapBus]
    split_ifs <;> first | rfl | simp_all [setStip]

theorem and_not_and_eq_zero {a b c : U64} (h : a &&& c = 0) : a &&& ~~~b &&& c = 0 := by
  rw [BitVec.and_assoc, BitVec.and_comm (~~~b), ← BitVec.and_assoc, h]
  exact BitVec.zero_and

/-- **A sync after a WFI** leaves nothing pending exactly if nothing was missed. -/
theorem nothingPending_sync {w : VirtMachine} (hw : Waits w.hart) : NothingPending w.syncDevices ↔ ¬ Missed w := by
  obtain ⟨s, hs, hmip⟩ := hw
  obtain ⟨s', hs', hmie, hmip'⟩ := sync_mip hs
  have hlines : w.syncDevices.hart.bus.lines =
      (if !w.hart.bus.directSbi && decide (w.nextMtime ≥ w.hart.bus.mtimecmp) then IRQ_MTIP else 0) ||| deviceLines w.hart.bus :=
    lines_eq _
  have hpending : NothingPending w.syncDevices ↔ s'.mip &&& s.mie = 0 ∧
      ((if !w.hart.bus.directSbi && decide (w.nextMtime ≥ w.hart.bus.mtimecmp) then IRQ_MTIP else 0) &&& s.mie = 0 ∧
        deviceLines w.hart.bus &&& s.mie = 0) := by
    rw [← or_and_eq_zero, ← hlines, ← hmie]
    constructor
    · exact fun h => h s' hs'
    · intro h t ht
      rw [hs'] at ht
      cases ht
      exact h
  have hmissed : ¬ Missed w ↔ deviceLines w.hart.bus &&& s.mie = 0 ∧
      (w.hart.bus.mtimecmp ≤ w.nextMtime → timerBit w.hart.bus &&& s.mie = 0) := by
    unfold Missed
    rw [hs]
    simp [not_or]
  rw [hpending, hmissed, hmip']
  unfold timerBit
  have hzero : (0 : U64) &&& s.mie = 0 := BitVec.zero_and
  by_cases hd : w.hart.bus.directSbi
  · have hclock : (if !w.hart.bus.directSbi && decide (w.nextMtime ≥ w.hart.bus.mtimecmp) then IRQ_MTIP else 0) = 0 := by
      rw [hd]
      rfl
    rw [if_pos hd, if_pos hd, hclock, and_iff_right hzero]
    by_cases ht : w.nextMtime ≥ w.hart.bus.mtimecmp
    · rw [if_pos ht, or_and_eq_zero, and_iff_right hmip]
      exact ⟨fun h => ⟨h.2, fun _ => h.1⟩, fun h => ⟨h.2 ht, h.1⟩⟩
    · rw [if_neg ht, and_iff_right (and_not_and_eq_zero hmip)]
      exact ⟨fun h => ⟨h, fun hc => absurd hc ht⟩, fun h => h.1⟩
  · rw [if_neg hd, if_neg hd, and_iff_right hmip]
    by_cases ht : w.nextMtime ≥ w.hart.bus.mtimecmp
    · rw [if_pos (by simp [hd, ht])]
      exact ⟨fun h => ⟨h.2, fun _ => h.1⟩, fun h => ⟨h.2 ht, h.1⟩⟩
    · rw [if_neg (by simp [ht]), and_iff_right hzero]
      exact ⟨fun h => ⟨h, fun hc => absurd hc ht⟩, fun h => h.1⟩

/-- A machine after reset with a program at the start of RAM. -/
def bootProgram (program : List U8) : VirtMachine :=
  new ⟨0x1000, fun i => program.getD i 0, 0, RAM_page_fits, ptr_page_fits⟩ [] false 0 0 1

/-- WFI, with every interrupt disabled. -/
def waitProgram : List U8 := [0x73, 0x00, 0x50, 0x10]

/-- csrrsi x0, mie, 8; lui x5, 0x2000; addi x6, x0, 1; sw x6, 0(x5); wfi: the guest enables its software interrupt, raises it
in the CLINT and waits. -/
def raiseAndWait : List U8 :=
  [0x73, 0x60, 0x44, 0x30, 0xb7, 0x02, 0x00, 0x02, 0x13, 0x03, 0x10, 0x00, 0x23, 0xa0, 0x62, 0x00, 0x73, 0x00, 0x50, 0x10]

end VirtMachine
end Lish
