import Lish.Core.Atomics
/-!
# Reserved — words outside the instruction set

A word that is no instruction is to trap and to leave the hart alone.  The arms that test the fields they read refuse it; those that leave
a field untested take it for an instruction, an AMO loads before it looks at its function,
  and a floating-point word dirties the state.
-/
namespace Lish

/-! ## The instruction set -/

/-- A rounding mode an instruction may name: one of the five, or the dynamic one. -/
def legalRm (f3 : ℕ) : Bool := f3 ≤ 4 || f3 = 7

/-- OP-IMM: the shifts have six bits of amount. -/
def legalOpImm (insn : U32) : Bool :=
  match funct3 insn with
  | 1 => insn >>> 26 = 0
  | 5 => insn >>> 26 = 0 || insn >>> 26 = 0x10
  | _ => true

def legalOpImm32 (insn : U32) : Bool :=
  match funct3 insn with
  | 0 => true
  | 1 => funct7 insn = 0
  | 5 => funct7 insn = 0 || funct7 insn = 0x20
  | _ => false

def legalOp (insn : U32) : Bool :=
  match funct7 insn with
  | 0x00 | 0x01 => true
  | 0x20 => funct3 insn = 0 || funct3 insn = 5
  | _ => false

def legalOp32 (insn : U32) : Bool :=
  match funct7 insn with
  | 0x00 => funct3 insn = 0 || funct3 insn = 1 || funct3 insn = 5
  | 0x20 => funct3 insn = 0 || funct3 insn = 5
  | 0x01 => funct3 insn = 0 || funct3 insn ≥ 4
  | _ => false

/-- LR has no second operand. -/
def legalAmo (insn : U32) : Bool :=
  (funct3 insn = 2 || funct3 insn = 3) && (amoKind (funct7 insn / 4)).isSome && (funct7 insn / 4 ≠ 2 || rs2 insn = 0)

def legalFp (insn : U32) : Bool :=
  let f3 := funct3 insn
  let s2 := (rs2 insn).val
  let fmt := funct7 insn % 4
  fmt ≤ 1 &&
    match funct7 insn / 4 with
    | 0 | 1 | 2 | 3 => legalRm f3
    | 0x0b => s2 = 0 && legalRm f3
    | 0x04 => f3 ≤ 2
    | 0x05 => f3 ≤ 1
    | 0x08 => (fmt = 0 && s2 = 1 || fmt = 1 && s2 = 0) && legalRm f3
    | 0x14 => f3 ≤ 2
    | 0x18 | 0x1a => s2 ≤ 3 && legalRm f3
    | 0x1c => s2 = 0 && f3 ≤ 1
    | 0x1e => s2 = 0 && f3 = 0
    | _ => false

/-- ECALL, EBREAK, MRET, SRET, WFI, SFENCE.VMA and the CSR instructions. -/
def legalSystem (insn : U32) : Bool :=
  insn = 0x00000073 || insn = 0x00100073 || insn = 0x30200073 || insn = 0x10200073 || insn = 0x10500073 ||
    (funct7 insn = 0x09 && funct3 insn = 0 && rd insn = 0) || (funct3 insn ≠ 0 && funct3 insn ≠ 4)

/-- The words of RV64IMAFD, Zicsr, Zifencei and the privileged instructions. -/
def legal (insn : U32) : Bool :=
  let f3 := funct3 insn
  match opcode insn with
  | 0x37 | 0x17 | 0x6f => true -- LUI, AUIPC, JAL
  | 0x67 => f3 = 0 -- JALR
  | 0x63 => f3 ≠ 2 && f3 ≠ 3
  | 0x03 => f3 ≠ 7
  | 0x23 => f3 ≤ 3
  | 0x13 => legalOpImm insn
  | 0x1b => legalOpImm32 insn
  | 0x33 => legalOp insn
  | 0x3b => legalOp32 insn
  | 0x2f => legalAmo insn
  | 0x07 | 0x27 => f3 = 2 || f3 = 3
  | 0x43 | 0x47 | 0x4b | 0x4f => legalRm f3 && funct7 insn % 4 ≤ 1
  | 0x53 => legalFp insn
  | 0x0f => f3 ≤ 1 -- FENCE and FENCE.I ignore their other fields
  | 0x73 => legalSystem insn
  | _ => false

namespace Hart

open Machine

variable {β : Type} [RamBus β] {m m' : Machine β} {insn : U32} {host : Option HostFp} {seq : U64} {α γ : Type}

/-! ## Traps that leave the state alone -/

/-- The program raises an illegal instruction with the word, and leaves registers and memory alone. -/
def Refused (m : Machine β) (insn : U32) (p : Hart α) : Prop :=
  (p.run exec m).1 = .error (.illegalInstruction insn) ∧ Untouched m (p.run exec m).2

theorem refused_illegal : Refused m insn (illegal insn : Hart α) := ⟨rfl, .refl _, rfl⟩

theorem not_refused {a : α} {p : Hart α} (h : (p.run exec m).1 = .ok a) : ¬ Refused m insn p := by
  rintro ⟨he, -⟩
  rw [h] at he
  cases he

/-- What follows without an error changes nothing of a refusal. -/
theorem refused_bind {p : Hart α} {f : α → Hart γ} (hf : ∀ a (s : Machine β), ∃ b, ((f a).run exec s).1 = .ok b) :
    Refused m insn (p.bind f) ↔ Refused m insn p := by
  unfold Refused
  rw [Program.run_bind]
  rcases p.run exec m with ⟨e | a, s⟩
  · constructor
    · rintro ⟨he, hu⟩
      exact ⟨congrArg Except.error (Except.error.inj he), hu⟩
    · rintro ⟨he, hu⟩
      exact ⟨congrArg Except.error (Except.error.inj he), hu⟩
  · obtain ⟨b, hb⟩ := hf a s
    constructor
    · rintro ⟨he, -⟩
      rw [hb] at he
      cases he
    · rintro ⟨he, -⟩
      cases he

theorem refused_arm {p : Hart α} {next : α → Next} : Refused m insn (p.bind fun a => .pure (next a)) ↔ Refused m insn p :=
  refused_bind fun a _ => ⟨next a, rfl⟩

/-- **An instruction** is refused when its arm is. -/
theorem refused_executeDecoded {d : DecodedInsn} (hd : d.valid = true) :
    Refused m d.bits (executeDecoded host d) ↔ Refused m d.bits (execArm host m.cpu d.bits (m.cpu.pc + d.byteLen)) := by
  unfold executeDecoded
  rw [hd]
  change Refused m d.bits ((execArm host m.cpu d.bits (m.cpu.pc + d.byteLen)).bind _) ↔ _
  refine refused_bind fun next (s : Machine β) => ?_
  rcases next with ⟨pc, stop⟩ | _
  · exact ⟨stop, rfl⟩
  · exact ⟨none, rfl⟩

/-! ## The arms -/

theorem untouched_fpDirty {b : β} : Untouched ⟨m.cpu, b⟩ ⟨m.cpu.fpDirty, b⟩ ↔ m.cpu.fpDirty = m.cpu := by
  constructor
  · rintro ⟨h, -⟩
    exact h
  · intro h
    rw [h]
    exact ⟨.refl _, rfl⟩

theorem refused_fpOff {p : Hart α} (h : m.cpu.fpOff = true) : Refused m insn ((fpCheck m.cpu insn).bind fun _ => p) := by
  unfold fpCheck
  rw [if_pos h]
  exact refused_illegal

theorem refused_fpOn {p : Hart α} (h : m.cpu.fpOff = false) :
    Refused m insn ((fpCheck m.cpu insn).bind fun _ => p) ↔ Refused m insn p := by
  unfold fpCheck
  rw [if_neg (by rw [h]; exact Bool.false_ne_true)]
  rfl

/-- A floating-point word without an instruction is refused once the state is marked dirty. -/
theorem refused_dirty {p : Hart α} (hp : p.run exec { m with cpu := m.cpu.fpDirty } =
      (.error (.illegalInstruction insn), { m with cpu := m.cpu.fpDirty })) :
    Refused m insn ((fpCheck m.cpu insn).bind fun _ => .op (.cpu .fpDirty) fun _ => p) ↔
      m.cpu.fpOff = true ∨ m.cpu.fpDirty = m.cpu := by
  cases hoff : m.cpu.fpOff with
  | true => exact ⟨fun _ => Or.inl rfl, fun _ => refused_fpOff hoff⟩
  | false =>
    have hrun : ((Program.op (.cpu .fpDirty) fun _ => p : Hart α)).run exec m =
        (.error (.illegalInstruction insn), { m with cpu := m.cpu.fpDirty }) := hp
    rw [refused_fpOn hoff, Refused, hrun, ← untouched_fpDirty (b := m.bus)]
    exact ⟨fun h => Or.inr h.2, fun h => ⟨rfl, h.resolve_left Bool.false_ne_true⟩⟩

/-- A floating-point word that is executed. -/
theorem refused_executed {a : α} {p : Hart α} (hp : (p.run exec { m with cpu := m.cpu.fpDirty }).1 = .ok a) :
    Refused m insn ((fpCheck m.cpu insn).bind fun _ => .op (.cpu .fpDirty) fun _ => p) ↔ m.cpu.fpOff = true := by
  cases hoff : m.cpu.fpOff with
  | true => exact ⟨fun _ => rfl, fun _ => refused_fpOff hoff⟩
  | false =>
    have hrun : (((Program.op (.cpu .fpDirty) fun _ => p : Hart α)).run exec m).1 = .ok a := hp
    rw [refused_fpOn hoff]
    exact ⟨fun h => absurd h (not_refused hrun), fun h => nomatch h⟩

/-- The floating-point words with a field nobody tests: FCVT.D.S with any rounding mode, moves and classifications with any second
operand. -/
def TakenFp (insn : U32) : Prop :=
  funct7 insn % 4 ≤ 1 ∧ ((funct7 insn = 0x21 ∧ rs2 insn = 0) ∨ (funct7 insn / 4 = 0x1c ∧ funct3 insn ≤ 1) ∨
    (funct7 insn / 4 = 0x1e ∧ funct3 insn = 0))

instance (insn : U32) : Decidable (TakenFp insn) := inferInstanceAs (Decidable (_ ∧ _))

theorem getRm_none {f3 : ℕ} (h : legalRm f3 = false) (c : Cpu) : c.getRm f3 = none := by
  unfold legalRm at h
  rw [Bool.or_eq_false_iff, decide_eq_false_iff_not, decide_eq_false_iff_not] at h
  unfold Cpu.getRm
  dsimp only
  rw [if_neg h.2, if_neg h.1]

theorem opFp_none {host : Option HostFp} (hl : legalFp insn = false) (ht : ¬ TakenFp insn) (c : Cpu) : c.opFp host insn = none := by
  unfold Cpu.opFp
  dsimp only
  by_cases hfmt : funct7 insn % 4 ≤ 1
  · unfold TakenFp at ht
    unfold legalFp at hl
    simp only [hfmt, decide_true, Bool.true_and, true_and, not_or] at hl ht
    obtain ⟨w, hw⟩ : ∃ w, fpFormat (funct7 insn % 4) = some w := by
      obtain h | h : funct7 insn % 4 = 0 ∨ funct7 insn % 4 = 1 := by omega
      · exact ⟨fmtS, by rw [h]; rfl⟩
      · exact ⟨fmtD, by rw [h]; rfl⟩
    rw [hw]
    dsimp only
    -- one case for each operation; `hl` says which of its fields is wrong
    split
    iterate 4 next hop => simp only [hop] at hl; rw [getRm_none hl]; rfl
    · next hop =>
      simp only [hop] at hl
      split_ifs with hs
      · rw [hs] at hl
        rw [getRm_none hl]
        rfl
      · rfl
    · next hop =>
      simp only [hop, decide_eq_false_iff_not] at hl
      unfold Cpu.fpSignInject
      split
      · omega
      · omega
      · omega
      · rfl
    · next hop =>
      simp only [hop, decide_eq_false_iff_not] at hl
      split
      · omega
      · omega
      · rfl
    · next hop =>
      simp only [hop] at hl
      split_ifs with hs hd
      · rw [decide_eq_true hs.1, decide_eq_true hs.2] at hl
        rw [getRm_none hl]
        rfl
      · exact absurd ⟨by omega, Fin.ext hd.2⟩ ht.1
      · rfl
    · next hop =>
      simp only [hop, decide_eq_false_iff_not] at hl
      split
      · omega
      · omega
      · omega
      · rfl
    iterate 2
      next hop =>
        simp only [hop, Bool.and_eq_false_iff, decide_eq_false_iff_not] at hl
        rcases hl with hs | hr
        · cases c.getRm (funct3 insn) with
          | none => rfl
          | some rm =>
            dsimp only [Option.bind]
            split
            · omega
            · omega
            · omega
            · omega
            · rfl
        · rw [getRm_none hr]
          rfl
    · next hop =>
      have hf := fun h => ht.2.1 ⟨hop, h⟩
      split
      · omega
      · omega
      · rfl
    · next hop =>
      rw [if_neg fun h => ht.2.2 ⟨hop, h⟩]
    · rfl
  · have hw : fpFormat (funct7 insn % 4) = none := by
      unfold fpFormat
      split
      · omega
      · omega
      · rfl
    rw [hw]

theorem opFp_some {host : Option HostFp} (ht : TakenFp insn) (c : Cpu) : ∃ r, c.opFp host insn = some r := by
  obtain ⟨hfmt, ht⟩ := ht
  obtain ⟨w, hw⟩ : ∃ w, fpFormat (funct7 insn % 4) = some w := by
    obtain h | h : funct7 insn % 4 = 0 ∨ funct7 insn % 4 = 1 := by omega
    · exact ⟨fmtS, by rw [h]; rfl⟩
    · exact ⟨fmtD, by rw [h]; rfl⟩
  unfold Cpu.opFp
  dsimp only
  rw [hw]
  rcases ht with ⟨hop, hs⟩ | ⟨hop, hf⟩ | ⟨hop, hf⟩
  · rw [hop, hs]
    exact ⟨_, rfl⟩
  · rw [hop]
    obtain h | h : funct3 insn = 0 ∨ funct3 insn = 1 := by omega
    · rw [h]
      exact ⟨_, rfl⟩
    · rw [h]
      exact ⟨_, rfl⟩
  · rw [hop, hf]
    exact ⟨_, rfl⟩

/-- The condition under which a word outside the instruction set is refused, in the state before it. -/
structure Refusable (m : Machine β) (insn : U32) : Prop where
  /-- JALR, the immediate shifts and the fences leave their function untested. -/
  tested : opcode insn ≠ 0x67 ∧ opcode insn ≠ 0x13 ∧ opcode insn ≠ 0x0f
  shift : opcode insn = 0x1b → funct3 insn ≠ 1 ∧ funct3 insn ≠ 5
  /-- The operand of an AMO is loaded first; LR leaves its second operand untested. -/
  amo : opcode insn = 0x2f → ∀ is64, amoWidth (funct3 insn) = some is64 → funct7 insn / 4 ≠ 2 ∧
    ∃ v m', (ld (amoBytes is64) (m.cpu.x (rs1 insn))).run exec m = (.ok v, m') ∧ RamBus.ram m'.bus = RamBus.ram m.bus
  /-- The floating-point state is off, or dirty already. -/
  fp : opcode insn ∈ [0x07, 0x43, 0x47, 0x4b, 0x4f, 0x53] → m.cpu.fpOff = true ∨ m.cpu.fpDirty = m.cpu
  taken : opcode insn = 0x53 → TakenFp insn → m.cpu.fpOff = true
  /-- SFENCE.VMA leaves its destination untested. -/
  fence : opcode insn = 0x73 → funct7 insn = 0x09 → funct3 insn = 0 → sfenceAllowed m.cpu = false

/-- The opcodes whose fields are all tested before anything is done. -/
theorem refusable_tested (h : opcode insn ∉ [0x67, 0x13, 0x0f, 0x1b, 0x2f, 0x07, 0x43, 0x47, 0x4b, 0x4f, 0x53, 0x73]) :
    Refusable m insn := by
  simp only [List.mem_cons, List.not_mem_nil, or_false, not_or] at h
  obtain ⟨h1, h2, h3, h4, h5, h6, h7, h8, h9, h10, h11, h12⟩ := h
  refine ⟨⟨h1, h2, h3⟩, fun h => absurd h h4, fun h => absurd h h5, fun h => ?_, fun h => absurd h h11, fun h => absurd h h12⟩
  simp only [List.mem_cons, List.not_mem_nil, or_false, h6, h7, h8, h9, h10, h11] at h

/-- A word refused for want of an instruction. -/
theorem refused_require {o : Option α} (h : o = none) {k : α → Hart γ} : Refused m insn ((require insn o).bind k) := by
  rw [h]
  exact refused_illegal

theorem op64_none (h : legalOp insn = false) (a b : U64) : op64 insn a b = none := by
  unfold legalOp at h
  unfold op64
  dsimp only
  split <;> simp_all

theorem op32_none (h : legalOp32 insn = false) (a b : U64) : op32 insn a b = none := by
  unfold legalOp32 at h
  unfold op32
  dsimp only
  rw [Option.map_eq_none_iff]
  split <;> simp_all

theorem fpWidth_none {f3 : ℕ} (h : (decide (f3 = 2) || decide (f3 = 3)) = false) : fpWidth f3 = none := by
  rw [Bool.or_eq_false_iff, decide_eq_false_iff_not, decide_eq_false_iff_not] at h
  unfold fpWidth
  split
  · exact absurd rfl h.1
  · exact absurd rfl h.2
  · rfl

/-- The arms that test every field before they do anything. -/
theorem arm_tested (hl : legal insn = false)
    (h : opcode insn ∉ [0x67, 0x13, 0x0f, 0x1b, 0x2f, 0x07, 0x43, 0x47, 0x4b, 0x4f, 0x53, 0x73]) :
    Refused m insn (execArm host m.cpu insn seq) := by
  unfold legal at hl
  split at hl <;> try (next hop => rw [hop] at h; exact absurd (by decide) h)
  · cases hl
  · cases hl
  · cases hl
  · next hop =>
    unfold execArm
    rw [hop]
    refine refused_require ?_
    simp only [Bool.and_eq_false_iff, decide_eq_false_iff_not, not_not] at hl
    rcases hl with hf | hf <;> rw [hf] <;> rfl
  · next hop =>
    unfold execArm
    rw [hop]
    refine refused_arm.2 (refused_require ?_)
    rw [not_not.1 (of_decide_eq_false hl)]
    rfl
  · next hop =>
    unfold execArm
    rw [hop]
    refine refused_arm.2 (refused_require ?_)
    have hf := of_decide_eq_false hl
    unfold storeWidth
    split
    · omega
    · omega
    · omega
    · omega
    · rfl
  · next hop =>
    unfold execArm
    rw [hop]
    exact refused_require (op64_none hl _ _)
  · next hop =>
    unfold execArm
    rw [hop]
    exact refused_require (op32_none hl _ _)
  · next hop =>
    unfold execArm
    rw [hop]
    refine refused_arm.2 ?_
    cases hoff : m.cpu.fpOff with
    | true => exact refused_fpOff hoff
    | false => exact (refused_fpOn hoff).2 (refused_require (fpWidth_none hl))
  · unfold execArm
    split
    all_goals first | contradiction | exact refused_illegal

/-- The arms that test no function run to their end. -/
theorem arm_untested (h : opcode insn = 0x67 ∨ opcode insn = 0x13 ∨ opcode insn = 0x0f) :
    ¬ Refused m insn (execArm host m.cpu insn seq) := by
  unfold execArm
  rcases h with hop | hop | hop
  · rw [hop]
    exact not_refused (a := .to ((m.cpu.x (rs1 insn) + immI insn) &&& ~~~1) none) rfl
  · rw [hop]
    exact not_refused (a := .to seq none) rfl
  · rw [hop]
    intro h
    have hf := refused_arm.1 h
    unfold fence at hf
    split_ifs at hf
    · exact not_refused (a := ()) rfl hf
    · exact not_refused (a := ()) rfl hf

/-- The word shifts that test no function. -/
theorem arm_shift (hop : opcode insn = 0x1b) (hl : legalOpImm32 insn = false) :
    Refused m insn (execArm host m.cpu insn seq) ↔ funct3 insn ≠ 1 ∧ funct3 insn ≠ 5 := by
  unfold execArm
  rw [hop]
  unfold legalOpImm32 at hl
  have hrun : (opImm32 insn (m.cpu.x (rs1 insn))).isSome = true →
      ¬ Refused m insn ((require insn (opImm32 insn (m.cpu.x (rs1 insn)))).bind fun v =>
        (upd (.wr (rd insn) v)).bind fun _ => .pure (Next.to seq none)) := by
    intro hsome
    obtain ⟨v, hv⟩ := Option.isSome_iff_exists.1 hsome
    rw [hv]
    exact not_refused (a := .to seq none) rfl
  constructor
  · intro h
    refine ⟨fun hf => hrun ?_ h, fun hf => hrun ?_ h⟩
    · unfold opImm32
      rw [hf]
      rfl
    · unfold opImm32
      rw [hf]
      rfl
  · rintro ⟨h1, h5⟩
    refine refused_require ?_
    unfold opImm32
    dsimp only
    split
    · next hf =>
      rw [hf] at hl
      cases hl
    · next hf => exact absurd hf h1
    · next hf => exact absurd hf h5
    · rfl

theorem arm_loadFp (hop : opcode insn = 0x07) (hl : (decide (funct3 insn = 2) || decide (funct3 insn = 3)) = false) :
    Refused m insn (execArm host m.cpu insn seq) ↔ m.cpu.fpOff = true ∨ m.cpu.fpDirty = m.cpu := by
  unfold execArm
  rw [hop]
  refine refused_arm.trans (refused_dirty ?_)
  rw [fpWidth_none hl]
  rfl

theorem fmaOut_none (hl : (legalRm (funct3 insn) && decide (funct7 insn % 4 ≤ 1)) = false) (c : Cpu) : c.fmaOut insn = none := by
  unfold Cpu.fmaOut
  dsimp only
  rw [Bool.and_eq_false_iff, decide_eq_false_iff_not] at hl
  rcases hl with hr | hf
  · rw [getRm_none hr]
    rfl
  · have hw : fpFormat (funct7 insn % 4) = none := by
      unfold fpFormat
      split
      · omega
      · omega
      · rfl
    rw [hw]
    cases c.getRm (funct3 insn) <;> rfl

theorem arm_fma (hop : opcode insn = 0x43 ∨ opcode insn = 0x47 ∨ opcode insn = 0x4b ∨ opcode insn = 0x4f)
    (hl : (legalRm (funct3 insn) && decide (funct7 insn % 4 ≤ 1)) = false) :
    Refused m insn (execArm host m.cpu insn seq) ↔ m.cpu.fpOff = true ∨ m.cpu.fpDirty = m.cpu := by
  have hfma : Refused m insn ((execFma m.cpu insn).bind fun _ => .pure (Next.to seq none)) ↔
      m.cpu.fpOff = true ∨ m.cpu.fpDirty = m.cpu := by
    refine refused_arm.trans (refused_dirty ?_)
    rw [fmaOut_none hl]
    rfl
  unfold execArm
  rcases hop with hop | hop | hop | hop <;> rw [hop] <;> exact hfma

theorem arm_opFp (hop : opcode insn = 0x53) (hl : legalFp insn = false) : Refused m insn (execArm host m.cpu insn seq) ↔
    (m.cpu.fpOff = true ∨ m.cpu.fpDirty = m.cpu) ∧ (TakenFp insn → m.cpu.fpOff = true) := by
  unfold execArm
  rw [hop]
  have hrun : ∀ o, m.cpu.fpDirty.opFp host insn = o → (opFp host insn).run exec { m with cpu := m.cpu.fpDirty } =
      ((require insn o).bind (writeFp insn)).run exec { m with cpu := m.cpu.fpDirty } := fun o ho => by rw [← ho]; rfl
  by_cases ht : TakenFp insn
  · obtain ⟨r, hr⟩ := opFp_some ht m.cpu.fpDirty
    refine refused_arm.trans ((refused_executed (a := ()) (congrArg Prod.fst (hrun _ hr))).trans ?_)
    exact ⟨fun h => ⟨Or.inl h, fun _ => h⟩, fun h => h.2 ht⟩
  · refine refused_arm.trans ((refused_dirty (hrun _ (opFp_none hl ht _))).trans ?_)
    exact ⟨fun h => ⟨h, fun h => absurd h ht⟩, fun h => h.1⟩

theorem arm_system (hop : opcode insn = 0x73) (hl : legalSystem insn = false) : Refused m insn (execArm host m.cpu insn seq) ↔
    (funct7 insn = 0x09 → funct3 insn = 0 → sfenceAllowed m.cpu = false) := by
  have harm : execArm host m.cpu insn seq = execSystem m.cpu insn seq := by
    unfold execArm
    rw [hop]
    rfl
  unfold legalSystem at hl
  simp only [Bool.or_eq_false_iff, decide_eq_false_iff_not] at hl
  obtain ⟨⟨⟨⟨⟨⟨h1, h2⟩, h3⟩, h4⟩, h5⟩, -⟩, hcsr⟩ := hl
  have hf : ¬ (funct3 insn ≠ 0 ∧ funct3 insn ≠ 4) := fun h => by
    rw [decide_eq_true h.1, decide_eq_true h.2] at hcsr
    cases hcsr
  rw [harm]
  unfold execSystem
  rw [if_neg h1, if_neg h2, if_neg h3, if_neg h4, if_neg h5]
  by_cases hs : funct7 insn = 0x09 ∧ funct3 insn = 0
  · rw [if_pos hs]
    refine refused_arm.trans ?_
    unfold execSfence
    cases hal : sfenceAllowed m.cpu with
    | true =>
      exact ⟨fun h => absurd h (not_refused (a := ()) rfl), fun h => nomatch h hs.1 hs.2⟩
    | false => exact ⟨fun _ _ _ => rfl, fun _ => refused_illegal⟩
  · rw [if_neg hs, if_neg hf]
    exact ⟨fun _ h7 h3 => absurd ⟨h7, h3⟩ hs, fun _ => refused_illegal⟩

/-! ### AMOs -/

theorem amoNew_none {funct5 : ℕ} (h : amoKind funct5 = none) (is64 : Bool) (old src : U64) : amoNew funct5 is64 old src = none := by
  unfold amoKind at h
  unfold amoNew
  dsimp only
  split at h <;> cases h
  split
  all_goals first | contradiction | rfl

/-- A function of no AMO is refused after the load. -/
theorem execAmo_eq_none {is64 : Bool} (hw : amoWidth (funct3 insn) = some is64) (hk : amoKind (funct7 insn / 4) = none) (c : Cpu) :
    execAmo c insn = (ld (amoBytes is64) (c.x (rs1 insn))).bind fun _ => illegal insn := by
  have hrest : execAmo c insn = (amoLoad is64 (c.x (rs1 insn))).bind fun old =>
      (require insn (amoNew (funct7 insn / 4) is64 old (c.x (rs2 insn)))).bind fun new =>
        (amoStore is64 (c.x (rs1 insn)) new).bind fun _ => .op (.cpu (.wr (rd insn) old)) .pure := by
    unfold execAmo
    rw [hw]
    unfold amoKind at hk
    split at hk <;> cases hk
    dsimp only [require, Program.bind_eq, Program.pure_bind]
    split
    · contradiction
    · contradiction
    · rfl
  rw [hrest, amoLoad_eq, Program.bind_assoc]
  congr 1
  funext v
  rw [Program.pure_bind, amoNew_none hk]
  rfl

theorem loadFault_legal {e : Exception} (h : LoadFault e) : e ≠ .illegalInstruction insn := by
  obtain ⟨a, rfl | rfl⟩ := h <;> exact fun h => nomatch h

theorem arm_amo [RefusingBus β] (hop : opcode insn = 0x2f) (hl : legalAmo insn = false) :
    Refused m insn (execArm host m.cpu insn seq) ↔ ∀ is64, amoWidth (funct3 insn) = some is64 → funct7 insn / 4 ≠ 2 ∧
      ∃ v m', (ld (amoBytes is64) (m.cpu.x (rs1 insn))).run exec m = (.ok v, m') ∧ RamBus.ram m'.bus = RamBus.ram m.bus := by
  unfold execArm
  rw [hop]
  refine refused_arm.trans ?_
  cases hw : amoWidth (funct3 insn) with
  | none =>
    refine ⟨fun _ is64 h => (nomatch h), fun _ => ?_⟩
    unfold execAmo
    rw [hw]
    exact refused_illegal
  | some is64 =>
    have hf3 : (decide (funct3 insn = 2) || decide (funct3 insn = 3)) = true := by
      unfold amoWidth at hw
      split at hw
      · next h => rw [h]; rfl
      · next h => rw [h]; rfl
      · cases hw
    unfold legalAmo at hl
    rw [hf3, Bool.true_and, Bool.and_eq_false_iff] at hl
    have hfault : ∀ e m', (ld (amoBytes is64) (m.cpu.x (rs1 insn))).run exec m = (.error e, m') → e ≠ .illegalInstruction insn :=
      fun e m' h => loadFault_legal (ld_error (by rw [h]))
    by_cases hlr : funct7 insn / 4 = 2
    · have hk : amoKind (funct7 insn / 4) = some .lr := by rw [hlr]; rfl
      refine ⟨fun h => absurd h ?_, fun h => absurd hlr (h is64 rfl).1⟩
      rcases hr : (ld (amoBytes is64) (m.cpu.x (rs1 insn))).run exec m with ⟨e | v, m'⟩
      · rintro ⟨he, -⟩
        rw [run_lr_error hw hk hr] at he
        exact hfault e m' hr (Except.error.inj he)
      · exact not_refused (congrArg Prod.fst (run_lr_ok hw hk hr))
    · have hk : amoKind (funct7 insn / 4) = none := by
        rcases hl with hk | hs
        · exact Option.not_isSome_iff_eq_none.1 (by rw [hk]; exact Bool.false_ne_true)
        · rw [decide_eq_true hlr] at hs
          cases hs
      rw [execAmo_eq_none hw hk]
      constructor
      · rintro ⟨he, hu⟩ is64' h
        cases h
        refine ⟨hlr, ?_⟩
        rw [Program.run_bind] at he hu
        rcases hr : (ld (amoBytes is64) (m.cpu.x (rs1 insn))).run exec m with ⟨e | v, m'⟩
        · rw [hr] at he
          exact absurd (Except.error.inj he) (hfault e m' hr)
        · rw [hr] at hu
          exact ⟨v, m', rfl, hu.2⟩
      · intro h
        obtain ⟨-, v, m', hr, hram⟩ := h is64 rfl
        unfold Refused
        rw [Program.run_bind, hr]
        exact ⟨rfl, tlbOnly_ld hr, hram⟩

/-! ## The words outside the instruction set -/

theorem fromWord_wide (h : insn &&& 3 = 3) : DecodedInsn.fromWord insn = ⟨insn, 4, true⟩ := by
  have hlow : insn &&& 0xffff &&& 3 = 3 := by
    rw [BitVec.and_assoc, show (0xffff : U32) &&& 3 = 3 from rfl, h]
  unfold DecodedInsn.fromWord
  exact if_pos hlow

/-- **Reserved words.**  A word outside the instruction set is refused exactly when `Refusable` holds of the state before it. -/
theorem reserved_refused [RefusingBus β] (host : Option HostFp) (m : Machine β) (insn : U32) (hlow : insn &&& 3 = 3)
    (hl : legal insn = false) : Refused m insn (executeDecoded host (.fromWord insn)) ↔ Refusable m insn := by
  rw [fromWord_wide hlow]
  refine (refused_executeDecoded (d := ⟨insn, 4, true⟩) rfl).trans ?_
  by_cases hop : opcode insn ∈ [0x67, 0x13, 0x0f, 0x1b, 0x2f, 0x07, 0x43, 0x47, 0x4b, 0x4f, 0x53, 0x73]
  · simp only [List.mem_cons, List.not_mem_nil, or_false] at hop
    unfold legal at hl
    rcases hop with hop | hop | hop | hop | hop | hop | hop | hop | hop | hop | hop | hop
    · exact ⟨fun h => absurd h (arm_untested (Or.inl hop)), fun h => absurd hop h.tested.1⟩
    · exact ⟨fun h => absurd h (arm_untested (Or.inr (Or.inl hop))), fun h => absurd hop h.tested.2.1⟩
    · exact ⟨fun h => absurd h (arm_untested (Or.inr (Or.inr hop))), fun h => absurd hop h.tested.2.2⟩
    · rw [hop] at hl
      refine (arm_shift hop hl).trans ⟨fun h => ⟨by rw [hop]; decide, fun _ => h, ?_, ?_, ?_, ?_⟩, fun h => h.shift hop⟩
      all_goals
        intro h'
        rw [hop] at h'
        exact absurd h' (by decide)
    · rw [hop] at hl
      refine (arm_amo hop hl).trans ⟨fun h => ⟨by rw [hop]; decide, ?_, fun _ => h, ?_, ?_, ?_⟩, fun h => h.amo hop⟩
      all_goals
        intro h'
        rw [hop] at h'
        exact absurd h' (by decide)
    · rw [hop] at hl
      refine (arm_loadFp hop hl).trans ⟨fun h => ⟨by rw [hop]; decide, ?_, ?_, fun _ => h, ?_, ?_⟩, fun h => h.fp
        (by rw [hop]; decide)⟩
      all_goals
        intro h'
        rw [hop] at h'
        exact absurd h' (by decide)
    iterate 4
      next =>
        rw [hop] at hl
        refine (arm_fma (by rw [hop]; decide) hl).trans
          ⟨fun h => ⟨by rw [hop]; decide, ?_, ?_, fun _ => h, ?_, ?_⟩, fun h => h.fp (by rw [hop]; decide)⟩
        all_goals
          intro h'
          rw [hop] at h'
          exact absurd h' (by decide)
    · rw [hop] at hl
      refine (arm_opFp hop hl).trans ⟨fun h => ⟨by rw [hop]; decide, ?_, ?_, fun _ => h.1, fun _ => h.2, ?_⟩,
        fun h => ⟨h.fp (by rw [hop]; decide), h.taken hop⟩⟩
      all_goals
        intro h'
        rw [hop] at h'
        exact absurd h' (by decide)
    · rw [hop] at hl
      refine (arm_system hop hl).trans ⟨fun h => ⟨by rw [hop]; decide, ?_, ?_, ?_, ?_, fun _ => h⟩, fun h => h.fence hop⟩
      all_goals
        intro h'
        rw [hop] at h'
        exact absurd h' (by decide)
  · exact ⟨fun _ => refusable_tested hop, fun _ => arm_tested hl hop⟩

/-- An AMO without a function, in width and address as `amoadd.w`. -/
def amoUnknown : U32 := 0x2800a1af

theorem reserved_refused_amo : Refused (atomicHart 0x1004) amoUnknown (executeDecoded none (.fromWord amoUnknown)) := by
  have hcheck : amoWidth (funct3 amoUnknown) = some false := rfl
  refine (reserved_refused none (atomicHart 0x1004) amoUnknown (by decide) (by decide)).2 ⟨by decide, ?_, fun _ is64 h => ?_, ?_,
    ?_, ?_⟩
  · intro h
    exact absurd h (by decide)
  · obtain rfl : false = is64 := Option.some.inj (hcheck.symm.trans h)
    exact ⟨by decide, 0x01010101, atomicHart 0x1004, rfl, rfl⟩
  · intro h
    exact absurd h (by decide)
  · intro h
    exact absurd h (by decide)
  · intro h
    exact absurd h (by decide)

/-- `jalr x0, 0(x0)` with a function of its own is executed. -/
theorem reserved_taken : ¬ ∀ insn : U32, insn &&& 3 = 3 → legal insn = false →
    Refused (atomicHart 0x1004) insn (executeDecoded none (.fromWord insn)) := fun h =>
  not_refused (a := none) rfl (h 0x1067 (by decide) (by decide))

end Hart
end Lish
