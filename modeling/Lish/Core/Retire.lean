import Lish.Core.Control
/-!
# Retire — what one instruction does to the hart's progress

An instruction that succeeds counts one, an instruction that traps none.  Without counting, a hart can only lose interrupts it
could take (`interruptRank`): traps and interrupts close them, and what opens them retires.
-/
namespace Lish

open Program

/-! ## Counting -/

namespace Hart

def Counts : HartOp → Prop
  | .cpu (.retire _) | .cpu .countInsn => True
  | _ => False

/-- Execution goes on at a pc. -/
def GoesTo : Next → Prop
  | .to _ _ => True
  | .trapped => False

theorem plain_counts {o : HartOp} (h : Plain o) : ¬ Counts o := by
  intro hc
  unfold Counts at hc
  split at hc
  · exact h
  · exact h
  · exact hc

theorem csrPut_counts (insn : U32) (csr : ℕ) (v : Option U64) : Shape (fun o => ¬ Counts o) (fun _ => True) (csrPut insn csr v) := by
  cases v with
  | none => exact .pure trivial
  | some v => exact .op id fun _ => .pure trivial

theorem execCsr_counts (c : Cpu) (insn : U32) : Shape (fun o => ¬ Counts o) (fun _ => True) (execCsr c insn) := by
  have hfp : Shape (fun o => ¬ Counts o) (fun _ => True) (csrFp c insn (insn >>> 20).toNat) := by
    unfold csrFp
    split_ifs
    · exact (fpCheck_shape c insn).bind fun _ _ => shape_upd id
    · exact .pure trivial
  exact hfp.bind fun _ _ => shape_get id fun _ => (shape_require insn _ fun _ _ => trivial).bind fun _ _ =>
    (csrPut_counts insn _ _).bind fun _ _ => shape_upd id

theorem execSystem_counts (c : Cpu) {insn : U32} (seq : U64) (h : insn ≠ 0x00000073) :
    Shape (fun o => ¬ Counts o) GoesTo (execSystem c insn seq) := by
  unfold execSystem
  rw [if_neg h]
  split_ifs
  · exact .throw _
  · exact .pure trivial
  · refine (shape_upd id).bind fun _ _ => (shape_require insn c.sys fun _ _ => trivial).bind fun s _ => ?_
    split_ifs
    · exact .throw _
    · exact (shape_upd id).bind fun _ _ => .pure trivial
  · refine (shape_upd id).bind fun _ _ => (shape_require insn c.sys fun _ _ => trivial).bind fun s _ => ?_
    split_ifs
    · exact .throw _
    · exact (shape_upd id).bind fun _ _ => .pure trivial
  · unfold execWfi
    cases c.sys with
    | none => exact .pure trivial
    | some s =>
      dsimp only
      split_ifs
      · exact .throw _
      · exact .pure trivial
      · exact .pure trivial
  · refine Shape.bind (Q := fun _ => True) ?_ fun _ _ => .pure trivial
    unfold execSfence
    split_ifs
    · exact .throw _
    · exact (shape_upd id).bind fun _ _ => shape_upd id
    · exact (shape_upd id).bind fun _ _ => shape_upd id
  · exact (execCsr_counts c insn).bind fun _ _ => .pure trivial
  · exact .throw _

/-- Every arm but ECALL leaves counting to the shared tail. -/
theorem execArm_counts (host : Option HostFp) (c : Cpu) {insn : U32} (seq : U64) (h : insn ≠ 0x00000073) :
    Shape (fun o => ¬ Counts o) GoesTo (execArm host c insn seq) := by
  by_cases hf : opcode insn = 0x0f
  · unfold execArm
    rw [hf]
    refine Shape.bind (Q := fun _ => True) ?_ fun _ _ => .pure trivial
    unfold fence
    split_ifs
    · exact shape_upd id
    · exact .pure trivial
  by_cases hs : opcode insn = 0x73
  · unfold execArm
    rw [hs]
    exact execSystem_counts c seq h
  · refine (execArm_plain host c seq hf hs).mono (fun _ => plain_counts) fun r hr => ?_
    rcases r with ⟨pc, stop⟩ | _
    · trivial
    · exact hr

end Hart

namespace Machine

variable {β : Type} [Bus β] {m m' : Machine β}

theorem exec_insnCount (m : Machine β) {o : HartOp} (h : ¬ Hart.Counts o) : (exec o m).2.cpu.insnCount = m.cpu.insnCount := by
  have hf := (exec_frame busRel_true o m).2
  cases o with
  | cpu u =>
    change (u.apply m.cpu).insnCount = m.cpu.insnCount
    cases u with
    | wr rd v =>
      change (m.cpu.wr rd v).insnCount = _
      unfold Cpu.wr
      split_ifs <;> rfl
    | retire next => exact absurd trivial h
    | countInsn => exact absurd trivial h
    | trap cause tval isInterrupt => exact (Cpu.clocks_takeTrap m.cpu cause tval isInterrupt).2
    | _ => rfl
  | csrWrite insn csr v => exact (Cpu.clocks_csrWrite m.cpu csr v).2
  | translate va access => exact TlbOnly.insnCount hf
  | translateFill va store => exact TlbOnly.insnCount hf
  | _ => rfl

theorem run_insnCount {α : Type} {p : Hart α} {Q : α → Prop} (hp : p.Shape (fun o => ¬ Hart.Counts o) Q) (m : Machine β) :
    (p.run exec m).2.cpu.insnCount = m.cpu.insnCount :=
  hp.run_keeps (g := fun m : Machine β => m.cpu.insnCount) (fun _ m ho => exec_insnCount m ho) m

theorem exec_get (m : Machine β) : exec .get m = (.ok m.cpu, m) := rfl

theorem exec_cpu (u : CpuOp) (m : Machine β) : exec (.cpu u) m = (.ok (), { m with cpu := u.apply m.cpu }) := rfl

theorem run_get {α : Type} (f : Cpu → Hart α) (m : Machine β) : (Hart.get.bind f).run exec m = (f m.cpu).run exec m :=
  run_op_ok (exec_get m) _

theorem run_upd {α : Type} (u : CpuOp) (f : Unit → Hart α) (m : Machine β) :
    ((Hart.upd u).bind f).run exec m = (f ()).run exec { m with cpu := u.apply m.cpu } :=
  run_op_ok (exec_cpu u m) _

/-- **An instruction** that succeeds counts one, else none. -/
theorem executeDecoded_insnCount (host : Option HostFp) (d : DecodedInsn) (m : Machine β) :
    match (Hart.executeDecoded host d).run exec m with
    | (.ok _, m') => m'.cpu.insnCount = m.cpu.insnCount + 1
    | (.error _, m') => m'.cpu.insnCount = m.cpu.insnCount := by
  unfold Hart.executeDecoded
  by_cases hv : !d.valid
  · rw [if_pos hv]
    rfl
  rw [if_neg hv]
  simp only [Program.bind_eq]
  rw [run_get]
  by_cases he : d.bits = 0x00000073
  · have harm : Hart.execArm host m.cpu d.bits (m.cpu.pc + d.byteLen) = Hart.execEcall m.cpu (m.cpu.pc + d.byteLen) := by
      rw [he]
      rfl
    rw [harm]
    unfold Hart.execEcall
    cases m.cpu.sys with
    | none => exact rfl
    | some s =>
      dsimp only
      split_ifs
      · exact rfl
      · exact congrArg (· + 1) (Cpu.clocks_takeTrap m.cpu _ 0 false).2
  · have hshape := Hart.execArm_counts host m.cpu (m.cpu.pc + d.byteLen) he
    have hc := run_insnCount hshape m
    rw [run_bind]
    rcases hr : (Hart.execArm host m.cpu d.bits (m.cpu.pc + d.byteLen)).run exec m with ⟨e | next, m₁⟩
    · rw [hr] at hc
      exact hc
    · rw [hr] at hc
      have hq := hshape.run_ok hr
      rcases next with ⟨pc, stop⟩ | _
      · exact congrArg (· + 1) hc
      · exact absurd hq id

end Machine

/-! ## Fetching -/

namespace Machine

variable {β : Type} [Bus β] {m m' : Machine β}

/-- What a step does to the count. -/
theorem step_insnCount (host : Option HostFp) (m : Machine β) :
    match (Hart.step host).run exec m with
    | (.ok _, m') => m'.cpu.insnCount = m.cpu.insnCount + 1
    | (.error _, m') => m'.cpu.insnCount = m.cpu.insnCount := by
  rw [Hart.step_eq, run_get]
  split_ifs
  · exact rfl
  · have hshape : (Hart.fetchInsn m.cpu).Shape (fun o => ¬ Hart.Counts o) fun _ => True :=
      (Hart.fetchInsn_shape m.cpu).mono (fun o ho hc => by cases o <;> first | exact ho | exact hc) fun _ h => h
    have hc := run_insnCount hshape m
    rw [run_bind]
    rcases hf : (Hart.fetchInsn m.cpu).run exec m with ⟨e | full, m₁⟩ <;> rw [hf] at hc
    · exact hc
    · have he := executeDecoded_insnCount host (.fromWord full) m₁
      dsimp only at hc he ⊢
      rcases hr : (Hart.executeDecoded host (.fromWord full)).run exec m₁ with ⟨e | stop, m₂⟩
      · rw [hr] at he
        exact he.trans hc
      · rw [hr] at he
        dsimp only at he ⊢
        rw [he, hc]

end Machine
end Lish
