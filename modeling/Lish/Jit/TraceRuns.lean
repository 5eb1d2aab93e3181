import Lish.Core.Exec
import Lish.Jit.Leaders
/-!
# TraceRuns — the interpreter along a path of the window

What a trace stands for: the instructions of the window, executed one after another along a path of addresses.
-/
namespace Lish

/-- The value of an instruction inside a trace. -/
def aluResult (insn : U32) (pc : U64) (x : Fin 32 → U64) : Option U64 :=
  match opcode insn with
  | 0x37 => some (immU insn)
  | 0x17 => some (pc + immU insn)
  | 0x13 => some (opImm insn (x (rs1 insn)))
  | 0x1b => opImm32 insn (x (rs1 insn))
  | 0x33 => op64 insn (x (rs1 insn)) (x (rs2 insn))
  | 0x3b => op32 insn (x (rs1 insn)) (x (rs2 insn))
  | _ => none

/-- The registers that the value is made of. -/
def aluReads (insn : U32) : List (Fin 32) :=
  match opcode insn with
  | 0x13 => [rs1 insn]
  | 0x1b => [rs1 insn]
  | 0x33 => [rs1 insn, rs2 insn]
  | 0x3b => [rs1 insn, rs2 insn]
  | _ => []

theorem aluResult_congr {insn : U32} {pc : U64} {x y : Fin 32 → U64} (h : ∀ r ∈ aluReads insn, y r = x r) :
    aluResult insn pc y = aluResult insn pc x := by
  unfold aluReads at h
  unfold aluResult
  split <;> simp_all

namespace Cpu

variable (c : Cpu)

/-- Retire an instruction. -/
def goTo (pc : U64) : Cpu := { c with pc, insnCount := c.insnCount + 1 }

/-- An instruction of a trace changes a register and moves on. -/
def traceStep (insn : U32) (ilen : U64) : Option Cpu :=
  let seq := c.pc + ilen
  match opcode insn with
  | 0x6f => some ((c.wr (rd insn) seq).goTo (c.pc + immJ insn))
  | 0x67 => some ((c.wr (rd insn) seq).goTo ((c.x (rs1 insn) + immI insn) &&& ~~~1))
  | 0x63 => (branchTaken (funct3 insn) (c.x (rs1 insn)) (c.x (rs2 insn))).map fun taken => c.goTo
    (if taken then c.pc + immB insn else seq)
  | _ => (aluResult insn c.pc c.x).map fun v => (c.wr (rd insn) v).goTo seq

theorem wr_goTo (d : Fin 32) (v pc : U64) :
    (c.wr d v).goTo pc = { c with x := ((c.wr d v).goTo pc).x, pc, insnCount := c.insnCount + 1 } := by
  unfold wr
  split_ifs <;> rfl

theorem traceStep_frame {c c' : Cpu} {insn : U32} {ilen : U64} (h : c.traceStep insn ilen = some c') :
    c' = { c with x := c'.x, pc := c'.pc, insnCount := c.insnCount + 1 } := by
  unfold traceStep at h
  dsimp only at h
  split at h
  · rw [← Option.some.inj h]
    exact c.wr_goTo _ _ _
  · rw [← Option.some.inj h]
    exact c.wr_goTo _ _ _
  · obtain ⟨taken, -, rfl⟩ := Option.map_eq_some_iff.1 h
    rfl
  · obtain ⟨v, -, rfl⟩ := Option.map_eq_some_iff.1 h
    exact c.wr_goTo _ _ _

end Cpu

section

variable {β : Type} [Bus β]

/-- **The interpreter executes it so.** -/
theorem executeOne_traceStep (host : Option HostFp) {m : Machine β} {insn : U32} {n : ℕ} {c : Cpu}
    (h : m.cpu.traceStep insn (BitVec.ofNat 64 n) = some c) : m.executeOne host ⟨insn, n, true⟩ = (none, { m with cpu := c }) := by
  have hrun : (Hart.executeDecoded host ⟨insn, n, true⟩).run Machine.exec m = (.ok none, { m with cpu := c }) := by
    unfold Hart.executeDecoded Hart.execArm
    unfold Cpu.traceStep at h
    dsimp only at h
    split at h
    · rename_i hop
      rw [hop, ← Option.some.inj h]
      rfl
    · rename_i hop
      rw [hop, ← Option.some.inj h]
      rfl
    · rename_i hop
      obtain ⟨taken, ht, rfl⟩ := Option.map_eq_some_iff.1 h
      rw [hop]
      change Program.run Machine.exec (((Hart.require insn (branchTaken _ (m.cpu.x _) (m.cpu.x _))).bind _).bind _) m = _
      rw [ht]
      rfl
    · obtain ⟨v, hv, rfl⟩ := Option.map_eq_some_iff.1 h
      unfold aluResult at hv
      split at hv
      · rename_i hop
        rw [hop, ← Option.some.inj hv]
        rfl
      · rename_i hop
        rw [hop, ← Option.some.inj hv]
        rfl
      · rename_i hop
        rw [hop, ← Option.some.inj hv]
        rfl
      · rename_i hop
        rw [hop]
        change Program.run Machine.exec (((Hart.require insn (opImm32 insn (m.cpu.x _))).bind _).bind _) m = _
        rw [hv]
        rfl
      · rename_i hop
        rw [hop]
        change Program.run Machine.exec (((Hart.require insn (op64 insn (m.cpu.x _) (m.cpu.x _))).bind _).bind _) m = _
        rw [hv]
        rfl
      · rename_i hop
        rw [hop]
        change Program.run Machine.exec (((Hart.require insn (op32 insn (m.cpu.x _) (m.cpu.x _))).bind _).bind _) m = _
        rw [hv]
        rfl
      · cases hv
  unfold Machine.executeOne
  rw [hrun]
  rfl

namespace CodeWindow

variable (w : CodeWindow) (host : Option HostFp)

/-- Execute the instructions at the addresses of a path, each of which the hart is at when its turn comes. -/
def follow : List U64 → Machine β → Option (Machine β)
  | [], m => some m
  | pc :: path, m =>
    if m.cpu.pc = pc then
      (w.fetch pc).bind fun f =>
        let (out, m) := m.executeOne host ⟨f.1, f.2.toNat, true⟩
        if out = none then follow path m else none
    else none

end CodeWindow

end

/-! ## Without the machine -/

namespace CodeWindow

variable (w : CodeWindow)

/-- The instructions of a trace along a path. -/
def traceAlong : List U64 → Cpu → Option Cpu
  | [], c => some c
  | pc :: path, c => if c.pc = pc then (w.fetch pc).bind fun f => (c.traceStep f.1 f.2).bind (traceAlong path) else none

theorem traceAlong_append (p q : List U64) (c : Cpu) : w.traceAlong (p ++ q) c = (w.traceAlong p c).bind (w.traceAlong q) := by
  induction p generalizing c with
  | nil => rfl
  | cons pc p ih =>
    rw [List.cons_append, traceAlong, traceAlong]
    split_ifs
    · rw [Option.bind_assoc]
      congr 1
      funext f
      rw [Option.bind_assoc]
      congr 1
      funext c'
      exact ih c'
    · rfl

/-- The path goes on with an instruction of a trace. -/
theorem traceAlong_step {path : List U64} {c c' c'' : Cpu} (h : w.traceAlong path c = some c') {insn : U32} {ilen : U64}
    (hf : w.fetch c'.pc = some (insn, ilen)) (hc : c'.traceStep insn ilen = some c'') :
    w.traceAlong (path ++ [c'.pc]) c = some c'' := by
  rw [traceAlong_append, h, Option.bind_some, traceAlong, if_pos rfl, hf, Option.bind_some]
  dsimp only
  rw [hc]
  rfl

/-- Nothing of the hart changes but its registers, its pc and its count. -/
theorem traceAlong_frame {path : List U64} {c c' : Cpu} (h : w.traceAlong path c = some c') :
    c' = { c with x := c'.x, pc := c'.pc, insnCount := c.insnCount + BitVec.ofNat 64 path.length } := by
  induction path generalizing c with
  | nil =>
    obtain rfl := Option.some.inj h
    rw [List.length_nil, BitVec.add_zero]
  | cons pc path ih =>
    rw [traceAlong] at h
    split_ifs at h
    obtain ⟨f, -, h⟩ := Option.bind_eq_some_iff.1 h
    obtain ⟨c₁, hc, h⟩ := Option.bind_eq_some_iff.1 h
    have hn : c.insnCount + 1 + BitVec.ofNat 64 path.length = c.insnCount + BitVec.ofNat 64 (path.length + 1) := by
      rw [BitVec.add_assoc, BitVec.ofNat_add, BitVec.add_comm 1]
      rfl
    have hc' := ih h
    rw [Cpu.traceStep_frame hc] at hc'
    dsimp only at hc'
    rw [hn] at hc'
    exact hc'

/-- **The interpreter follows it.** -/
theorem follow_traceAlong {β : Type} [Bus β] (host : Option HostFp) {path : List U64} {m : Machine β} {c : Cpu}
    (h : w.traceAlong path m.cpu = some c) : w.follow host path m = some { m with cpu := c } := by
  induction path generalizing m with
  | nil =>
    obtain rfl := Option.some.inj h
    rfl
  | cons pc path ih =>
    rw [traceAlong] at h
    rw [follow]
    split_ifs at h ⊢ with hpc
    · obtain ⟨f, hf, h⟩ := Option.bind_eq_some_iff.1 h
      obtain ⟨c', hc', h⟩ := Option.bind_eq_some_iff.1 h
      have he := executeOne_traceStep host (m := m) (n := f.2.toNat) (by rwa [BitVec.ofNat_toNat, BitVec.setWidth_eq])
      rw [hf, Option.bind_some, he]
      exact ih (m := { m with cpu := c' }) h

end CodeWindow

end Lish
