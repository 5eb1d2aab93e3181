import Lish.Core.TlbRun
/-!
# TlbFence — rewritten entries and SFENCE.VMA

A run that rewrites page-table entries leaves stale the pages for which a row held a translation through them.  A fence
with an address drops the rows of one page: where that is the only page the entries were cached for, every translation is
the walk again; where the entry was a superpage cached for two pages, the other one stays stale.
-/
namespace Lish

open Cache Tables

namespace Machine

variable {β : Type} [RamBus β]

/-! ## Runs that rewrite entries and fence -/

/-- The pages still waiting for a fence after an operation. -/
def settle (o : HartOp) (pending : Set U64) : Set U64 :=
  match o with
  | .cpu .flushTlb => ∅
  | .cpu (.flushTlbPage va) => pending \ {va >>> 12}
  | _ => pending

/-- Execution that keeps account of the pages whose cached translations were changed and not fenced since. -/
def track : Handler hartOps Exception (Machine β × Set U64) := fun o s =>
  ((exec o s.1).1, ((exec o s.1).2, settle o (s.2 ∪ touched s.1 (exec o s.1).2)))

/-- The account includes every stale page. -/
def Accounted (s : Machine β × Set U64) : Prop := stalePages s.1 ⊆ s.2

theorem stalePages_flushTlbPage (m : Machine β) (va : U64) :
    stalePages { m with cpu := m.cpu.flushTlbPage va } ⊆ stalePages m \ {va >>> 12} := by
  intro p hp
  refine ⟨stalePages_calm (Cpu.calm_apply m.cpu (.flushTlbPage va)) m.bus hp, ?_⟩
  rintro rfl
  obtain ⟨s, -, q, hq, hpage⟩ := hp
  obtain ⟨h1, h2⟩ := Cpu.flushTlbPage_page m.cpu va hpage
  rcases hq with ⟨v, hv, -⟩ | ⟨v, hv, -⟩
  · exact absurd (h1.symm.trans hv) (by simp)
  · exact absurd (h2.symm.trans hv) (by simp)

theorem Accounted.step {s : Machine β × Set U64} {o : HartOp} (hs : Accounted s) (ho : TableGuard s.1 o) :
    Accounted (track o s).2 := by
  have hexec : stalePages (exec o s.1).2 ⊆ s.2 ∪ touched s.1 (exec o s.1).2 :=
    (stalePages_exec ho).trans (Set.union_subset_union_left _ hs)
  unfold Accounted track settle
  dsimp only
  split
  · exact (stalePages_flushed (Cpu.flushed_flushTlb s.1.cpu) s.1.bus).trans_subset (Set.empty_subset _)
  · rename_i va
    exact (stalePages_flushTlbPage s.1 va).trans (Set.sdiff_subset_sdiff_left (hs.trans Set.subset_union_left))
  · exact hexec

theorem Accounted.run {α : Type} {p : Hart α} {s : Machine β × Set U64} (hs : Accounted s)
    (hg : p.Guarded track (fun s o => TableGuard s.1 o) s) : Accounted (p.run track s).2 := by
  have step : ∀ (s : Machine β × Set U64) o, Accounted s → TableGuard s.1 o → Accounted (track o s).2 :=
    fun _ _ h ho => Accounted.step h ho
  exact @Program.run_invariant _ _ _ _ _ _ Accounted step p s hs hg

/-- The account does not change what is executed. -/
theorem run_track {α : Type} (p : Hart α) (s : Machine β × Set U64) :
    (p.run track s).1 = (p.run exec s.1).1 ∧ (p.run track s).2.1 = (p.run exec s.1).2 := by
  induction p generalizing s with
  | pure a => exact ⟨rfl, rfl⟩
  | throw e => exact ⟨rfl, rfl⟩
  | op o k ih =>
    rw [Program.run_op, Program.run_op]
    unfold track
    dsimp only
    rcases exec o s.1 with ⟨_ | r, m⟩
    · exact ⟨rfl, rfl⟩
    · exact ih r _

/-- The pages for which a row held a translation through an entry that a computation changes. -/
def pendingAfter {α : Type} (p : Hart α) (m : Machine β) : Set U64 := (p.run track (m, ∅)).2.2

/-! ## The pages held -/

/-- The pages some row holds an entry for. -/
def held (c : Cpu) : Set U64 := {p | ∃ q, ((c.tlb q).isSome ∨ (c.jtlb q).isSome) ∧ q.page = p}

theorem touched_held (m m' : Machine β) : touched m m' ⊆ held m.cpu := by
  rintro p ⟨-, -, q, ⟨hq, -⟩, hp⟩
  exact ⟨q, hq, hp⟩

theorem held_drops {c c' : Cpu} (h : Cpu.Drops c c') : held c' ⊆ held c := by
  rintro p ⟨q, hq, hp⟩
  refine ⟨q, ?_, hp⟩
  simp only [Option.isSome_iff_exists] at hq ⊢
  exact hq.imp (fun ⟨v, hv⟩ => ⟨v, h.tlb q v hv⟩) fun ⟨off, hoff⟩ => ⟨off, h.jtlb q off hoff⟩

theorem held_flushed {c : Cpu} (h : c.Flushed) : held c = ∅ := by
  apply Set.eq_empty_of_forall_notMem
  rintro p ⟨q, hq, -⟩
  rw [h.1 q, h.2 q] at hq
  simp at hq

theorem held_fillTlb (c : Cpu) (access : Access) (va pa : U64) : held (fillTlb c access va pa) ⊆ held c ∪ {va >>> 12} := by
  rintro p ⟨q, hq, rfl⟩
  simp only [Option.isSome_iff_exists] at hq
  rcases hq with ⟨v, hv⟩ | ⟨off, hoff⟩
  · rcases fillTlb_cases hv with hold | ⟨-, -, hpage⟩
    · exact Or.inl ⟨q, Or.inl (by rw [hold]; rfl), rfl⟩
    · exact Or.inr hpage.symm
  · exact Or.inl ⟨q, Or.inr (by rw [fillTlb_jtlb c access va pa q off hoff]; rfl), rfl⟩

/-- A translation adds its page at most. -/
theorem held_translate {m : Machine β} {va : U64} {access : Access} (h : TablesInRam m va access) :
    held (m.translate va access).2.cpu ⊆ held m.cpu ∪ {va >>> 12} := by
  unfold translate
  cases hs : m.cpu.sys with
  | none => exact Set.subset_union_left
  | some s =>
    dsimp only
    split_ifs
    · exact Set.subset_union_left
    · rcases (translateSlow_walks hs h).2 with h2 | ⟨pa, bus', -, h2, -⟩
      · rw [h2]
        exact Set.subset_union_left
      · rw [h2]
        exact held_fillTlb ..

theorem held_fillJtlb (m : Machine β) (va pa : U64) (store : Bool) :
    held (m.fillJtlb va pa store).cpu ⊆ held m.cpu ∪ {va >>> 12} := by
  obtain ⟨-, -, htlb⟩ := fillJtlb_sys_tlb m va pa store
  rintro p ⟨q, hq, rfl⟩
  rw [htlb] at hq
  simp only [Option.isSome_iff_exists] at hq
  rcases hq with ⟨v, hv⟩ | ⟨off, hoff⟩
  · exact Or.inl ⟨q, Or.inl (by rw [hv]; rfl), rfl⟩
  · rcases fillJtlb_jtlb hoff with hold | ⟨-, -, hpage⟩
    · exact Or.inl ⟨q, Or.inr (by rw [hold]; rfl), rfl⟩
    · exact Or.inr hpage.symm

theorem held_translateFill {m : Machine β} {va : U64} {store : Bool} (h : TablesInRam m va (dataAccess store)) :
    held (m.translateFill va store).2.cpu ⊆ held m.cpu ∪ {va >>> 12} := by
  have ht := held_translate h
  unfold translateFill
  rw [show (if store = true then Access.store else Access.load) = dataAccess store from rfl]
  generalize m.translate va (dataAccess store) = r at ht ⊢
  rcases r with ⟨_ | pa, m'⟩
  · exact ht
  · exact (held_fillJtlb m' va pa store).trans (Set.union_subset ht Set.subset_union_right)

/-- An operation translates addresses of these pages only. -/
def TranslatesIn (S : Set U64) : HartOp → Prop
  | .translate va _ => va >>> 12 ∈ S
  | .translateFill va _ => va >>> 12 ∈ S
  | _ => True

theorem held_exec {m : Machine β} {o : HartOp} {S : Set U64} (hm : held m.cpu ⊆ S) (hg : TableGuard m o)
    (ho : TranslatesIn S o) : held (exec o m).2.cpu ⊆ S := by
  cases o with
  | cpu u => exact (held_drops (Cpu.calm_apply m.cpu u).drops).trans hm
  | csrWrite insn csr v =>
    rcases Cpu.csrWrite_cases m.cpu csr v with h | h
    · exact (held_drops h.drops).trans hm
    · exact (held_flushed h).trans_subset (Set.empty_subset S)
  | translate va access => exact (held_translate hg).trans (Set.union_subset hm (Set.singleton_subset_iff.2 ho))
  | translateFill va store => exact (held_translateFill hg).trans (Set.union_subset hm (Set.singleton_subset_iff.2 ho))
  | get | read | write | fetch16 | fetch32IfSafe | irqLines => exact hm

/-- The account and the rows keep to the pages translated. -/
theorem pendingAfter_subset {α : Type} {p : Hart α} {m : Machine β} {S : Set U64} (hm : held m.cpu ⊆ S)
    (hg : p.Guarded track (fun s o => TableGuard s.1 o ∧ TranslatesIn S o) (m, ∅)) :
    held (p.run exec m).2.cpu ⊆ S ∧ pendingAfter p m ⊆ S := by
  have step : ∀ (s : Machine β × Set U64) o, (held s.1.cpu ⊆ S ∧ s.2 ⊆ S) → (TableGuard s.1 o ∧ TranslatesIn S o) →
      held (track o s).2.1.cpu ⊆ S ∧ (track o s).2.2 ⊆ S := by
    rintro s o ⟨hh, hp⟩ ⟨hg, ho⟩
    refine ⟨held_exec hh hg ho, ?_⟩
    have hsettle : ∀ P, P ⊆ S → settle o P ⊆ S := fun P hP => by
      unfold settle
      split
      · exact Set.empty_subset S
      · exact Set.sdiff_subset.trans hP
      · exact hP
    exact hsettle _ (Set.union_subset hp ((touched_held _ _).trans hh))
  have h := @Program.run_invariant _ _ _ _ _ _ (fun s => held s.1.cpu ⊆ S ∧ s.2 ⊆ S) step p (m, ∅)
    ⟨hm, Set.empty_subset S⟩ hg
  rw [(run_track p (m, ∅)).2] at h
  exact h

/-! ## The fence -/

/-- SFENCE.VMA with an address operand. -/
def isSfenceVma (d : DecodedInsn) : Bool :=
  d.valid && decide (opcode d.bits = 0x73 ∧ funct7 d.bits = 0x09 ∧ funct3 d.bits = 0 ∧ rs1 d.bits ≠ 0)

/-- The fence drops the page its register names. -/
theorem run_sfence {m : Machine β} {d : DecodedInsn} (host : Option HostFp) (hd : isSfenceVma d = true)
    (hok : Hart.sfenceAllowed m.cpu = true) :
    (Hart.executeDecoded host d).run exec m = (.ok none,
      ⟨CpuOp.apply ((m.cpu.flushTlbPage (m.cpu.x (rs1 d.bits))).bumpMapGeneration) (.retire (m.cpu.pc + d.byteLen)),
        m.bus⟩) := by
  unfold isSfenceVma at hd
  rw [Bool.and_eq_true, decide_eq_true_eq] at hd
  obtain ⟨hv, hop, h7, h3, h1⟩ := hd
  have hne : d.bits ≠ 0x00000073 ∧ d.bits ≠ 0x00100073 ∧ d.bits ≠ 0x30200073 ∧ d.bits ≠ 0x10200073 ∧
      d.bits ≠ 0x10500073 := by
    refine ⟨?_, ?_, ?_, ?_, ?_⟩ <;> intro h <;> rw [h] at h7 <;> exact absurd h7 (by decide)
  have harm : ∀ c seq, Hart.execArm host c d.bits seq = Hart.execSystem c d.bits seq := fun c seq => by
    unfold Hart.execArm
    rw [hop]
    rfl
  unfold Hart.executeDecoded
  rw [hv]
  change Program.run exec (Program.bind (Hart.execArm host m.cpu d.bits (m.cpu.pc + d.byteLen)) _) m = _
  rw [harm]
  unfold Hart.execSystem
  rw [if_neg hne.1, if_neg hne.2.1, if_neg hne.2.2.1, if_neg hne.2.2.2.1, if_neg hne.2.2.2.2, if_pos ⟨h7, h3⟩]
  unfold Hart.execSfence
  rw [hok, if_neg h1]
  rfl

/-- The states of runs in which rewritten entries are fenced by address, the fence naming the only page they were cached
for. -/
inductive Fenced : Machine β → Prop
  | start {c : Cpu} (hc : c.Flushed) (hartid : U64) (bus : β) : Fenced ⟨c.enableSystem hartid, bus⟩
  | run {m : Machine β} {α : Type} (p : Hart α) (h : Fenced m) (hg : p.Guarded exec Gentle m) : Fenced (p.run exec m).2
  | fence {m : Machine β} {α : Type} (p : Hart α) (host : Option HostFp) (d : DecodedInsn) (h : Fenced m)
      (hg : p.Guarded track (fun s o => TableGuard s.1 o) (m, ∅)) (hd : isSfenceVma d = true)
      (hok : Hart.sfenceAllowed (p.run exec m).2.cpu = true)
      (hpage : pendingAfter p m ⊆ {(p.run exec m).2.cpu.x (rs1 d.bits) >>> 12}) :
      Fenced ((Hart.executeDecoded host d).run exec (p.run exec m).2).2

theorem Fenced.stale {m : Machine β} (h : Fenced m) : stalePages m = ∅ := by
  induction h with
  | start hc hartid bus => exact stalePages_start hc hartid bus
  | run p _ hg ih => exact run_gentle ih hg
  | @fence m α p host d _ hg hd hok hpage ih =>
    have hacc : Accounted (p.run track (m, ∅)).2 := Accounted.run (s := (m, ∅)) ih.subset hg
    unfold Accounted at hacc
    rw [(run_track p (m, ∅)).2] at hacc
    have hpend : stalePages (p.run exec m).2 ⊆ {(p.run exec m).2.cpu.x (rs1 d.bits) >>> 12} := hacc.trans hpage
    rw [run_sfence host hd hok]
    generalize (p.run exec m).2 = m1 at *
    have hcalm : Cpu.Calm (m1.cpu.flushTlbPage (m1.cpu.x (rs1 d.bits)))
        (CpuOp.apply ((m1.cpu.flushTlbPage (m1.cpu.x (rs1 d.bits))).bumpMapGeneration) (.retire (m1.cpu.pc + d.byteLen))) :=
      Cpu.SameRows.calm ⟨rfl, rfl, rfl, rfl, rfl⟩
    have hflush := (stalePages_calm hcalm m1.bus).trans (stalePages_flushTlbPage m1 (m1.cpu.x (rs1 d.bits)))
    refine Set.subset_empty_iff.1 (hflush.trans ?_)
    rintro q ⟨hq, hne⟩
    exact hne (hpend hq)

/-- Load the address of the page and rewrite the entry of the first GiB. -/
def rewrite : Hart Unit := do
  Hart.upd (.wr 1 0x2000)
  Hart.write .w8 0x1000 0x100000c7

theorem held_warm : held (warmUp.run exec booted).2.cpu ⊆ {2} := by
  have honly : warmUp.Only (TranslatesIn {2}) := .op trivial fun _ => .op trivial fun _ => .op rfl fun _ => .pure _
  have hg : warmUp.Guarded track (fun s o => TableGuard s.1 o ∧ TranslatesIn {2} o) (booted, ∅) :=
    honly.guarded (fun s o ho => ⟨FlatMemory.tableGuard s.1 o, ho⟩) (booted, ∅)
  exact (pendingAfter_subset ((held_flushed flushed_new).trans_subset (Set.empty_subset _)) hg).1

theorem only_rewrite : rewrite.Only (TranslatesIn {2}) := .op trivial fun _ => .op trivial fun _ => .pure _

theorem guarded_rewrite (m : Machine FlatMemory) : rewrite.Guarded track (fun s o => TableGuard s.1 o ∧ TranslatesIn {2} o) (m, ∅) :=
  only_rewrite.guarded (fun s o ho => ⟨FlatMemory.tableGuard s.1 o, ho⟩) (m, ∅)

/-- The guest loads from two pages of the first GiB, maps the GiB elsewhere and fences with an address of the first page. -/
def remap : Hart Unit := do
  let _ ← warmUp
  let _ ← Hart.translate 0x3000 .load
  Hart.upd (.wr 1 0x2000)
  Hart.upd (.wr 3 0x1000)
  Hart.upd (.wr 4 0x100000c7)
  let _ ← Hart.executeDecoded none (.fromWord 0x0041b023) -- sd x4, 0(x3)
  let _ ← Hart.executeDecoded none (.fromWord 0x12008073) -- sfence.vma x1
  return ()

end Machine
end Lish
