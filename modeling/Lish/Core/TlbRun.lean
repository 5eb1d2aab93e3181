import Lish.Core.TlbStep
/-!
# TlbRun — translations over whole runs

A run starts in full-system mode with empty rows and goes on with any computations of the hart: instructions, traps,
interrupt polls, CSR writes, probes.  While no entry of the page tables changes under a cached translation, a translation is
the walk.
-/
namespace Lish

open Cache Tables

namespace Machine

variable {β : Type} [RamBus β]

/-- The hart with all rows empty. -/
def emptied (m : Machine β) : Machine β := { m with cpu := m.cpu.flushTlb }

/-! ## Looking up -/

theorem takeLeaf_fst (m m' : Machine β) (s : SysCsrs) (va : U64) (access : Access) (leaf : Leaf) (bus : β) :
    (m.takeLeaf s va access leaf bus).1 = (m'.takeLeaf s va access leaf bus).1 := by
  unfold takeLeaf
  dsimp only
  split_ifs
  · rfl
  · rcases Bus.write .w8 bus leaf.pteAddr (updatePte access leaf.pte) with ⟨_ | _, _⟩ <;> rfl
  · rfl

theorem walkTables_fst (m : Machine β) (c : Cpu) (s : SysCsrs) (levels : ℕ) (va : U64) (access : Access) :
    (walkTables ⟨c, m.bus⟩ s levels va access).1 = (m.walkTables s levels va access).1 := by
  unfold walkTables
  dsimp only
  split_ifs
  · rfl
  · rcases findLeaf access va (levels - 1) ((s.satp &&& 0xfffffffffff) <<< 12) m.bus with ⟨_ | leaf, bus⟩
    · rfl
    · exact takeLeaf_fst ..

/-- The answer of the walk does not depend on the rows. -/
theorem translateSlow_fst (m : Machine β) {c : Cpu} (hc : c.sys = m.cpu.sys) (va : U64) (access : Access) :
    (translateSlow ⟨c, m.bus⟩ va access).1 = (m.translateSlow va access).1 := by
  unfold translateSlow
  dsimp only
  rw [hc]
  cases m.cpu.sys with
  | none => rfl
  | some s =>
    dsimp only
    split_ifs
    · rfl
    · exact walkTables_fst m c s 3 va access
    · exact walkTables_fst m c s 4 va access
    · rfl

/-- A page that is not stale is translated as the walk does. -/
theorem translate_eq_emptied {m : Machine β} {va : U64} (hp : va >>> 12 ∉ stalePages m) (access : Access) :
    (m.translate va access).1 = (m.emptied.translateSlow va access).1 := by
  have hslow : (m.emptied.translateSlow va access).1 = (m.translateSlow va access).1 :=
    translateSlow_fst m (c := m.cpu.flushTlb) rfl va access
  rw [hslow]
  unfold translate
  cases hs : m.cpu.sys with
  | none =>
    unfold translateSlow
    rw [hs]
  | some s =>
    dsimp only
    split_ifs with htag
    · have hw := walked_of_hit hs (tlb_hit htag) hp
      rw [(translateSlow_walks hs (tablesInRam_of_walked hs hw)).1, hw]
      rfl
    · rfl

/-! ## Runs that keep the cached entries -/

/-- The walks of an operation read memory, and it changes no entry under a cached translation. -/
def Gentle (m : Machine β) (o : HartOp) : Prop := TableGuard m o ∧ touched m (exec o m).2 = ∅

end Machine

namespace FlatMemory

open Machine

/-- Every entry is memory, or there is nothing at its address. -/
theorem tableAccess (m : FlatMemory) (a : U64) : TableAccess m a := by
  by_cases h : InRam (RamBus.ram m) a 8
  · exact Or.inl h
  · exact Or.inr (PureRam.read_refused .w8 m a h)

theorem tableGuard (m : Machine FlatMemory) (o : HartOp) : TableGuard m o := by
  cases o <;> first | exact trivial | exact fun _ _ _ _ => tableAccess _ _

/-- Everything but a write keeps the tables, up to accessed and dirty bits. -/
def isWrite : HartOp → Bool
  | .write _ _ _ => true
  | _ => false

theorem read_bus (w : Width) (m : FlatMemory) (a : U64) : (Bus.read w m a).2 = m := by
  cases h : m.offset a w.bytes with
  | none => simp only [Bus.read, h]
  | some off => simp only [Bus.read, h]

theorem fetch16_bus (m : FlatMemory) (a : U64) : (Bus.fetch16 m a).2 = m := by
  cases h : m.offset a Width.w2.bytes with
  | none => simp only [Bus.fetch16, h]
  | some off => simp only [Bus.fetch16, h]

theorem fetch32IfSafe_bus (m : FlatMemory) (a : U64) : (Bus.fetch32IfSafe m a).2 = m := by
  cases h : m.offset a 4 with
  | none => simp only [Bus.fetch32IfSafe, h]
  | some off => simp only [Bus.fetch32IfSafe, h]

theorem adSame_exec (m : Machine FlatMemory) {o : HartOp} (ho : isWrite o = false) : AdSame m.bus (exec o m).2.bus := by
  cases o with
  | write w pa v => cases ho
  | translate va access => exact adSame_translate (tableGuard m (.translate va access))
  | translateFill va store => exact adSame_translateFill (tableGuard m (.translateFill va store))
  | read w pa =>
    change AdSame m.bus (Bus.read w m.bus pa).2
    rw [read_bus]
    exact .refl _
  | fetch16 pa =>
    change AdSame m.bus (Bus.fetch16 m.bus pa).2
    rw [fetch16_bus]
    exact .refl _
  | fetch32IfSafe pa =>
    change AdSame m.bus (Bus.fetch32IfSafe m.bus pa).2
    rw [fetch32IfSafe_bus]
    exact .refl _
  | get => exact .refl _
  | cpu u => exact .refl _
  | csrWrite insn csr v => exact .refl _
  | irqLines => exact .refl _

theorem gentle (m : Machine FlatMemory) {o : HartOp} (ho : isWrite o = false) : Gentle m o :=
  ⟨tableGuard m o, touched_adSame _ _ (adSame_exec m ho)⟩

end FlatMemory

namespace Machine

variable {β : Type} [RamBus β]

/-- The states reached from `enableSystem` by computations of the hart that change no page-table entry once cached, but for
accessed and dirty bits. -/
inductive Reachable : Machine β → Prop
  | start {c : Cpu} (hc : c.Flushed) (hartid : U64) (bus : β) : Reachable ⟨c.enableSystem hartid, bus⟩
  | run {m : Machine β} {α : Type} (p : Hart α) (h : Reachable m) (hg : p.Guarded exec Gentle m) :
      Reachable (p.run exec m).2

theorem stalePages_start {c : Cpu} (hc : c.Flushed) (hartid : U64) (bus : β) :
    stalePages ⟨c.enableSystem hartid, bus⟩ = ∅ := by
  have hf : (c.enableSystem hartid).Flushed := ⟨hc.1, hc.2⟩
  exact stalePages_flushed hf bus

theorem Gentle.stale {m : Machine β} {o : HartOp} (hm : stalePages m = ∅) (h : Gentle m o) :
    stalePages (exec o m).2 = ∅ := by
  have hsub := stalePages_exec h.1
  rw [hm, h.2, Set.union_empty] at hsub
  exact Set.subset_empty_iff.1 hsub

theorem run_gentle {α : Type} {p : Hart α} {m : Machine β} (hm : stalePages m = ∅) (hg : p.Guarded exec Gentle m) :
    stalePages (p.run exec m).2 = ∅ := by
  have step : ∀ (m : Machine β) o, stalePages m = ∅ → Gentle m o → stalePages (exec o m).2 = ∅ :=
    fun _ _ hs ho => Gentle.stale hs ho
  exact @Program.run_invariant _ _ _ _ _ _ (fun m => stalePages m = ∅) step p m hm hg

theorem Reachable.stale {m : Machine β} (h : Reachable m) : stalePages m = ∅ := by
  induction h with
  | start hc hartid bus => exact stalePages_start hc hartid bus
  | run p _ hg ih => exact run_gentle ih hg

/-- A machine in full-system mode over sixteen KiB of memory; the table at 0x1000 maps the first GiB to itself. -/
def booted : Machine FlatMemory where
  cpu := Cpu.new.enableSystem 0
  bus :=
    { base := 0
      len := 0x4000
      mem := fun i => if i = 0x1000 then 0xc7 else 0
      fits := by decide
      len_lt := by decide }

/-- Paging on, with the data accesses of machine mode made as supervisor mode makes them, and one load translated. -/
def warmUp : Hart U64 := do
  Hart.csrWrite 0 MSTATUS (MSTATUS_MPRV ||| 0x800)
  Hart.csrWrite 0 SATP ((8#64 <<< 60) ||| 1)
  Hart.translate 0x2000 .load

theorem flushed_new : Cpu.new.Flushed := Cpu.flushed_of_invalid (fun _ _ => rfl) fun _ _ => rfl

theorem only_warmUp : warmUp.Only (fun o => FlatMemory.isWrite o = false) :=
  .op rfl fun _ => .op rfl fun _ => .op rfl fun _ => .pure _

theorem guarded_warmUp : warmUp.Guarded exec Gentle booted := only_warmUp.guarded (fun m _ => FlatMemory.gentle m) booted

end Machine
end Lish
