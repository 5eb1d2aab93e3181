import Lish.Core.Arms
/-!
# Control — the registers that plain operations leave alone

The control registers are all but those an instruction computes with: pc and counters, the privileged state but for the FP
dirty bits, and the fetch row of the TLB.  Plain operations leave them alone, so an instruction of the plain arms changes them
by retiring only.
-/
namespace Lish

/-- The registers with those that plain operations move blanked. -/
def Cpu.control (c : Cpu) : Cpu :=
  { c with
    x := fun _ => 0
    f := fun _ => 0
    fcsr := 0
    reservation := none
    sys := c.sys.map fun s => { s with mstatus := s.mstatus ||| MSTATUS_FS }
    tlbTag := fun r i => if r = 0 then c.tlbTag r i else 0
    tlbDiff := fun r i => if r = 0 then c.tlbDiff r i else 0
    jtlbTag := fun _ _ => 0
    jtlbOff := fun _ _ => 0 }

namespace Machine

variable {β : Type} [Bus β] {m : Machine β}

/-! ## Translation -/

/-- Only the rows of data accesses differ. -/
def DataRows (c c' : Cpu) : Prop :=
  TlbOnly c c' ∧ ∀ i, c'.tlbTag 0 i = c.tlbTag 0 i ∧ c'.tlbDiff 0 i = c.tlbDiff 0 i

theorem DataRows.refl (c : Cpu) : DataRows c c := ⟨.refl c, fun _ => ⟨rfl, rfl⟩⟩

theorem DataRows.control {c c' : Cpu} (h : DataRows c c') : c'.control = c.control := by
  obtain ⟨ht, hrow⟩ := h
  have htag : (fun (r : Fin 3) i => if r = 0 then c'.tlbTag r i else 0) = fun r i => if r = 0 then c.tlbTag r i else 0 := by
    funext r i
    split_ifs with hr
    · rw [hr, (hrow i).1]
    · rfl
  have hdiff : (fun (r : Fin 3) i => if r = 0 then c'.tlbDiff r i else 0) = fun r i => if r = 0 then c.tlbDiff r i else 0 := by
    funext r i
    split_ifs with hr
    · rw [hr, (hrow i).2]
    · rfl
  unfold Cpu.control
  rw [htag, hdiff]
  unfold TlbOnly at ht
  rw [ht]

theorem fillTlb_dataRows (c : Cpu) {access : Access} (h : access ≠ .fetch) (va pa : U64) : DataRows c (fillTlb c access va pa) := by
  have hrow : access.row ≠ 0 := by
    cases access
    · exact absurd rfl h
    · decide
    · decide
  have hset : ∀ (t : TlbRows 3) i v j, t.set access.row i v 0 j = t 0 j := fun t i v j => if_neg fun hc => hrow hc.1.symm
  refine ⟨tlbOnly_fillTlb c access va pa, fun i => ?_⟩
  unfold fillTlb
  dsimp only
  rw [hset, hset]
  split_ifs <;> exact ⟨rfl, rfl⟩

theorem takeLeaf_dataRows (s : SysCsrs) (va : U64) {access : Access} (h : access ≠ .fetch) (leaf : Leaf) (b : β) :
    DataRows m.cpu (m.takeLeaf s va access leaf b).2.cpu := by
  unfold takeLeaf
  dsimp only
  split_ifs
  · exact .refl _
  · rcases Bus.write .w8 b leaf.pteAddr (updatePte access leaf.pte) with ⟨e | u, b'⟩
    · exact .refl _
    · exact fillTlb_dataRows _ h _ _
  · exact fillTlb_dataRows _ h _ _

theorem walkTables_dataRows (m : Machine β) (s : SysCsrs) (levels : ℕ) (va : U64) {access : Access} (h : access ≠ .fetch) :
    DataRows m.cpu (m.walkTables s levels va access).2.cpu := by
  unfold walkTables
  dsimp only
  split_ifs
  · exact .refl _
  · rcases findLeaf access va (levels - 1) ((s.satp &&& 0xfffffffffff) <<< 12) m.bus with ⟨e | leaf, b⟩
    · exact .refl _
    · exact takeLeaf_dataRows s va h leaf b

/-- **A data translation** leaves the fetch row alone. -/
theorem translate_dataRows (m : Machine β) (va : U64) {access : Access} (h : access ≠ .fetch) :
    DataRows m.cpu (m.translate va access).2.cpu := by
  unfold translate
  cases m.cpu.sys with
  | none => exact .refl _
  | some s =>
    dsimp only
    split_ifs
    · exact .refl _
    · unfold translateSlow
      cases m.cpu.sys with
      | none => exact .refl _
      | some s =>
        dsimp only
        split_ifs
        · exact .refl _
        · exact walkTables_dataRows _ _ _ _ h
        · exact walkTables_dataRows _ _ _ _ h
        · exact .refl _

theorem translateFill_dataRows (m : Machine β) (va : U64) (store : Bool) :
    DataRows m.cpu (m.translateFill va store).2.cpu := by
  have hne : (if store then Access.store else Access.load) ≠ .fetch := by cases store <;> decide
  have ht := translate_dataRows m va hne
  unfold translateFill
  rcases hr : m.translate va (if store then .store else .load) with ⟨e | pa, m'⟩
  · rw [hr] at ht
    exact ht
  · rw [hr] at ht
    dsimp only
    unfold fillJtlb
    cases Bus.jitFastOff m'.bus va pa store with
    | none => exact ht
    | some off => exact ⟨ht.1.trans rfl, ht.2⟩

/-! ## Plain operations -/

/-- **A plain operation** leaves the control registers alone. -/
theorem exec_control (m : Machine β) {o : HartOp} (h : Hart.Plain o) : (exec o m).2.cpu.control = m.cpu.control := by
  cases o with
  | get => rfl
  | read w pa => rfl
  | write w pa v => rfl
  | translate va access => exact (translate_dataRows m va h).control
  | translateFill va store => exact (translateFill_dataRows m va store).control
  | cpu u =>
    cases u with
    | wr rd v =>
      change (m.cpu.wr rd v).control = m.cpu.control
      unfold Cpu.wr
      split_ifs <;> rfl
    | fpDirty =>
      change m.cpu.fpDirty.control = m.cpu.control
      unfold Cpu.fpDirty Cpu.modifySys Cpu.control
      cases m.cpu.sys with
      | none => rfl
      | some s =>
        dsimp only [Option.map]
        rw [BitVec.or_assoc, BitVec.or_self]
    | setF rd v => rfl
    | accrue fl => rfl
    | reserve addr => rfl
    | _ => exact absurd h id
  | _ => exact absurd h id

theorem run_control {α : Type} {p : Hart α} {Q : α → Prop} (hp : p.Shape Hart.Plain Q) (m : Machine β) :
    (p.run exec m).2.cpu.control = m.cpu.control :=
  hp.run_keeps (g := fun m : Machine β => m.cpu.control) (fun _ m ho => exec_control m ho) m

/-! ## What the control registers determine -/

end Machine

namespace Cpu

variable {c c' : Cpu}

theorem control_insnCount (h : c'.control = c.control) : c'.insnCount = c.insnCount := by
  have h' := congrArg Cpu.insnCount h
  exact h'

theorem control_pc (h : c'.control = c.control) : c'.pc = c.pc := by
  have h' := congrArg Cpu.pc h
  exact h'

theorem control_sys (h : c'.control = c.control) :
    c'.sys.map (fun s => { s with mstatus := s.mstatus ||| MSTATUS_FS }) =
      c.sys.map fun s => { s with mstatus := s.mstatus ||| MSTATUS_FS } := by
  have h' := congrArg Cpu.sys h
  exact h'

end Cpu
end Lish
