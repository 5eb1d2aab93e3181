import Lish.Core.Settled
import Lish.System.CodeWatch
/-!
# LoadRows — cached loads agree with the page tables

While no entry that a cached load depends on changes, but for accessed and dirty bits it gains, every cached load is what the
tables give with its accessed bit set; a fused row leads to the same page of RAM.
-/
namespace Lish

open Machine Tables

theorem walk_offset {word : Tables} {satp ctx : U64} {access : Access} {va pa : U64} (h : walk word satp ctx access va = some pa) :
    pa.toNat % 4096 = va.toNat % 4096 := by
  unfold walk at h
  split_ifs at h with hb
  · rw [← Option.some.inj h]
  · obtain ⟨levels, -, h⟩ := Option.bind_eq_some_iff.1 h
    split_ifs at h
    obtain ⟨leaf, -, h⟩ := Option.bind_eq_some_iff.1 h
    split_ifs at h
    rw [← Option.some.inj h]
    exact leaf_offset leaf va

/-- Every cached load is settled in the tables; a fused one leads to its page in RAM. -/
structure LoadRows (m : Machine VirtBus) : Prop where
  tlb : ∀ s, m.cpu.sys = some s → ∀ ctx va pa, m.cpu.tlb ⟨.load, ctx, va⟩ = some pa →
    Settled (tables m.bus) s.satp ⟨.load, ctx, va⟩ pa
  jtlb : ∀ s, m.cpu.sys = some s → ∀ ctx va off, m.cpu.jtlb ⟨.load, ctx, va⟩ = some off →
    ∃ pa, Settled (tables m.bus) s.satp ⟨.load, ctx, va⟩ pa ∧ OnRamPage m.bus pa ∧
      off = m.bus.ram.ptr + (pa - RAM_BASE) - va

/-- No entry that a cached load depends on changes, but for accessed and dirty bits it gains. -/
def Kept (m m' : Machine VirtBus) : Prop :=
  ∀ s, m.cpu.sys = some s → ∀ ctx va,
    (m.cpu.tlb ⟨.load, ctx, va⟩).isSome ∨ (m.cpu.jtlb ⟨.load, ctx, va⟩).isSome →
      ∀ a ∈ path (tables m.bus) s.satp ctx .load va, Gained (tables m.bus a) (tables m'.bus a)

namespace LoadRows

variable {c c' : Cpu} {b b' : VirtBus} {m : Machine VirtBus}

theorem calm (h : LoadRows ⟨c, b⟩) (hc : Cpu.Calm c c') : LoadRows ⟨c', b⟩ := by
  have hsatp : ∀ s', c'.sys = some s' → ∃ s, c.sys = some s ∧ s.satp = s'.satp := fun s' hs' => by
    have he := hc.satp
    rw [hs'] at he
    exact Option.map_eq_some_iff.1 he.symm
  refine ⟨fun s' hs' ctx va pa hq => ?_, fun s' hs' ctx va off hq => ?_⟩
  · obtain ⟨s, hs, he⟩ := hsatp s' hs'
    rw [← he]
    exact h.tlb s hs ctx va pa (hc.drops.tlb _ _ hq)
  · obtain ⟨s, hs, he⟩ := hsatp s' hs'
    rw [← he]
    exact h.jtlb s hs ctx va off (hc.drops.jtlb _ _ hq)

theorem flushed (h : Cpu.Flushed m.cpu) : LoadRows m := by
  refine ⟨fun s _ ctx va pa hq => ?_, fun s _ ctx va off hq => ?_⟩
  · rw [h.1] at hq
    cases hq
  · rw [h.2] at hq
    cases hq

/-- A change of the bus that keeps the entries and the extent of RAM. -/
theorem bus (h : LoadRows ⟨c, b⟩) (hk : Kept ⟨c, b⟩ ⟨c, b'⟩) (hlen : b'.ram.len = b.ram.len) (hptr : b'.ram.ptr = b.ram.ptr) :
    LoadRows ⟨c, b'⟩ := by
  refine ⟨fun s hs ctx va pa hq => ?_, fun s hs ctx va off hq => ?_⟩
  · exact (h.tlb s hs ctx va pa hq).gained (hk s hs ctx va (Or.inl (by rw [hq]; rfl)))
  · obtain ⟨pa, h1, h2, h3⟩ := h.jtlb s hs ctx va off hq
    refine ⟨pa, h1.gained (hk s hs ctx va (Or.inr (by rw [hq]; rfl))), ?_, ?_⟩
    · unfold OnRamPage
      rw [hlen]
      exact h2
    · rw [hptr]
      exact h3

theorem kept_gained (c c' : Cpu) (h : TablesGained b b') : Kept ⟨c, b⟩ ⟨c', b'⟩ := fun _ _ _ _ _ a ha =>
  h a (aligned_path _ _ _ _ _ a ha)

/-! ## Translating -/

/-- A fill with a settled translation. -/
theorem fillTlb (h : LoadRows ⟨c, b⟩) {s : SysCsrs} (hs : c.sys = some s) {access : Access} {va pa : U64}
    (hq : access = .load → Settled (tables b) s.satp ⟨.load, c.translationContext, va⟩ pa) :
    LoadRows ⟨Machine.fillTlb c access va pa, b⟩ := by
  have hsys := fillTlb_sys c access va pa
  refine ⟨fun s' hs' ctx va' v hv => ?_, fun s' hs' ctx va' off hv => ?_⟩
  · rw [hsys] at hs'
    obtain rfl : s = s' := Option.some.inj (hs.symm.trans hs')
    rcases fillTlb_cases hv with hold | ⟨rfl, ⟨haccess, hctx⟩, hpage⟩
    · exact h.tlb s hs ctx va' v hold
    · dsimp only at haccess hctx hpage
      rw [← hctx]
      exact (hq haccess.symm).page hpage
  · rw [hsys] at hs'
    exact h.jtlb s' hs' ctx va' off (fillTlb_jtlb c access va pa _ _ hv)

/-- **A translation** keeps the rows; of a load, it answers a settled address. -/
theorem translate (h : LoadRows m) {va : U64} {access : Access} (hg : TablesInRam m va access) :
    LoadRows (m.translate va access).2 ∧ ∀ s pa, m.cpu.sys = some s → (m.translate va access).1 = .ok pa → access = .load →
      Settled (tables (m.translate va access).2.bus) s.satp ⟨.load, m.cpu.translationContext, va⟩ pa := by
  have hsteady := (translate_frame VirtBus.busRel_steady.paged m va access).1
  unfold Machine.translate at hsteady ⊢
  cases hs : m.cpu.sys with
  | none => exact ⟨h, fun s _ hs' => nomatch hs'⟩
  | some s =>
    rw [hs] at hsteady
    dsimp only at hsteady ⊢
    split_ifs at hsteady ⊢ with htag
    · refine ⟨h, fun s' pa hs' hpa ha => ?_⟩
      cases hs'
      cases hpa
      subst ha
      exact h.tlb s hs _ va _ (tlb_hit htag)
    · cases hb : bare s.satp m.cpu.translationContext access with
      | true =>
        have hslow : m.translateSlow va access = (.ok va, m) := by
          unfold bare at hb
          rw [Cpu.modeOf_context hs, decide_eq_true_iff] at hb
          unfold translateSlow
          rw [hs]
          exact if_pos hb
        rw [hslow]
        refine ⟨h, fun s' pa hs' hpa ha => ?_⟩
        cases hs'
        cases hpa
        subst ha
        exact ⟨if_pos hb, fun hf => by dsimp only at hf; rw [hb] at hf; cases hf⟩
      | false =>
        obtain ⟨h1, h2⟩ := translateSlow_walks hs hg
        have hset := translateSlow_settles hs hg hb
        rcases h2 with h2 | ⟨pa, bus', hw, h2, -⟩
        · rw [h2] at hset hsteady ⊢
          refine ⟨h, fun s' pa hs' hpa ha => ?_⟩
          cases hs'
          subst ha
          refine ⟨?_, fun _ => hset.set ⟨pa, hpa⟩⟩
          change walked m s va .load = some pa
          rw [h1] at hpa
          cases hw : walked m s va .load with
          | none => rw [hw] at hpa; cases hpa
          | some pa' => rw [hw] at hpa; cases hpa; rfl
        · rw [h2] at hset hsteady ⊢
          rw [hw] at h1
          have hsettled : access = .load → Settled (tables bus') s.satp ⟨.load, m.cpu.translationContext, va⟩ pa := fun ha => by
            subst ha
            refine ⟨?_, fun _ => hset.set ⟨pa, h1⟩⟩
            have hsame : walk (tables bus') s.satp m.cpu.translationContext .load va =
                walk (tables m.bus) s.satp m.cpu.translationContext .load va :=
              walk_congr fun a hpath => (hset.gained a (aligned_path _ _ _ _ _ a hpath)).adEq
            exact hsame.trans hw
          refine ⟨?_, fun s' pa' hs' hpa ha => ?_⟩
          · exact fillTlb (h.bus (kept_gained _ _ hset.gained) hsteady.len hsteady.ptr) hs hsettled
          · cases hs'
            rw [h1] at hpa
            cases hpa
            exact hsettled ha

theorem jitFastOff_some {b : VirtBus} {va pa off : U64} {store : Bool} (h : Bus.jitFastOff b va pa store = some off) :
    OnRamPage b pa ∧ off = b.ram.ptr + (pa - RAM_BASE) - va := by
  change b.jitFastOff va pa store = some off at h
  unfold VirtBus.jitFastOff at h
  split_ifs at h with h1 h2
  exact ⟨h1, (Option.some.inj h).symm⟩

/-- A fused fill with a settled translation. -/
theorem fillJtlb (h : LoadRows m) {s : SysCsrs} (hs : m.cpu.sys = some s) {va pa : U64} {store : Bool}
    (hq : store = false → Settled (tables m.bus) s.satp ⟨.load, m.cpu.translationContext, va⟩ pa) :
    LoadRows (m.fillJtlb va pa store) := by
  obtain ⟨hbus, hsys, htlb⟩ := fillJtlb_sys_tlb m va pa store
  refine ⟨fun s' hs' ctx va' v hv => ?_, fun s' hs' ctx va' off hv => ?_⟩
  · rw [htlb] at hv
    rw [hsys] at hs'
    rw [hbus]
    exact h.tlb s' hs' ctx va' v hv
  · rw [hsys] at hs'
    rw [hbus]
    obtain rfl : s = s' := Option.some.inj (hs.symm.trans hs')
    rcases fillJtlb_jtlb hv with hold | ⟨hoff, ⟨haccess, hctx⟩, hpage⟩
    · exact h.jtlb s hs ctx va' off hold
    · cases store with
      | true => cases haccess
      | false =>
        have hset := hq rfl
        obtain ⟨hram, hval⟩ := jitFastOff_some hoff
        obtain ⟨hsame, -⟩ := moved_page hpage (walk_offset hset.1)
        dsimp only at hctx
        refine ⟨va' + (pa - va), hctx ▸ hset.page hpage, onRamPage_page hsame hram, ?_⟩
        rw [hval]
        abel

theorem translateFill (h : LoadRows m) {va : U64} {store : Bool} (hg : TablesInRam m va (dataAccess store)) :
    LoadRows (m.translateFill va store).2 := by
  obtain ⟨h1, h2⟩ := h.translate hg
  have hsys := (translate_frame VirtBus.busRel_steady.paged m va (dataAccess store)).2.sys
  unfold Machine.translateFill
  rw [show (if store = true then Access.store else Access.load) = dataAccess store from rfl]
  rcases hr : m.translate va (dataAccess store) with ⟨e | pa, m'⟩
  · rw [hr] at h1
    exact h1
  · rw [hr] at h1 h2 hsys
    dsimp only at h1 h2 hsys ⊢
    cases hs : m.cpu.sys with
    | none =>
      have hnone : (m'.fillJtlb va pa store).cpu.sys = none := by
        rw [(fillJtlb_sys_tlb m' va pa store).2.1, hsys, hs]
      refine ⟨fun s hs' => ?_, fun s hs' => ?_⟩ <;> rw [hnone] at hs' <;> cases hs'
    | some s =>
      refine h1.fillJtlb (hsys.trans hs) fun hstore => ?_
      subst hstore
      have hctx : m'.cpu.translationContext = m.cpu.translationContext := by
        unfold Cpu.translationContext
        rw [hsys]
      rw [hctx]
      exact h2 s pa hs rfl rfl

/-- **An operation** keeps the rows, if its walk reads RAM and it keeps the entries of cached loads. -/
theorem exec (h : LoadRows m) {o : HartOp} (hg : TableGuard m o) (hk : Kept m (exec o m).2) : LoadRows (exec o m).2 := by
  have hs := (exec_frame VirtBus.busRel_steady o m).1
  cases o with
  | get => exact h
  | cpu u => exact h.calm (Cpu.calm_apply m.cpu u)
  | csrWrite insn csr v =>
    rcases Cpu.csrWrite_cases m.cpu csr v with hc | hc
    · exact h.calm hc
    · exact flushed hc
  | translate va access => exact (h.translate hg).1
  | translateFill va store => exact h.translateFill hg
  | read w pa => exact h.bus hk hs.len hs.ptr
  | write w pa v => exact h.bus hk hs.len hs.ptr
  | fetch16 pa => exact h.bus hk hs.len hs.ptr
  | fetch32IfSafe pa => exact h.bus hk hs.len hs.ptr
  | irqLines => exact h.bus hk hs.len hs.ptr

end LoadRows
end Lish
