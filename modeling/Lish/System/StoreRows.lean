import Lish.Core.Context
import Lish.Core.TlbStep
import Lish.System.Marks
/-!
# StoreRows — where compiled stores can reach

A row of fused store translations holds a page of RAM that backs no compiled code.  It agrees with the TLB row of stores, or
was filled where addresses are not translated; so the page of a row can be told from the TLB row when a page is marked.
-/
namespace Lish

open Machine Tables JitPageState Dma

/-! ## Offsets in a page -/

theorem leaf_offset (leaf : Leaf) (va : U64) : (leaf.pa va).toNat % 4096 = va.toNat % 4096 := by
  have h : leaf.pa va &&& 0xfff = va &&& 0xfff := by
    apply BitVec.eq_of_getLsbD_eq
    intro i hi
    unfold Leaf.pa
    rw [BitVec.getLsbD_and, BitVec.getLsbD_and]
    by_cases h12 : i < 12
    · rw [BitVec.getLsbD_or, BitVec.getLsbD_and, BitVec.getLsbD_and, BitVec.getLsbD_not,
        lowMask_bit (by omega) (show i < 12 + 9 * leaf.level by omega)]
      simp
    · rw [show (0xfff : U64) = 1#64 <<< 12 - 1 from rfl, show (1#64 <<< 12 - 1).getLsbD i = false from ?_, Bool.and_false,
        Bool.and_false]
      apply Nat.testBit_lt_two_pow
      calc (1#64 <<< 12 - 1 : U64).toNat < 2 ^ 12 := by decide
        _ ≤ 2 ^ i := Nat.pow_le_pow_right (by decide) (by omega)
  rw [← offset_toNat, ← offset_toNat, h]

theorem sub_offset {a b : U64} (h : a.toNat % 4096 = b.toNat % 4096) : (a - b).toNat % 4096 = 0 := by
  rw [BitVec.toNat_sub]
  have := b.isLt
  omega

theorem add_offset {a d : U64} (h : d.toNat % 4096 = 0) : (a + d).toNat % 4096 = a.toNat % 4096 := by
  rw [BitVec.toNat_add]
  omega

theorem samePage_iff {a b : U64} : SamePage a b ↔ a.toNat / 4096 = b.toNat / 4096 := by
  unfold SamePage
  rw [← BitVec.toNat_inj, BitVec.toNat_ushiftRight, BitVec.toNat_ushiftRight, Nat.shiftRight_eq_div_pow,
    Nat.shiftRight_eq_div_pow]

theorem addressMarked_page {s : JitPageState} {pa pa' : U64} (h : SamePage pa pa') : s.addressMarked pa = s.addressMarked pa' := by
  have hp := samePage_iff.1 h
  have hbase : RAM_BASE.toNat = 2147483648 := rfl
  have hpage : s.pageForAddress pa = s.pageForAddress pa' := by
    unfold pageForAddress
    simp only [BitVec.lt_def]
    by_cases hlt : pa.toNat < RAM_BASE.toNat
    · rw [if_pos hlt, if_pos (show pa'.toNat < RAM_BASE.toNat by omega)]
    · have hsub : ∀ x : U64, ¬ x.toNat < RAM_BASE.toNat →
          ((x - RAM_BASE) >>> JIT_PAGE_SHIFT).toNat = (x.toNat - RAM_BASE.toNat) / 4096 := fun x hx => by
        rw [BitVec.toNat_ushiftRight, Nat.shiftRight_eq_div_pow, BitVec.toNat_sub_of_le (by rw [BitVec.le_def]; omega)]
        rfl
      have hlt' : ¬ pa'.toNat < RAM_BASE.toNat := by omega
      rw [if_neg hlt, if_neg hlt', hsub pa hlt, hsub pa' hlt', show (pa.toNat - RAM_BASE.toNat) / 4096 = (pa'.toNat - RAM_BASE.toNat) / 4096 by omega]
  unfold addressMarked
  rw [hpage]

/-! ## Rows -/

/-- A page that lies wholly in RAM. -/
def OnRamPage (b : VirtBus) (pa : U64) : Prop := ¬ (pa < RAM_BASE ∨ pa ||| 0xfff ≥ RAM_BASE + BitVec.ofNat 64 b.ram.len)

/-- A valid store row: filled for `va` in a context, it leads to the page of `pa`. -/
structure StoreRow (c : Cpu) (b : VirtBus) (satp : U64) (i : Fin tlbSize) (ctx va pa : U64) : Prop where
  small : ctx.toNat < 64
  index : Cpu.tlbIndex va = i
  tag : c.jtlbTag 1 i = tagOf ctx va
  off : c.jtlbOff 1 i = b.ram.ptr + (pa - RAM_BASE) - va
  inRam : OnRamPage b pa
  offset : pa.toNat % 4096 = va.toNat % 4096
  unmarked : b.jit.addressMarked pa = false
  agrees : c.tlbTag 2 i = c.jtlbTag 1 i → SamePage (va + c.tlbDiff 2 i) pa
  untranslated : c.tlbTag 2 i ≠ c.jtlbTag 1 i → bare satp ctx .store = true ∧ pa = va

/-- Translations move pages as wholes, and every valid store row leads to an unmarked page of RAM. -/
structure Sound (m : Machine VirtBus) : Prop where
  system : m.cpu.sys.isSome
  synced : m.cpu.Synced
  sized : Sized m.bus.dma
  moved : ∀ r i, (m.cpu.tlbDiff r i).toNat % 4096 = 0
  row : ∀ i, m.cpu.jtlbTag 1 i ≠ TLB_INVALID → ∀ satp, m.cpu.sys.map (·.satp) = some satp →
    ∃ ctx va pa, StoreRow m.cpu m.bus satp i ctx va pa

namespace Sound

variable {c c' : Cpu} {b b' : VirtBus} {m m' : Machine VirtBus}

theorem isSome_of_satp (h : c'.sys.map (·.satp) = c.sys.map (·.satp)) (hs : c.sys.isSome) : c'.sys.isSome := by
  have := congrArg Option.isSome h
  rw [Option.isSome_map, Option.isSome_map] at this
  exact this.trans hs

theorem rows (h : Sound ⟨c, b⟩) (hr : Cpu.SameRows c c') (hc : c'.Synced) : Sound ⟨c', b⟩ := by
  refine ⟨isSome_of_satp hr.satp h.system, hc, h.sized, fun r i => ?_, fun i hv satp hs => ?_⟩
  · rw [hr.tlbDiff]
    exact h.moved r i
  · dsimp only at hv hs
    rw [hr.jtlbTag] at hv
    rw [hr.satp] at hs
    obtain ⟨ctx, va, pa, hrow⟩ := h.row i hv satp hs
    refine ⟨ctx, va, pa, hrow.small, hrow.index, ?_, ?_, hrow.inRam, hrow.offset, hrow.unmarked, ?_, ?_⟩
    · rw [hr.jtlbTag]
      exact hrow.tag
    · rw [hr.jtlbOff]
      exact hrow.off
    · rw [hr.tlbTag, hr.jtlbTag, hr.tlbDiff]
      exact hrow.agrees
    · rw [hr.tlbTag, hr.jtlbTag]
      exact hrow.untranslated

/-- The extent of RAM is the same, and no page has become marked. -/
theorem bus {d : VirtBus} (h : Sound ⟨c, b⟩) (hs : Sized d.dma) (hlen : d.ram.len = b.ram.len) (hptr : d.ram.ptr = b.ram.ptr)
    (hm : ∀ pa, b.jit.addressMarked pa = false → d.jit.addressMarked pa = false) : Sound ⟨c, d⟩ := by
  refine ⟨h.system, h.synced, hs, h.moved, fun i hv satp hsatp => ?_⟩
  obtain ⟨ctx, va, pa, hrow⟩ := h.row i hv satp hsatp
  refine ⟨ctx, va, pa, hrow.small, hrow.index, hrow.tag, ?_, ?_, hrow.offset, hm pa hrow.unmarked, hrow.agrees, hrow.untranslated⟩
  · rw [hptr]
    exact hrow.off
  · unfold OnRamPage
    rw [hlen]
    exact hrow.inRam

theorem addressMarked_noted {s s' : JitPageState} (h : Noted s s') (pa : U64) : s'.addressMarked pa = s.addressMarked pa := by
  unfold addressMarked pageForAddress
  rw [h.pageCount, h.marked]

/-- What accesses keep of the bus, the rows rely on. -/
theorem tracked (h : Sound ⟨c, b⟩) (hs : VirtBus.Steady b b') (ht : VirtBus.Tracked b b') : Sound ⟨c, b'⟩ := by
  have ho := ht h.sized
  exact h.bus ho.sized hs.len hs.ptr fun pa hpa => (addressMarked_noted ho.noted pa).trans hpa

theorem emptied (h : Sound ⟨c, b⟩) (he : Cpu.Emptied c c') (hc : c'.Synced) : Sound ⟨c', b⟩ := by
  refine ⟨he.system.trans h.system, hc, h.sized, fun r i => ?_, fun i hv => absurd (he.jtlbTag 1 i) hv⟩
  rw [he.tlbDiff]
  exact h.moved r i

/-- A page flush drops a store row together with the TLB row it agrees with. -/
theorem flushTlbPage (h : Sound ⟨c, b⟩) (a : U64) : Sound ⟨c.flushTlbPage a, b⟩ := by
  refine ⟨h.system, Cpu.synced_apply h.synced (.flushTlbPage a), h.sized, h.moved, fun i hv satp hs => ?_⟩
  have hdrop : ∀ vpn tag, Cpu.dropPage vpn tag ≠ TLB_INVALID → Cpu.dropPage vpn tag = tag := fun vpn tag hne => by
    unfold Cpu.dropPage at hne ⊢
    split_ifs at hne ⊢
    · exact absurd rfl hne
    · rfl
  unfold Cpu.flushTlbPage at hv ⊢
  dsimp only at hv
  by_cases hi : i = Cpu.tlbIndex a
  · rw [if_pos hi] at hv
    have hkeep := hdrop _ _ hv
    have hvalid : c.jtlbTag 1 i ≠ TLB_INVALID := by rwa [hkeep] at hv
    obtain ⟨ctx, va, pa, hrow⟩ := h.row i hvalid satp hs
    refine ⟨ctx, va, pa, hrow.small, hrow.index, ?_, hrow.off, hrow.inRam, hrow.offset, hrow.unmarked, fun heq => ?_, fun hne => ?_⟩
    · dsimp only
      rw [if_pos hi, hkeep]
      exact hrow.tag
    · dsimp only at heq ⊢
      rw [if_pos hi, if_pos hi, hkeep] at heq
      refine hrow.agrees ?_
      have := hdrop ((a >>> 12) &&& TLB_VPN_MASK) (c.tlbTag 2 i) (by rw [heq]; exact hvalid)
      exact this.symm.trans heq
    · dsimp only at hne
      rw [if_pos hi, if_pos hi, hkeep] at hne
      refine hrow.untranslated fun heq => hne ?_
      rw [heq, hkeep]
  · rw [if_neg hi] at hv
    obtain ⟨ctx, va, pa, hrow⟩ := h.row i hv satp hs
    refine ⟨ctx, va, pa, hrow.small, hrow.index, ?_, hrow.off, hrow.inRam, hrow.offset, hrow.unmarked, ?_, ?_⟩
    · dsimp only
      rw [if_neg hi]
      exact hrow.tag
    · dsimp only
      rw [if_neg hi, if_neg hi]
      exact hrow.agrees
    · dsimp only
      rw [if_neg hi, if_neg hi]
      exact hrow.untranslated

/-! ## Translating -/

theorem isSome (h : Sound m) : ∃ s, m.cpu.sys = some s := Option.isSome_iff_exists.1 h.system

/-- A fill of the TLB: a store row with its tag would have been filled where addresses are not translated. -/
theorem fillTlb (h : Sound ⟨c, b⟩) {s : SysCsrs} (hs : c.sys = some s) {access : Access} {va pa : U64}
    (hmiss : c.tlb ⟨access, c.translationContext, va⟩ = none) (hbare : bare s.satp c.translationContext access = false)
    (hpa : pa.toNat % 4096 = va.toNat % 4096) : Sound ⟨Machine.fillTlb c access va pa, b⟩ := by
  have htag : (Machine.fillTlb c access va pa).tlbTag = c.tlbTag.set access.row (Cpu.tlbIndex va) (c.translationTag va) := by
    unfold Machine.fillTlb
    dsimp only
    split_ifs <;> rfl
  have hdiff : (Machine.fillTlb c access va pa).tlbDiff = c.tlbDiff.set access.row (Cpu.tlbIndex va) (pa - va) := by
    unfold Machine.fillTlb
    dsimp only
    split_ifs <;> rfl
  have hoff : (Machine.fillTlb c access va pa).jtlbOff = c.jtlbOff := by
    unfold Machine.fillTlb
    dsimp only
    split_ifs <;> rfl
  have hsys : (Machine.fillTlb c access va pa).sys = c.sys := fillTlb_sys c access va pa
  have hne : c.tlbTag access.row (Cpu.tlbIndex va) ≠ c.translationTag va := fun heq => by
    unfold Cpu.tlb at hmiss
    rw [if_pos ⟨c.translationContext_lt, heq⟩] at hmiss
    cases hmiss
  refine ⟨by rw [hsys]; exact h.system, (tlbOnly_fillTlb c access va pa).synced h.synced, h.sized, fun r i => ?_, fun i hv satp hsatp => ?_⟩
  · dsimp only
    rw [hdiff, TlbRows.set]
    split_ifs
    · exact sub_offset hpa
    · exact h.moved r i
  · dsimp only at hv hsatp
    rw [hsys] at hsatp
    by_cases hi : access = .store ∧ i = Cpu.tlbIndex va
    · -- the row of this index: invalid now, or of this tag already
      exfalso
      obtain ⟨rfl, rfl⟩ := hi
      unfold Machine.fillTlb at hv
      dsimp only at hv
      split_ifs at hv with hj
      · exact hv (if_pos ⟨rfl, rfl⟩)
      · have hj' : c.jtlbTag 1 (Cpu.tlbIndex va) = c.translationTag va := by
          by_contra hc
          exact hj ⟨rfl, hc⟩
        obtain ⟨ctx, va', pa', hrow⟩ := h.row _ hv satp hsatp
        have hbare' := (hrow.untranslated (by rw [hj']; exact hne)).1
        have hctx := (tagOf_inj c.translationContext_lt hrow.small (hj'.symm.trans hrow.tag)).1
        rw [hs] at hsatp
        obtain rfl : s.satp = satp := Option.some.inj hsatp
        rw [← hctx, hbare] at hbare'
        cases hbare'
    · have hj : (Machine.fillTlb c access va pa).jtlbTag 1 i = c.jtlbTag 1 i := by
        unfold Machine.fillTlb
        dsimp only
        split_ifs with hc
        · exact if_neg fun hx => hi ⟨hc.1, hx.2⟩
        · rfl
      have hrow2 : ∀ (t : TlbRows 3) v, t.set access.row (Cpu.tlbIndex va) v 2 i = t 2 i := fun t v => by
        refine if_neg fun hx => hi ⟨?_, hx.2⟩
        revert hx
        cases access <;> simp [Access.row]
      rw [hj] at hv
      obtain ⟨ctx, va', pa', hrow⟩ := h.row i hv satp hsatp
      refine ⟨ctx, va', pa', hrow.small, hrow.index, ?_, ?_, hrow.inRam, hrow.offset, hrow.unmarked, ?_, ?_⟩
      · rw [hj]
        exact hrow.tag
      · rw [hoff]
        exact hrow.off
      · rw [htag, hj, hdiff, hrow2, hrow2]
        exact hrow.agrees
      · rw [htag, hj, hrow2]
        exact hrow.untranslated

/-- An address just translated: from the TLB row, or untranslated. -/
structure Translated (m : Machine VirtBus) (va : U64) (access : Access) (pa : U64) : Prop where
  offset : pa.toNat % 4096 = va.toNat % 4096
  hit : ∀ v, m.cpu.tlb ⟨access, m.cpu.translationContext, va⟩ = some v → v = pa
  miss : m.cpu.tlb ⟨access, m.cpu.translationContext, va⟩ = none →
    ∀ satp, m.cpu.sys.map (·.satp) = some satp → bare satp m.cpu.translationContext access = true ∧ pa = va

/-- What the rows rely on is a relation that accesses within a page respect. -/
theorem pagedRel : PagedRel fun b b' => VirtBus.Steady b b' ∧ VirtBus.Tracked b b' where
  refl b := ⟨.refl b, VirtBus.pagedRel_tracked.refl b⟩
  trans _ _ _ h h' := ⟨h.1.trans h'.1, VirtBus.tracked_trans h.2 h'.2⟩
  read w b addr := ⟨VirtBus.busRel_steady.read w b addr, VirtBus.pagedRel_tracked.read w b addr⟩
  write w b addr val hp := ⟨VirtBus.busRel_steady.write w b addr val, VirtBus.pagedRel_tracked.write w b addr val hp⟩
  fetch16 b addr := ⟨VirtBus.busRel_steady.fetch16 b addr, VirtBus.pagedRel_tracked.fetch16 b addr⟩
  fetch32IfSafe b addr := ⟨VirtBus.busRel_steady.fetch32IfSafe b addr, VirtBus.pagedRel_tracked.fetch32IfSafe b addr⟩
  irqLines b := ⟨VirtBus.busRel_steady.irqLines b, VirtBus.pagedRel_tracked.irqLines b⟩

/-- **A translation** keeps the rows sound. -/
theorem translate (h : Sound m) (va : U64) (access : Access) :
    Sound (m.translate va access).2 ∧
      ∀ pa, (m.translate va access).1 = .ok pa → Translated (m.translate va access).2 va access pa := by
  obtain ⟨s, hs⟩ := h.isSome
  have hb := (translate_frame pagedRel m va access).1
  rcases translate_cases m hs va access with ⟨pa, he, hhit⟩ | ⟨hmiss, ⟨he, hbare⟩ | ⟨e, bus, he⟩ | ⟨leaf, bus, he, hbare⟩⟩
  · rw [he]
    refine ⟨h, fun pa' hpa => ?_⟩
    cases hpa
    refine ⟨?_, fun v hv => Option.some.inj (hv.symm.trans hhit), fun hn => ?_⟩
    · rw [(Cpu.tlb_some hhit).2.2]
      exact add_offset (h.moved _ _)
    · rw [hhit] at hn
      cases hn
  · rw [he]
    refine ⟨h, fun pa' hpa => ?_⟩
    cases hpa
    refine ⟨rfl, fun v hv => ?_, fun _ satp hsatp => ?_⟩
    · rw [hmiss] at hv
      cases hv
    · rw [hs] at hsatp
      obtain rfl : s.satp = satp := Option.some.inj hsatp
      exact ⟨hbare, rfl⟩
  · rw [he] at hb ⊢
    exact ⟨h.tracked hb.1 hb.2, fun pa hpa => nomatch hpa⟩
  · rw [he] at hb ⊢
    have hfill := fillTlb (b := m.bus) h hs hmiss hbare (leaf_offset leaf va)
    refine ⟨hfill.tracked hb.1 hb.2, fun pa' hpa => ?_⟩
    cases hpa
    have hctx : (Machine.fillTlb m.cpu access va (leaf.pa va)).translationContext = m.cpu.translationContext := by
      unfold Cpu.translationContext
      rw [fillTlb_sys]
    have hhit : (Machine.fillTlb m.cpu access va (leaf.pa va)).tlb ⟨access, m.cpu.translationContext, va⟩ =
        some (leaf.pa va) := by
      have htag : (Machine.fillTlb m.cpu access va (leaf.pa va)).tlbTag access.row (Cpu.tlbIndex va) = m.cpu.translationTag va := by
        unfold Machine.fillTlb
        dsimp only
        split_ifs <;> exact if_pos ⟨rfl, rfl⟩
      have hdiff : (Machine.fillTlb m.cpu access va (leaf.pa va)).tlbDiff access.row (Cpu.tlbIndex va) = leaf.pa va - va := by
        unfold Machine.fillTlb
        dsimp only
        split_ifs <;> exact if_pos ⟨rfl, rfl⟩
      unfold Cpu.tlb
      dsimp only
      rw [if_pos ⟨m.cpu.translationContext_lt, htag⟩, hdiff, add_comm, BitVec.sub_add_cancel]
    refine ⟨leaf_offset leaf va, fun v hv => ?_, fun hn => ?_⟩
    · dsimp only at hv
      rw [hctx] at hv
      exact Option.some.inj (hv.symm.trans hhit)
    · dsimp only at hn
      rw [hctx, hhit] at hn
      cases hn

/-- A fused fill with the address just translated keeps the rows sound. -/
theorem fillJtlb (h : Sound m) {va pa : U64} {store : Bool} (ht : Translated m va (dataAccess store) pa) :
    Sound (m.fillJtlb va pa store) := by
  rcases fillJtlb_cases m va pa store with he | ⟨off, hoff, he⟩
  · rw [he]
    exact h
  rw [he]
  have hpage : OnRamPage m.bus pa ∧ (store = true → m.bus.jit.addressMarked pa = false) ∧
      off = m.bus.ram.ptr + (pa - RAM_BASE) - va := by
    change VirtBus.jitFastOff m.bus va pa store = some off at hoff
    unfold VirtBus.jitFastOff at hoff
    split_ifs at hoff with h1 h2
    refine ⟨h1, fun hst => ?_, (Option.some.inj hoff).symm⟩
    rw [hst, Bool.true_and] at h2
    exact Bool.eq_false_iff.2 h2
  refine ⟨h.system, Cpu.SameContext.synced (c := m.cpu) (.of_eq rfl rfl) h.synced, h.sized, h.moved, fun i hv satp hs => ?_⟩
  dsimp only at hv hs ⊢
  by_cases hrow : (1 : Fin 2) = jitRow store ∧ i = Cpu.tlbIndex va
  · obtain ⟨hst, rfl⟩ := hrow
    have hstore : store = true := by
      revert hst
      cases store <;> simp [jitRow]
    subst hstore
    refine ⟨m.cpu.translationContext, va, pa, m.cpu.translationContext_lt, rfl, ?_, ?_, hpage.1, ht.offset, hpage.2.1 rfl, ?_, ?_⟩
    · exact if_pos ⟨rfl, rfl⟩
    · exact (if_pos ⟨rfl, rfl⟩).trans hpage.2.2
    · intro heq
      replace heq : m.cpu.tlbTag 2 (Cpu.tlbIndex va) = m.cpu.translationTag va := heq.trans (if_pos ⟨rfl, rfl⟩)
      have := ht.hit (va + m.cpu.tlbDiff 2 (Cpu.tlbIndex va)) (if_pos ⟨m.cpu.translationContext_lt, heq⟩)
      rw [← this]
      rfl
    · intro hne
      have hne' : m.cpu.tlbTag 2 (Cpu.tlbIndex va) ≠ m.cpu.translationTag va := fun heq =>
        hne (heq.trans (if_pos ⟨rfl, rfl⟩).symm)
      exact ht.miss (if_neg fun hx => hne' hx.2) satp hs
  · have hj : (m.cpu.jtlbTag.set (jitRow store) (Cpu.tlbIndex va) (m.cpu.translationTag va)) 1 i = m.cpu.jtlbTag 1 i :=
      if_neg hrow
    have ho : (m.cpu.jtlbOff.set (jitRow store) (Cpu.tlbIndex va) off) 1 i = m.cpu.jtlbOff 1 i := if_neg hrow
    rw [hj] at hv
    obtain ⟨ctx, va', pa', hrow'⟩ := h.row i hv satp hs
    refine ⟨ctx, va', pa', hrow'.small, hrow'.index, hj.trans hrow'.tag, ho.trans hrow'.off, hrow'.inRam, hrow'.offset,
      hrow'.unmarked, ?_, ?_⟩
    · dsimp only
      rw [hj]
      exact hrow'.agrees
    · dsimp only
      rw [hj]
      exact hrow'.untranslated

theorem translateFill (h : Sound m) (va : U64) (store : Bool) :
    Sound (m.translateFill va store).2 ∧
      ∀ pa, (m.translateFill va store).1 = .ok pa → pa.toNat % 4096 = va.toNat % 4096 := by
  obtain ⟨h1, h2⟩ := h.translate va (dataAccess store)
  unfold Machine.translateFill
  rw [show (if store = true then Access.store else Access.load) = dataAccess store from rfl]
  rcases hr : m.translate va (dataAccess store) with ⟨e | pa, m'⟩ <;> rw [hr] at h1 h2
  · exact ⟨h1, fun pa hpa => nomatch hpa⟩
  · refine ⟨fillJtlb h1 (h2 pa rfl), fun pa' hpa => ?_⟩
    cases hpa
    exact (h2 pa rfl).offset

end Sound
end Lish
