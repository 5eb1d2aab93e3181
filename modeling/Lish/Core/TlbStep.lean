import Lish.Core.Exec
import Lish.Core.Tlb
/-!
# TlbStep — what one operation does to the cached translations

A page is stale when some row holds an entry for it that the page tables do not give any more.  An operation makes stale at
most the pages it touches, those with an entry whose page-table path it changes.
-/
namespace Lish

open Cache Tables

namespace Cpu

/-! ## Registers -/

/-- The paging root and the rows are the same. -/
structure SameRows (c c' : Cpu) : Prop where
  satp : c'.sys.map (·.satp) = c.sys.map (·.satp)
  tlbTag : c'.tlbTag = c.tlbTag
  tlbDiff : c'.tlbDiff = c.tlbDiff
  jtlbTag : c'.jtlbTag = c.jtlbTag
  jtlbOff : c'.jtlbOff = c.jtlbOff

theorem SameRows.refl (c : Cpu) : SameRows c c := ⟨rfl, rfl, rfl, rfl, rfl⟩

theorem SameRows.trans {c c' c'' : Cpu} (h : SameRows c c') (h' : SameRows c' c'') : SameRows c c'' :=
  ⟨h'.satp.trans h.satp, h'.tlbTag.trans h.tlbTag, h'.tlbDiff.trans h.tlbDiff, h'.jtlbTag.trans h.jtlbTag,
    h'.jtlbOff.trans h.jtlbOff⟩

/-- The rows have lost every valid tag. -/
structure Emptied (c c' : Cpu) : Prop where
  tlbTag : ∀ r i, c'.tlbTag r i = TLB_INVALID
  jtlbTag : ∀ r i, c'.jtlbTag r i = TLB_INVALID
  tlbDiff : c'.tlbDiff = c.tlbDiff
  system : c'.sys.isSome = c.sys.isSome

/-- The paging root is kept, and no entry appears. -/
structure Calm (c c' : Cpu) : Prop where
  satp : c'.sys.map (·.satp) = c.sys.map (·.satp)
  drops : Drops c c'

theorem SameRows.calm {c c' : Cpu} (h : SameRows c c') : Calm c c' := ⟨h.satp, .of_eq h.tlbTag h.tlbDiff h.jtlbTag h.jtlbOff⟩

theorem sameRows_modifySys (c : Cpu) {g : SysCsrs → SysCsrs} (hg : ∀ s, (g s).satp = s.satp) : SameRows c (c.modifySys g) := by
  refine ⟨?_, rfl, rfl, rfl, rfl⟩
  unfold modifySys
  cases c.sys with
  | none => rfl
  | some s => exact congrArg some (hg s)

theorem sameRows_countTrap (c : Cpu) (cause : U64) (isInterrupt : Bool) : SameRows c (c.countTrap cause isInterrupt) := by
  unfold countTrap
  cases isInterrupt <;> cases cause == 8 <;> exact ⟨rfl, rfl, rfl, rfl, rfl⟩

theorem sameRows_takeTrap (c : Cpu) (cause tval : U64) (isInterrupt : Bool) : SameRows c (c.takeTrap cause tval isInterrupt) := by
  have h := sameRows_countTrap { c with irqPollCd := 0, reservation := none } cause isInterrupt
  unfold takeTrap
  dsimp only
  generalize countTrap _ cause isInterrupt = c' at h ⊢
  have hc : SameRows c c' := ⟨h.satp, h.tlbTag, h.tlbDiff, h.jtlbTag, h.jtlbOff⟩
  cases hs : c'.sys with
  | none => exact hc
  | some s =>
    have hsatp := hc.satp
    rw [hs] at hsatp
    dsimp only
    cases delegated s cause isInterrupt <;> exact ⟨hsatp, hc.tlbTag, hc.tlbDiff, hc.jtlbTag, hc.jtlbOff⟩

theorem sameRows_putSys (c : Cpu) {g : SysCsrs → SysCsrs} (hg : ∀ s, (g s).satp = s.satp) : SameRows c (c.putSys g).1 := by
  unfold putSys
  cases hs : c.sys with
  | none => exact .refl c
  | some s => exact ⟨by rw [hs]; exact congrArg some (hg s), rfl, rfl, rfl, rfl⟩

theorem sameRows_putStatus (c : Cpu) (writable v : U64) : SameRows c (c.putStatus writable v).1 := by
  have h := sameRows_putSys c (g := fun s => { s with mstatus := (s.mstatus &&& ~~~writable) ||| (v &&& writable) })
    fun _ => rfl
  unfold putStatus
  dsimp only
  split_ifs
  · exact ⟨h.satp, h.tlbTag, h.tlbDiff, h.jtlbTag, h.jtlbOff⟩
  · exact h

theorem putSatp_rows (c : Cpu) (v : U64) : SameRows c (c.putSatp v).1 ∨ Emptied c (c.putSatp v).1 := by
  unfold putSatp
  cases hs : c.sys with
  | none => exact Or.inl (.refl c)
  | some s =>
    dsimp only
    split_ifs
    · exact Or.inl (.refl c)
    · unfold writeSatp
      dsimp only
      split_ifs
      · exact Or.inr ⟨fun _ _ => rfl, fun _ _ => rfl, rfl, by rw [hs]; rfl⟩
      · exact Or.inr ⟨fun _ _ => rfl, fun _ _ => rfl, rfl, by rw [hs]; rfl⟩
      · exact Or.inl (.refl c)

/-- **A CSR write** keeps paging root and rows, or empties the rows. -/
theorem csrWrite_rows (c : Cpu) (csr : ℕ) (v : U64) : SameRows c (c.csrWrite csr v).1 ∨ Emptied c (c.csrWrite csr v).1 := by
  have hput : ∀ c : Cpu, SameRows c (c.csrPut csr v).1 ∨ Emptied c (c.csrPut csr v).1 := fun c => by
    unfold csrPut
    split
    all_goals first
      | exact putSatp_rows c v
      | refine Or.inl ?_
    all_goals first
      | exact sameRows_putStatus c _ v
      | exact sameRows_putSys c fun _ => rfl
      | exact sameRows_modifySys c fun _ => rfl
      | exact ⟨rfl, rfl, rfl, rfl, rfl⟩
      | split_ifs
    · exact sameRows_putSys c fun _ => rfl
    · exact sameRows_putSys c fun _ => rfl
    · exact .refl c
  have h := hput { c with irqPollCd := 0 }
  unfold csrWrite
  dsimp only
  split_ifs
  · exact Or.inl ⟨rfl, rfl, rfl, rfl, rfl⟩
  · exact Or.inl ⟨rfl, rfl, rfl, rfl, rfl⟩
  · exact h.imp (fun hc => ⟨hc.satp, hc.tlbTag, hc.tlbDiff, hc.jtlbTag, hc.jtlbOff⟩) fun he =>
      ⟨he.tlbTag, he.jtlbTag, he.tlbDiff, he.system⟩

theorem csrWrite_cases (c : Cpu) (csr : ℕ) (v : U64) : Calm c (c.csrWrite csr v).1 ∨ Flushed (c.csrWrite csr v).1 :=
  (csrWrite_rows c csr v).imp SameRows.calm fun h => flushed_of_invalid h.tlbTag h.jtlbTag

/-- **A register operation** keeps paging root and rows, but for flushes. -/
theorem apply_rows (c : Cpu) (u : CpuOp) : SameRows c (u.apply c) ∨ u = .flushTlb ∨ ∃ va, u = .flushTlbPage va := by
  cases u with
  | wr rd v =>
    refine Or.inl ?_
    unfold CpuOp.apply wr
    dsimp only
    split_ifs
    · exact ⟨rfl, rfl, rfl, rfl, rfl⟩
    · exact .refl c
  | fpDirty => exact Or.inl (sameRows_modifySys c fun _ => rfl)
  | latch lines => exact Or.inl (sameRows_modifySys c fun _ => rfl)
  | trap cause tval isInterrupt => exact Or.inl (sameRows_takeTrap c cause tval isInterrupt)
  | mret =>
    refine Or.inl ⟨(sameRows_modifySys c fun s => ?_).satp, rfl, rfl, rfl, rfl⟩
    rfl
  | sret =>
    refine Or.inl ⟨(sameRows_modifySys c fun s => ?_).satp, rfl, rfl, rfl, rfl⟩
    rfl
  | flushTlb => exact Or.inr (Or.inl rfl)
  | flushTlbPage va => exact Or.inr (Or.inr ⟨va, rfl⟩)
  | _ => exact Or.inl ⟨rfl, rfl, rfl, rfl, rfl⟩

/-- **Register operations** are calm. -/
theorem calm_apply (c : Cpu) (u : CpuOp) : Calm c (u.apply c) := by
  rcases apply_rows c u with h | rfl | ⟨va, rfl⟩
  · exact h.calm
  · exact ⟨rfl, .of_rows (fun _ _ => Or.inr rfl) rfl (fun _ _ => Or.inr rfl) rfl⟩
  · exact ⟨rfl, drops_flushTlbPage c va⟩

end Cpu
namespace Machine

variable {β : Type} [RamBus β]

/-! ## Stale pages -/

/-- The tables give this address. -/
def Right (word : Tables) (satp : U64) (q : Query) (pa : U64) : Prop := walk word satp q.ctx q.access q.va = some pa

/-- The bus gave this offset for the page at the address the tables give. -/
def RightOff (β : Type) [Bus β] (word : Tables) (satp : U64) (q : Query) (off : U64) : Prop :=
  ∃ pa, walk word satp q.ctx q.access q.va = some pa ∧
    ∃ (bus : β) (va' pa' : U64), SamePage q.va va' ∧ pa' - va' = pa - q.va ∧
      Bus.jitFastOff bus va' pa' (q.access = .store) = some off

/-- The queries some row answers with a value the tables do not give. -/
def staleQueries (c : Cpu) (word : Tables) (satp : U64) : Set Query :=
  Stale c.tlb (Right word satp) ∪ Stale c.jtlb (RightOff β word satp)

/-- The pages with a stale entry. -/
def stalePages (m : Machine β) : Set U64 :=
  {p | ∃ s, m.cpu.sys = some s ∧ ∃ q ∈ staleQueries (β := β) m.cpu (tables m.bus) s.satp, q.page = p}

/-- The entries of the tables a cached translation depends on change between two buses. -/
def Changed (c : Cpu) (s : SysCsrs) (bus bus' : β) (q : Query) : Prop :=
  ((c.tlb q).isSome ∨ (c.jtlb q).isSome) ∧
    ∃ a ∈ path (tables bus) s.satp q.ctx q.access q.va, ¬ AdEq (tables bus' a) (tables bus a)

/-- The pages with an entry, cached before, whose path in the tables changes. -/
def touched (m m' : Machine β) : Set U64 :=
  {p | ∃ s, m.cpu.sys = some s ∧ ∃ q, Changed m.cpu s m.bus m'.bus q ∧ q.page = p}

theorem stalePages_calm {c c' : Cpu} (h : Cpu.Calm c c') (bus : β) :
    stalePages ⟨c', bus⟩ ⊆ stalePages ⟨c, bus⟩ := by
  rintro p ⟨s', hs', q, hq, rfl⟩
  have hsatp := h.satp
  rw [hs'] at hsatp
  obtain ⟨s, hs, hss⟩ := Option.map_eq_some_iff.1 hsatp.symm
  refine ⟨s, hs, q, ?_, rfl⟩
  rw [hss]
  exact hq.imp (fun h1 => stale_drop h.drops.tlb h1) fun h1 => stale_drop h.drops.jtlb h1

theorem stalePages_flushed {c : Cpu} (h : Cpu.Flushed c) (bus : β) : stalePages ⟨c, bus⟩ = ∅ := by
  apply Set.eq_empty_of_forall_notMem
  rintro p ⟨s, -, q, hq, -⟩
  rcases hq with hq | hq
  · rw [stale_empty h.1] at hq
    exact hq
  · rw [stale_empty h.2] at hq
    exact hq

/-- **A change of memory** makes stale what it touches. -/
theorem stalePages_bus (c : Cpu) (bus bus' : β) :
    stalePages ⟨c, bus'⟩ ⊆ stalePages ⟨c, bus⟩ ∪ touched ⟨c, bus⟩ ⟨c, bus'⟩ := by
  rintro p ⟨s, hs, q, hq, rfl⟩
  by_cases ht : Changed c s bus bus' q
  · exact Or.inr ⟨s, hs, q, ht, rfl⟩
  · left
    refine ⟨s, hs, q, ?_, rfl⟩
    have hwalk : (c.tlb q).isSome ∨ (c.jtlb q).isSome →
        walk (tables bus') s.satp q.ctx q.access q.va = walk (tables bus) s.satp q.ctx q.access q.va := fun hsome => by
      apply walk_congr
      intro a ha
      by_contra hne
      exact ht ⟨hsome, a, ha, hne⟩
    rcases hq with ⟨v, hv, hr⟩ | ⟨off, hv, hr⟩
    · refine Or.inl ⟨v, hv, ?_⟩
      unfold Right at hr ⊢
      rwa [hwalk (Or.inl (by rw [hv]; rfl))] at hr
    · refine Or.inr ⟨off, hv, ?_⟩
      unfold RightOff at hr ⊢
      rwa [hwalk (Or.inr (by rw [hv]; rfl))] at hr

theorem touched_adSame (c c' : Cpu) {bus bus' : β} (h : AdSame bus bus') : touched ⟨c, bus⟩ ⟨c', bus'⟩ = ∅ := by
  apply Set.eq_empty_of_forall_notMem
  rintro p ⟨s, -, q, ⟨-, a, ha, hne⟩, -⟩
  exact hne (h a (aligned_path _ _ _ _ _ a ha))

/-! ## Translation -/

theorem walk_adSame {bus bus' : β} (h : AdSame bus bus') (satp ctx : U64) (access : Access) (va : U64) :
    walk (tables bus') satp ctx access va = walk (tables bus) satp ctx access va :=
  walk_congr fun a ha => h a (aligned_path _ _ _ _ _ a ha)

theorem fillTlb_sys (c : Cpu) (access : Access) (va pa : U64) : (fillTlb c access va pa).sys = c.sys := by
  unfold fillTlb
  dsimp only
  split_ifs <;> rfl

theorem fillTlb_jtlb (c : Cpu) (access : Access) (va pa : U64) :
    ∀ q off, (fillTlb c access va pa).jtlb q = some off → c.jtlb q = some off := by
  apply Cpu.jtlb_of_rows
  · intro r i
    unfold fillTlb TlbRows.set
    dsimp only
    split_ifs
    · dsimp only
      split_ifs
      · exact Or.inr rfl
      · exact Or.inl rfl
    · exact Or.inl rfl
  · unfold fillTlb
    dsimp only
    split_ifs <;> rfl

/-- An entry after a fill is an old one, or the one filled. -/
theorem fillTlb_cases {c : Cpu} {access : Access} {va pa : U64} {q : Query} {v : U64}
    (hq : (fillTlb c access va pa).tlb q = some v) :
    c.tlb q = some v ∨ v = q.va + (pa - va) ∧ (q.access = access ∧ c.translationContext = q.ctx) ∧ SamePage va q.va := by
  obtain ⟨h1, h2, rfl⟩ := Cpu.tlb_some hq
  have htag : (fillTlb c access va pa).tlbTag = c.tlbTag.set access.row (Cpu.tlbIndex va) (c.translationTag va) := by
    unfold fillTlb
    dsimp only
    split_ifs <;> rfl
  have hdiff : (fillTlb c access va pa).tlbDiff = c.tlbDiff.set access.row (Cpu.tlbIndex va) (pa - va) := by
    unfold fillTlb
    dsimp only
    split_ifs <;> rfl
  rw [htag, TlbRows.set] at h2
  rw [hdiff, TlbRows.set]
  by_cases hrow : q.access.row = access.row ∧ Cpu.tlbIndex q.va = Cpu.tlbIndex va
  · rw [if_pos hrow] at h2 ⊢
    right
    have haccess : q.access = access := by
      revert hrow
      cases q.access <;> cases access <;> simp [Access.row]
    obtain ⟨hctx, hpage⟩ := tagOf_inj c.translationContext_lt h1 h2
    exact ⟨rfl, ⟨haccess, hctx⟩, hpage⟩
  · rw [if_neg hrow] at h2 ⊢
    left
    unfold Cpu.tlb
    rw [if_pos ⟨h1, h2⟩]

/-- **A fill** with the address the tables give makes nothing stale. -/
theorem fillTlb_right {c : Cpu} {word : Tables} {satp : U64} {access : Access} {va pa : U64}
    (h : walk word satp c.translationContext access va = some pa) :
    ∀ q v, (fillTlb c access va pa).tlb q = some v → c.tlb q = some v ∨ Right word satp q v := by
  intro q v hq
  rcases fillTlb_cases hq with hold | ⟨rfl, ⟨haccess, hctx⟩, hpage⟩
  · exact Or.inl hold
  · right
    unfold Right
    rw [haccess, ← hctx]
    exact hpage.walk word satp _ _ h

/-- **A translation** makes nothing stale. -/
theorem stalePages_translateSlow {m : Machine β} {va : U64} {access : Access} (h : TablesInRam m va access) :
    stalePages (m.translateSlow va access).2 ⊆ stalePages m := by
  cases hs : m.cpu.sys with
  | none =>
    unfold translateSlow
    rw [hs]
  | some s =>
    rcases (translateSlow_walks hs h).2 with h2 | ⟨pa, bus', hw, h2, hsame⟩
    · rw [h2]
    · rw [h2]
      rintro p ⟨s', hs', q, hq, rfl⟩
      rw [fillTlb_sys, hs] at hs'
      cases hs'
      refine ⟨s, hs, q, ?_, rfl⟩
      have hfun : walk (tables bus') s.satp = walk (tables m.bus) s.satp := by
        funext ctx access va
        exact walk_adSame hsame ..
      unfold staleQueries Right RightOff at hq ⊢
      rw [hfun] at hq
      exact hq.imp (fun h1 => stale_fill (fillTlb_right hw) h1) fun h1 => stale_drop (fillTlb_jtlb _ _ _ _) h1

theorem stalePages_translate {m : Machine β} {va : U64} {access : Access} (h : TablesInRam m va access) :
    stalePages (m.translate va access).2 ⊆ stalePages m := by
  unfold translate
  cases m.cpu.sys with
  | none => exact subset_rfl
  | some s =>
    dsimp only
    split_ifs
    · exact subset_rfl
    · exact stalePages_translateSlow h

omit [RamBus β] in
theorem tlb_hit {m : Machine β} {va : U64} {access : Access}
    (h : m.cpu.tlbTag access.row (Cpu.tlbIndex va) = m.cpu.translationTag va) :
    m.cpu.tlb ⟨access, m.cpu.translationContext, va⟩ = some (va + m.cpu.tlbDiff access.row (Cpu.tlbIndex va)) :=
  if_pos ⟨m.cpu.translationContext_lt, h⟩

omit [RamBus β] in
/-- **A translation** answers from the row, is the identity, fills the row from a leaf, or fails and leaves the registers. -/
theorem translate_cases [Bus β] (m : Machine β) {s : SysCsrs} (hs : m.cpu.sys = some s) (va : U64) (access : Access) :
    let q : Query := ⟨access, m.cpu.translationContext, va⟩
    (∃ pa, m.translate va access = (.ok pa, m) ∧ m.cpu.tlb q = some pa) ∨
      (m.cpu.tlb q = none ∧
        ((m.translate va access = (.ok va, m) ∧ bare s.satp q.ctx access = true) ∨
          (∃ e bus, m.translate va access = (.error e, { m with bus := bus })) ∨
          ∃ (leaf : Leaf) (bus : β), m.translate va access = (.ok (leaf.pa va), ⟨fillTlb m.cpu access va (leaf.pa va), bus⟩) ∧
            bare s.satp q.ctx access = false)) := by
  intro q
  unfold translate
  rw [hs]
  dsimp only
  split_ifs with htag
  · exact Or.inl ⟨_, rfl, tlb_hit htag⟩
  · refine Or.inr ⟨if_neg fun h => htag h.2, ?_⟩
    have hbare : bare s.satp q.ctx access = decide (s.satp >>> 60 = 0 ∨ Cpu.effMode s access = .machine) := by
      unfold bare
      rw [Cpu.modeOf_context hs]
    rw [hbare]
    have htake : ∀ leaf (bus : β), (∃ e bus', m.takeLeaf s va access leaf bus = (.error e, { m with bus := bus' })) ∨
        ∃ bus', m.takeLeaf s va access leaf bus = (.ok (leaf.pa va), ⟨fillTlb m.cpu access va (leaf.pa va), bus'⟩) :=
      fun leaf bus => by
        unfold takeLeaf
        dsimp only
        split_ifs
        · exact Or.inl ⟨_, _, rfl⟩
        · rcases Bus.write .w8 bus leaf.pteAddr (updatePte access leaf.pte) with ⟨e | u, bus'⟩
          · exact Or.inl ⟨_, _, rfl⟩
          · exact Or.inr ⟨bus', rfl⟩
        · exact Or.inr ⟨bus, rfl⟩
    have hwalk : ∀ levels, (∃ e bus', m.walkTables s levels va access = (.error e, { m with bus := bus' })) ∨
        ∃ (leaf : Leaf) (bus' : β), m.walkTables s levels va access = (.ok (leaf.pa va), ⟨fillTlb m.cpu access va (leaf.pa va), bus'⟩) :=
      fun levels => by
        unfold walkTables
        dsimp only
        split_ifs
        · exact Or.inl ⟨_, m.bus, rfl⟩
        · rcases findLeaf access va (levels - 1) ((s.satp &&& 0xfffffffffff) <<< 12) m.bus with ⟨e | leaf, bus⟩
          · exact Or.inl ⟨_, _, rfl⟩
          · exact (htake leaf bus).imp_right fun h => ⟨leaf, h⟩
    unfold translateSlow
    rw [hs]
    dsimp only
    split_ifs with hb h8 h9
    · exact Or.inl ⟨rfl, decide_eq_true hb⟩
    · rw [decide_eq_false hb]
      exact Or.inr ((hwalk 3).imp_right fun ⟨leaf, bus, he⟩ => ⟨leaf, bus, he, rfl⟩)
    · rw [decide_eq_false hb]
      exact Or.inr ((hwalk 4).imp_right fun ⟨leaf, bus, he⟩ => ⟨leaf, bus, he, rfl⟩)
    · exact Or.inr (Or.inl ⟨_, m.bus, rfl⟩)

/-- A cached answer for a page that is not stale is the one of the tables. -/
theorem walked_of_hit {m : Machine β} {s : SysCsrs} (hs : m.cpu.sys = some s) {va pa : U64} {access : Access}
    (h : m.cpu.tlb ⟨access, m.cpu.translationContext, va⟩ = some pa) (hp : va >>> 12 ∉ stalePages m) :
    walked m s va access = some pa := by
  have hq : (⟨access, m.cpu.translationContext, va⟩ : Query) ∉ Stale m.cpu.tlb (Right (tables m.bus) s.satp) := fun hq =>
    hp ⟨s, hs, _, Or.inl hq, rfl⟩
  have hr := right_of_not_stale hq h
  exact hr

/-- What a translated address is: the one of the tables, unless its page was stale. -/
theorem translate_right {m m' : Machine β} {s : SysCsrs} (hs : m.cpu.sys = some s) {va pa : U64} {access : Access}
    (h : TablesInRam m va access) (ht : m.translate va access = (.ok pa, m')) :
    m'.cpu.sys = some s ∧ (walked m' s va access = some pa ∨ va >>> 12 ∈ stalePages m) := by
  unfold translate at ht
  rw [hs] at ht
  dsimp only at ht
  split_ifs at ht with htag
  · cases ht
    refine ⟨hs, ?_⟩
    by_cases hp : va >>> 12 ∈ stalePages m
    · exact Or.inr hp
    · exact Or.inl (walked_of_hit hs (tlb_hit htag) hp)
  · obtain ⟨h1, h2⟩ := translateSlow_walks hs h
    rw [ht] at h1 h2
    have hw : walked m s va access = some pa := by
      cases hw : walked m s va access with
      | none => rw [hw] at h1; cases h1
      | some pa' => rw [hw] at h1; cases h1; rfl
    rcases h2 with rfl | ⟨pa', bus', hw', rfl, hsame⟩
    · exact ⟨hs, Or.inl hw⟩
    · have hsys := fillTlb_sys m.cpu access va pa'
      refine ⟨hsys.trans hs, Or.inl ?_⟩
      have hctx : (fillTlb m.cpu access va pa').translationContext = m.cpu.translationContext := by
        unfold Cpu.translationContext
        rw [hsys]
      unfold walked at hw ⊢
      rw [hctx, walk_adSame hsame, hw]

/-- The access of a load or a store. -/
def dataAccess (store : Bool) : Access := if store then .store else .load

theorem fillJtlb_cases (m : Machine β) (va pa : U64) (store : Bool) :
    m.fillJtlb va pa store = m ∨ ∃ off, Bus.jitFastOff m.bus va pa store = some off ∧
      m.fillJtlb va pa store = { m with cpu := { m.cpu with
        jtlbTag := m.cpu.jtlbTag.set (jitRow store) (Cpu.tlbIndex va) (m.cpu.translationTag va)
        jtlbOff := m.cpu.jtlbOff.set (jitRow store) (Cpu.tlbIndex va) off } } := by
  unfold fillJtlb
  cases h : Bus.jitFastOff m.bus va pa store with
  | none => exact Or.inl rfl
  | some off => exact Or.inr ⟨off, rfl, rfl⟩

/-- A JIT-TLB entry after a fill is an old one, or the one filled. -/
theorem fillJtlb_jtlb {m : Machine β} {va pa : U64} {store : Bool} {q : Query} {off : U64}
    (hq : (m.fillJtlb va pa store).cpu.jtlb q = some off) :
    m.cpu.jtlb q = some off ∨ Bus.jitFastOff m.bus va pa store = some off ∧
      (q.access = dataAccess store ∧ m.cpu.translationContext = q.ctx) ∧ SamePage va q.va := by
  rcases fillJtlb_cases m va pa store with he | ⟨v, hoff, he⟩
  · rw [he] at hq
    exact Or.inl hq
  rw [he] at hq
  obtain ⟨h0, h1, h2, rfl⟩ := Cpu.jtlb_some hq
  dsimp only [TlbRows.set] at h2 ⊢
  by_cases hrow : jitRow (q.access = .store) = jitRow store ∧ Cpu.tlbIndex q.va = Cpu.tlbIndex va
  · obtain ⟨hctx, hpage⟩ := tagOf_inj m.cpu.translationContext_lt h1 ((if_pos hrow).symm.trans h2)
    have haccess : q.access = dataAccess store := by
      revert hrow h0
      cases q.access <;> cases store <;> simp [dataAccess, jitRow]
    rw [if_pos hrow]
    exact Or.inr ⟨hoff, ⟨haccess, hctx⟩, hpage⟩
  · rw [if_neg hrow] at h2 ⊢
    exact Or.inl (if_pos ⟨h0, h1, h2⟩)

theorem fillJtlb_sys_tlb (m : Machine β) (va pa : U64) (store : Bool) :
    (m.fillJtlb va pa store).bus = m.bus ∧ (m.fillJtlb va pa store).cpu.sys = m.cpu.sys ∧
      (m.fillJtlb va pa store).cpu.tlb = m.cpu.tlb := by
  rcases fillJtlb_cases m va pa store with he | ⟨v, hoff, he⟩ <;> rw [he] <;> exact ⟨rfl, rfl, rfl⟩

/-- **A JIT fill** makes stale at most a page that was. -/
theorem stalePages_fillJtlb {m : Machine β} {s : SysCsrs} (hs : m.cpu.sys = some s) {va pa : U64} {store : Bool} {S : Set U64}
    (hS : stalePages m ⊆ S) (h : walked m s va (dataAccess store) = some pa ∨ va >>> 12 ∈ S) :
    stalePages (m.fillJtlb va pa store) ⊆ S := by
  obtain ⟨hbus, hsys, htlb⟩ := fillJtlb_sys_tlb m va pa store
  rintro p ⟨s', hs', q, hq, rfl⟩
  rw [hsys] at hs'
  obtain rfl : s = s' := Option.some.inj (hs.symm.trans hs')
  unfold staleQueries at hq
  rw [hbus, htlb] at hq
  rcases hq with hq | ⟨off, hv, hr⟩
  · exact hS ⟨s, hs, q, Or.inl hq, rfl⟩
  rcases fillJtlb_jtlb hv with hold | ⟨hoff, ⟨haccess, hctx⟩, hpage⟩
  · exact hS ⟨s, hs, q, Or.inr ⟨off, hold, hr⟩, rfl⟩
  rcases h with h | h
  · exfalso
    apply hr
    unfold walked at h
    refine ⟨q.va + (pa - va), ?_, m.bus, va, pa, hpage.symm, by abel, ?_⟩
    · rw [haccess, ← hctx]
      exact hpage.walk _ _ _ _ h
    · rw [haccess]
      cases store <;> exact hoff
  · exact (show q.page = va >>> 12 from hpage.symm) ▸ h

theorem stalePages_translateFill {m : Machine β} {va : U64} {store : Bool} (h : TablesInRam m va (dataAccess store)) :
    stalePages (m.translateFill va store).2 ⊆ stalePages m := by
  have hst := stalePages_translate h
  unfold translateFill
  rw [show (if store = true then Access.store else Access.load) = dataAccess store from rfl]
  cases ht : m.translate va (dataAccess store) with
  | mk r m' =>
    rw [ht] at hst
    cases r with
    | error e => exact hst
    | ok pa =>
      dsimp only
      cases hs : m.cpu.sys with
      | none =>
        rintro p ⟨s, hs', -⟩
        exfalso
        unfold translate at ht
        rw [hs] at ht
        cases ht
        rcases fillJtlb_cases m va va store with he | ⟨off, -, he⟩
        · rw [he, hs] at hs'
          cases hs'
        · rw [he] at hs'
          exact absurd (hs.symm.trans hs') (by simp)
      | some s =>
        obtain ⟨hs', hr⟩ := translate_right hs h ht
        exact stalePages_fillJtlb hs' hst hr

/-- A translation changes accessed and dirty bits only. -/
theorem adSame_translate {m : Machine β} {va : U64} {access : Access} (h : TablesInRam m va access) :
    AdSame m.bus (m.translate va access).2.bus := by
  unfold translate
  cases hs : m.cpu.sys with
  | none => exact .refl _
  | some s =>
    dsimp only
    split_ifs
    · exact .refl _
    · rcases (translateSlow_walks hs h).2 with h2 | ⟨pa, bus', -, h2, hsame⟩
      · rw [h2]
        exact .refl _
      · rw [h2]
        exact hsame

theorem adSame_translateFill {m : Machine β} {va : U64} {store : Bool} (h : TablesInRam m va (dataAccess store)) :
    AdSame m.bus (m.translateFill va store).2.bus := by
  have hsame := adSame_translate h
  unfold translateFill
  rw [show (if store = true then Access.store else Access.load) = dataAccess store from rfl]
  revert hsame
  rcases m.translate va (dataAccess store) with ⟨_ | pa, m'⟩ <;> intro hsame
  · exact hsame
  · rcases fillJtlb_cases m' va pa store with he | ⟨off, -, he⟩
    · dsimp only
      rw [he]
      exact hsame
    · dsimp only
      rw [he]
      exact hsame

/-! ## One operation -/

/-- The entries the walk of an operation reads are memory. -/
def TableGuard (m : Machine β) : HartOp → Prop
  | .translate va access => TablesInRam m va access
  | .translateFill va store => TablesInRam m va (dataAccess store)
  | _ => True

/-- **One operation** makes stale at most what it touches. -/
theorem stalePages_exec {m : Machine β} {o : HartOp} (h : TableGuard m o) :
    stalePages (exec o m).2 ⊆ stalePages m ∪ touched m (exec o m).2 := by
  cases o with
  | get => exact Set.subset_union_left
  | cpu u => exact (stalePages_calm (Cpu.calm_apply m.cpu u) m.bus).trans Set.subset_union_left
  | csrWrite insn csr v =>
    refine Set.Subset.trans ?_ Set.subset_union_left
    rcases Cpu.csrWrite_cases m.cpu csr v with hc | hc
    · exact stalePages_calm hc m.bus
    · exact (stalePages_flushed hc m.bus).trans_subset (Set.empty_subset _)
  | translate va access => exact (stalePages_translate h).trans Set.subset_union_left
  | translateFill va store => exact (stalePages_translateFill h).trans Set.subset_union_left
  | read w pa => exact stalePages_bus m.cpu m.bus _
  | write w pa v => exact stalePages_bus m.cpu m.bus _
  | fetch16 pa => exact stalePages_bus m.cpu m.bus _
  | fetch32IfSafe pa => exact stalePages_bus m.cpu m.bus _
  | irqLines => exact stalePages_bus m.cpu m.bus _

end Machine
end Lish
