import Lish.Jit.ModulePages
import Lish.Jit.Asserts
/-!
# CompletionOrder — whether the order of completions shows

The host completes compiles in any order.  Whether the code that a pc runs in the end, and the compile it is from, depends on that order
is decided at each pc apart: by what is there, and by what the compiles bring.
-/
namespace Lish

open OwnedCode JitState

/-- What the host answers to a compile that waits: the first of its slots, and their number. -/
structure Completion where
  compile : PendingJit
  base : ℤ
  slotCount : ℕ

namespace Completion

def arrival (c : Completion) (aspace pc : U64) : Arrival := c.compile.arrival c.base aspace pc

/-- What the completions bring to a pc. -/
def arrivals (cs : List Completion) (aspace pc : U64) : List Arrival := cs.map fun c => c.arrival aspace pc

end Completion

def Arrival.isTrace : Arrival → Bool
  | .trace _ _ => true
  | _ => false

/-- Two completions that are not of one compile, share no slot and bring no two traces to one pc. -/
structure Completion.Apart (aspace : U64) (c c' : Completion) : Prop where
  ticket : c.compile.ticket ≠ c'.compile.ticket
  slots : ∀ i, Names c.base c.slotCount i → ¬Names c'.base c'.slotCount i
  traces : ∀ pc, (c.arrival aspace pc).isTrace = true → (c'.arrival aspace pc).isTrace = false

theorem Completion.Apart.symm {aspace : U64} {c c' : Completion} (h : c.Apart aspace c') : c'.Apart aspace c where
  ticket := h.ticket.symm
  slots i hi hi' := h.slots i hi' hi
  traces pc ht := by
    by_contra hn
    rw [h.traces pc (Bool.eq_true_of_not_eq_false hn)] at ht
    cases ht

instance {aspace : U64} : Std.Symm (Completion.Apart aspace) := ⟨fun _ _ => Completion.Apart.symm⟩

namespace Completion

variable {aspace pc : U64} {cs : List Completion} {o : JitOwnerId} {b : JitBlock}

/-- What a region brings is one of its entries, or nothing. -/
theorem region_arrival {entry : Option JitBlock} {q : JitOwnerId} {a : Arrival} (h : entry.elim .elsewhere (.entry q) = a) :
    a = .elsewhere ∨ ∃ block, entry = some block ∧ a = .entry q block := by
  cases entry with
  | none => exact .inl h.symm
  | some block => exact .inr ⟨block, rfl, h.symm⟩

theorem arrival_owner {c : Completion} (h : (c.arrival aspace pc).owner? = some o) : c.compile.ticket = o := by
  unfold arrival PendingJit.arrival at h
  split at h
  · rename_i batch hk
    cases hkey : batch.pageModule with
    | none =>
      rw [hkey, Option.elim_none] at h
      split at h
      · exact Option.some.inj h
      · cases h
    | some key =>
      rw [hkey, Option.elim_some] at h
      split at h
      · exact Option.some.inj h
      · cases h
  · rcases region_arrival rfl with he | ⟨block, -, he⟩
    · rw [he] at h
      cases h
    · rw [he] at h
      exact Option.some.inj h
  · split at h
    · exact Option.some.inj h
    · cases h

/-- What a region brings has no instruction count. -/
theorem arrival_entry {c : Completion} (h : c.arrival aspace pc = .entry o b) : b.n = 0 := by
  unfold arrival PendingJit.arrival at h
  split at h
  · rename_i batch hk
    cases hkey : batch.pageModule with
    | none =>
      rw [hkey, Option.elim_none] at h
      split at h <;> cases h
    | some key =>
      rw [hkey, Option.elim_some] at h
      split at h <;> cases h
  · rcases region_arrival h with he | ⟨block, hblock, he⟩
    · cases he
    · cases he
      split at hblock
      · obtain ⟨page, -, rfl⟩ := Option.map_eq_some_iff.1 hblock
        rfl
      · cases hblock
  · split at h <;> cases h

/-- The owners of what the completions bring are their tickets, in order. -/
theorem owners_sublist (cs : List Completion) : ((arrivals cs aspace pc).filterMap Arrival.owner?).Sublist
    (cs.map fun c => c.compile.ticket) := by
  induction cs with
  | nil => exact List.Sublist.refl _
  | cons c cs ih =>
    change List.Sublist (List.filterMap Arrival.owner? (c.arrival aspace pc :: arrivals cs aspace pc)) (c.compile.ticket :: _)
    cases ho : (c.arrival aspace pc).owner? with
    | none =>
      rw [List.filterMap_cons_none ho]
      exact ih.cons _
    | some o =>
      rw [List.filterMap_cons_some ho, arrival_owner ho]
      exact ih.cons_cons _

theorem owners_nodup (h : cs.Pairwise (Completion.Apart aspace)) : ((arrivals cs aspace pc).filterMap Arrival.owner?).Nodup := by
  refine (owners_sublist cs).nodup ?_
  rw [List.nodup_iff_pairwise_ne, List.pairwise_map]
  exact h.imp Apart.ticket

/-- A region that brings an entry has the page of the pc. -/
theorem entry_page {c : Completion} (h : c.arrival aspace pc = .entry o b) :
    ∃ r, c.compile.kind = .region r ∧ ∃ page ∈ r.pages, page.1 = pageOf pc := by
  unfold arrival PendingJit.arrival at h
  split at h
  · rename_i batch hk
    cases hkey : batch.pageModule with
    | none =>
      rw [hkey, Option.elim_none] at h
      split at h <;> cases h
    | some key =>
      rw [hkey, Option.elim_some] at h
      split at h <;> cases h
  · rename_i r hk
    refine ⟨r, hk, ?_⟩
    rcases region_arrival h with he | ⟨block, hblock, he⟩
    · cases he
    · split at hblock
      · obtain ⟨page, hpage, -⟩ := Option.map_eq_some_iff.1 hblock
        exact ⟨page, List.mem_of_find?_eq_some hpage, by simpa using List.find?_some hpage⟩
      · cases hblock
  · split at h <;> cases h

/-- A page module that a pc gets is of the page of the pc. -/
theorem pageModule_page {c : Completion} {block : Option JitBlock} (h : c.arrival aspace pc = .pageModule o block) :
    ∃ batch, c.compile.kind = .batch batch ∧ batch.pageModule = some (aspace, pageOf pc) := by
  unfold arrival PendingJit.arrival at h
  split at h
  · rename_i batch hk
    refine ⟨batch, hk, ?_⟩
    cases hkey : batch.pageModule with
    | none =>
      rw [hkey, Option.elim_none] at h
      split at h <;> cases h
    | some key =>
      rw [hkey, Option.elim_some] at h
      split at h
      · rename_i hon
        rw [← hon.1, hon.2]
      · cases h
  · rcases region_arrival h with he | ⟨_, -, he⟩ <;> cases he
  · split at h <;> cases h

end Completion

namespace Dispatcher

variable {d d' : Dispatcher} {m m' : JitPageState} {p q : PendingJit} {base : ℤ} {n : ℕ} {aspace : U64}

/-! ## Compiles that would land -/

theorem landed_iff :
    d.outcome m p base n = .landed ↔ p.slotCount = n ∧ d.isCurrent p = true ∧ 0 ≤ base ∧ d.sourceStale m p = false := by
  unfold outcome
  constructor
  · intro h
    split at h
    · cases h
    · rename_i hn
      split at h
      · cases h
      · rename_i hc
        split at h
        · cases h
        · split at h
          · cases h
          · rename_i hb
            split at h
            · cases h
            · rename_i hs
              exact ⟨of_not_not hn, by simpa using hc, not_lt.1 hb, Bool.eq_false_of_not_eq_true hs⟩
  · rintro ⟨hn, hc, hb, hs⟩
    have hcap : base ≠ JIT_REGISTER_CAPACITY := fun he => absurd (he ▸ hb) (by decide)
    rw [if_neg (not_not.2 hn), hc, if_neg (by decide), if_neg hcap, if_neg (not_lt.2 hb), hs, if_neg Bool.false_ne_true]

/-- A compile stays current while its claims and its page wait for it. -/
theorem isCurrent_of (hboot : d'.bootGen = d.bootGen) (hc : ∀ k, d.jit.Holds q.ticket k → d'.jit.Holds q.ticket k)
    (hm : ∀ key source prior, d.jit.pageModules key = some (.pending source q.ticket prior) →
      ∃ prior', d'.jit.pageModules key = some (.pending source q.ticket prior')) (h :
        d.isCurrent q = true) : d'.isCurrent q = true := by
  unfold isCurrent at h ⊢
  rw [Bool.and_eq_true] at h ⊢
  rw [hboot]
  refine ⟨h.1, ?_⟩
  have h := h.2
  cases hk : q.kind with
  | block b => rfl
  | region r =>
    rw [hk] at h
    dsimp only at h ⊢
    unfold pendingSuperblockIsCurrent at h ⊢
    rw [List.all_eq_true] at h ⊢
    intro page hpage
    obtain ⟨claim, hclaim, ht⟩ := (Option.any_eq_true _ _).1 (h page hpage)
    obtain ⟨claim', hclaim', ht'⟩ := hc _ ⟨claim, hclaim, of_decide_eq_true ht⟩
    exact (Option.any_eq_true _ _).2 ⟨claim', hclaim', decide_eq_true ht'⟩
  | batch b =>
    rw [hk] at h
    dsimp only at h ⊢
    unfold pageModulePendingIsCurrent at h ⊢
    cases hpm : b.pageModule with
    | none => rfl
    | some key =>
      rw [hpm] at h
      dsimp only at h ⊢
      split at h
      · rename_i source current prior hs
        obtain rfl := of_decide_eq_true h
        obtain ⟨prior', hs'⟩ := hm key source prior hs
        rw [hs']
        exact decide_eq_true rfl
      · cases h

/-- A source stays unchanged while its pages stay marked and unwritten. -/
theorem fresh_of (hboot : d'.bootGen = d.bootGen) (hm : ∀ page, pageStale m page = false → pageStale m' page = false)
    (h : d.sourceStale m q = false) : d'.sourceStale m' q = false := by
  have hblock {b : PendingBlock} (hb : blockStale m b = false) : blockStale m' b = false := by
    unfold blockStale at hb ⊢
    rw [List.any_eq_false] at hb ⊢
    exact fun page hpage => by simpa using hm page (by simpa using hb page hpage)
  unfold sourceStale at h ⊢
  rw [hboot]
  by_cases hg : q.bootGen = d.bootGen
  · rw [decide_eq_true hg, Bool.true_and] at h ⊢
    cases hk : q.kind with
    | block b =>
      rw [hk] at h
      exact hblock h
    | region r =>
      rw [hk] at h
      dsimp only at h ⊢
      rw [List.any_eq_false] at h ⊢
      exact fun page hpage => by simpa using hm page (by simpa using h page hpage)
    | batch b =>
      rw [hk] at h
      dsimp only at h ⊢
      rw [List.any_eq_false] at h ⊢
      exact fun member hmem => by simpa using hblock (by simpa using h member hmem)
  · rw [decide_eq_false hg, Bool.false_and]

/-- Marking a page makes no page stale. -/
theorem mark_fresh {page : (U64 × U64) × U64} (pa : U64) (h : pageStale m page = false) :
    pageStale (FullSystemJitMachine.codeMarkPage m pa) page = false := by
  have hmark : (m.markAddress pa).2 = m ∨ ∃ p, (m.markAddress pa).2 = m.setMarked p true := by
    unfold JitPageState.markAddress
    split
    · exact .inr ⟨_, rfl⟩
    · exact .inl rfl
  change pageStale (m.markAddress pa).2 page = false
  rcases hmark with he | ⟨p, he⟩
  · rwa [he]
  · rw [he]
    unfold pageStale at h ⊢
    rw [Bool.or_eq_false_iff, Bool.or_eq_false_iff, Bool.not_eq_false'] at h ⊢
    refine ⟨⟨?_, h.1.2⟩, h.2⟩
    have hm := h.1.1
    change (decide (_ < m.pageCount) && m.marked _) = true at hm
    change (decide (_ < m.pageCount) && (m.setMarked p true).marked _) = true
    rw [Bool.and_eq_true] at hm ⊢
    refine ⟨hm.1, ?_⟩
    change (if _ = p then true else m.marked _) = true
    split
    · rfl
    · exact hm.2

/-- What a landing marks makes no page stale. -/
theorem land_fresh (hr : d.land m p base = some (m', d')) {page : (U64 × U64) × U64} (h : pageStale m page = false) :
    pageStale m' page = false := by
  unfold land at hr
  split at hr
  · obtain ⟨j, -, hr⟩ := Option.map_eq_some_iff.1 hr
    cases hr
    exact h
  · obtain ⟨s, hs, hr⟩ := Option.map_eq_some_iff.1 hr
    cases hr
    unfold completeBlockLanding at hs
    split at hs
    · cases hs
      exact h
    · split at hs
      · cases hs
        exact h
      · obtain ⟨j, -, rfl⟩ := Option.map_eq_some_iff.1 hs
        exact List.foldlRecOn _ _ (motive := fun m => pageStale m page = false) h fun m hm a _ => mark_fresh a.2 hm
  · obtain ⟨d1, -, hr⟩ := Option.map_eq_some_iff.1 hr
    cases hr
    exact h

/-- A compile that waits, of one address space, would land in slots that are not in use. -/
structure Ready (aspace : U64) (s : JitPageState × Dispatcher) (c : Completion) : Prop where
  waits : c.compile ∈ s.2.pendingJit
  lands : s.2.outcome s.1 c.compile c.base c.slotCount = .landed
  space : c.compile.InSpace aspace
  once : c.compile.Once
  slots : FreshSlots s.2.jit.toOwnedCode c.base c.slotCount
  pos : 0 < c.slotCount

/-- Two compiles that are both current have no page of a region and no page module in common. -/
theorem Ready.noSameKind {s : JitPageState × Dispatcher} {c c' : Completion} {pc : U64} {o o' : JitOwnerId} (h : Ready aspace s c)
    (h' : Ready aspace s c') (hne : c.compile.ticket ≠ c'.compile.ticket) :
    (∀ b b', c.arrival aspace pc = .entry o b → c'.arrival aspace pc ≠ .entry o' b') ∧
      ∀ b b', c.arrival aspace pc = .pageModule o b → c'.arrival aspace pc ≠ .pageModule o' b' := by
  have hcur := (landed_iff.1 h.lands).2.1
  have hcur' := (landed_iff.1 h'.lands).2.1
  have hspace := h.space
  have hspace' := h'.space
  unfold isCurrent at hcur hcur'
  rw [Bool.and_eq_true] at hcur hcur'
  have hcur := hcur.2
  have hcur' := hcur'.2
  unfold PendingJit.InSpace at hspace hspace'
  refine ⟨fun b b' ha ha' => hne ?_, fun b b' ha ha' => hne ?_⟩
  · obtain ⟨r, hk, page, hpage, hpc⟩ := Completion.entry_page ha
    obtain ⟨r', hk', page', hpage', hpc'⟩ := Completion.entry_page ha'
    rw [hk] at hcur hspace
    rw [hk'] at hcur' hspace'
    obtain ⟨claim, hclaim, ht⟩ := (Option.any_eq_true _ _).1 (List.all_eq_true.1 hcur page hpage)
    obtain ⟨claim', hclaim', ht'⟩ := (Option.any_eq_true _ _).1 (List.all_eq_true.1 hcur' page' hpage')
    rw [hspace, hpc] at hclaim
    rw [hspace', hpc', hclaim] at hclaim'
    cases hclaim'
    exact (of_decide_eq_true ht).symm.trans (of_decide_eq_true ht')
  · obtain ⟨batch, hk, hkey⟩ := Completion.pageModule_page ha
    obtain ⟨batch', hk', hkey'⟩ := Completion.pageModule_page ha'
    obtain ⟨source, prior, hs⟩ := (current_of_landed h.lands).2.2 batch _ hk hkey
    obtain ⟨source', prior', hs'⟩ := (current_of_landed h'.lands).2.2 batch' _ hk' hkey'
    exact (PageModuleState.pending.inj (Option.some.inj (hs.symm.trans hs'))).2.1

/-- What completions bring to a pc: one trace, one region and one page module at most. -/
theorem arrivals_apart {s : JitPageState × Dispatcher} {cs : List Completion} {pc : U64} (h : cs.Pairwise (Completion.Apart aspace))
    (hready : ∀ c ∈ cs, Ready aspace s c) : Apart (Completion.arrivals cs aspace pc) := by
  have hdiff {a a' : Arrival} (ha : a ∈ Completion.arrivals cs aspace pc) (ha' : a' ∈ Completion.arrivals cs aspace pc)
    (hne : a ≠ a') :
      ∃ c c', c.arrival aspace pc = a ∧ c'.arrival aspace pc = a' ∧ Ready aspace s c ∧ Ready aspace s c' ∧ c.Apart aspace c' := by
    obtain ⟨c, hc, rfl⟩ := List.mem_map.1 ha
    obtain ⟨c', hc', rfl⟩ := List.mem_map.1 ha'
    exact ⟨c, c', rfl, rfl, hready c hc, hready c' hc', h.forall hc hc' fun he => hne (by rw [he])⟩
  have hticket {a a' : Arrival} (ha : a ∈ Completion.arrivals cs aspace pc) (ha' : a' ∈ Completion.arrivals cs aspace pc)
    (hne : a ≠ a')
      {o o' : JitOwnerId} (ho : a.owner? = some o) (ho' : a'.owner? = some o') : o ≠ o' := by
    obtain ⟨c, c', rfl, rfl, -, -, hapart⟩ := hdiff ha ha' hne
    rw [← Completion.arrival_owner ho, ← Completion.arrival_owner ho']
    exact hapart.ticket
  refine ⟨fun o b o' b' ha ha' => ?_, fun o b o' b' ha ha' => ?_, fun o b o' b' ha ha' => ?_, fun o b o' b' ha ha' => ?_,
    fun o b o' b' ha ha' => ?_, fun o b o' b' ha ha' => ?_, fun o b ha => ?_⟩
  · by_contra hne
    obtain ⟨c, c', hc, hc', -, -, hapart⟩ := hdiff ha ha' fun he => hne (by cases he; exact ⟨rfl, rfl⟩)
    have := hapart.traces pc (by rw [hc]; rfl)
    rw [hc'] at this
    cases this
  · by_contra hne
    obtain ⟨c, c', hc, hc', hr, hr', hapart⟩ := hdiff ha ha' fun he => hne (by cases he; exact ⟨rfl, rfl⟩)
    exact (hr.noSameKind hr' hapart.ticket).1 b b' hc hc'
  · by_contra hne
    obtain ⟨c, c', hc, hc', hr, hr', hapart⟩ := hdiff ha ha' fun he => hne (by cases he; exact ⟨rfl, rfl⟩)
    exact (hr.noSameKind hr' hapart.ticket).2 b b' hc hc'
  · exact hticket ha ha' (fun he => by cases he) rfl rfl
  · exact hticket ha ha' (fun he => by cases he) rfl rfl
  · exact hticket ha ha' (fun he => by cases he) rfl rfl
  · obtain ⟨c, -, hc⟩ := List.mem_map.1 ha
    exact Completion.arrival_entry hc

/-- The host completes a compile. -/
def deliver (s : JitPageState × Dispatcher) (c : Completion) : Option (JitPageState × Dispatcher) :=
  s.2.completeJit s.1 c.compile.ticket c.base c.slotCount

/-- The host completes compiles one after the other. -/
def deliverAll (s : JitPageState × Dispatcher) (cs : List Completion) : Option (JitPageState × Dispatcher) := cs.foldlM deliver s

/-- The compile that a ticket finds. -/
theorem Numbered.find (h : Numbered d) (hp : p ∈ d.pendingJit) : ∃ pos, d.findPending p.ticket = some (pos, p) := by
  cases hfind : d.findPending p.ticket with
  | none => exact absurd rfl (findPending_none hfind p hp)
  | some found =>
    obtain ⟨pos, q⟩ := found
    obtain ⟨ht, hperm⟩ := findPending_some hfind
    have hq := hperm.subset List.mem_cons_self
    rw [List.inj_on_of_nodup_map h.nodup hq hp ht]
    exact ⟨pos, rfl⟩

theorem take_outcome (d : Dispatcher) (m : JitPageState) (p q : PendingJit) (base : ℤ) (n pos : ℕ) :
    (d.take pos p).outcome m q base n = d.outcome m q base n := by
  have hcode := take_code d pos p
  have hclaims := removePendingCoverage_claims d.jit p.kind
  have hcur : (d.take pos p).isCurrent q = d.isCurrent q := by
    unfold isCurrent pendingSuperblockIsCurrent pageModulePendingIsCurrent
    rw [show (d.take pos p).jit.pendingSuperblocks = d.jit.pendingSuperblocks from hclaims.2,
      show (d.take pos p).jit.pageModules = d.jit.pageModules from congrArg OwnedCode.pageModules hcode]
    rfl
  unfold outcome
  rw [hcur]
  rfl

/-- A compile that lands: its slots are tracked, its code comes, and the slots that no entry took go. -/
theorem settle_landed (ho : d.outcome m p base n = .landed) (hr : d.settle m p base n = some (m', d')) :
    ∃ c d1, d.jit.toOwnedCode.trackOwner p.ticket (slotsFrom base n) = some c ∧
      land { d with jit := { d.jit with toOwnedCode := c } } m p base = some (m', d1) ∧
      d' = { d1 with jit := retireUnreferenced d1.jit p.ticket } := by
  unfold settle at hr
  rw [ho] at hr
  obtain ⟨c, hc, hr⟩ := Option.bind_eq_some_iff.1 hr
  obtain ⟨⟨m1, d1⟩, hl, hr⟩ := Option.bind_eq_some_iff.1 hr
  cases hr
  exact ⟨c, d1, hc, hl, rfl⟩

/-- A compile that lands takes no slots but its own. -/
theorem settle_slots (hd : Exact True d.jit.uses .closed d.jit.toOwnedCode) (hp : p.Proper)
    (hf : FreshSlots d.jit.toOwnedCode base n) (hn : 0 < n)
    (ho : d.outcome m p base n = .landed) (hr : d.settle m p base n = some (m', d')) {i : ℤ} {o : JitOwnerId}
    (hi : d'.jit.slotOwner i = some o) :
    d.jit.slotOwner i = some o ∨ Names base n i := by
  obtain ⟨c, d1, hc, hl, rfl⟩ := settle_landed ho hr
  obtain ⟨hland, ht⟩ := Landing.of_track hd rfl hc
  obtain ⟨-, h0, -⟩ := current_of_landed ho
  have hroom := hf.1
  have hb : base < 2 ^ 31 := by omega
  have he := (land_exact hland hd ht hp hb (fun _ => hroom) ho hl).1
  have hi1 := (retireUnreferenced_exact he).owners.owner i o hi
  have hi2 := (land_owners hland hd ht hp hb (fun _ => hroom) ho hl).2 i o hi1
  rw [ht.slotOwner] at hi2
  split at hi2
  · rename_i hmem
    exact .inr ((mem_slots_iff h0 hroom i).1 hmem)
  · exact .inl hi2

/-- A compile that lands, at each pc as a site. -/
theorem settle_shows {pc : U64} {s : Site} (hd : Exact True d.jit.uses .closed d.jit.toOwnedCode) (hp : p.Proper)
    (hon : d.jit.OnPages)
    (hf : FreshSlots d.jit.toOwnedCode base n) (hn : 0 < n) (ho : d.outcome m p base n = .landed) (hin : p.InSpace aspace)
    (honce : p.Once)
    (hr : d.settle m p base n = some (m', d')) (hs : d.jit.Shows aspace pc s) (hl : s.live ≠ some p.ticket) :
    d'.jit.Shows aspace pc (s.land d.settings.traceKeepMin (p.arrival base aspace pc)) := by
  obtain ⟨c, d1, hc, hland, rfl⟩ := settle_landed ho hr
  obtain ⟨htrack, ht⟩ := Landing.of_track (Exact.weaken hd) rfl hc
  have hroom := hf.1
  have hb : base < 2 ^ 31 := by omega
  have hs1 := land_shows (Exact.weaken hd) ht htrack hp hb hroom ho hin honce (Tracked.onPages ht (Exact.weaken hd) hon) hland
    (Tracked.shows ht hd hs hl) hl
  have he := (land_exact htrack (Exact.weaken hd) ht hp hb (fun _ => hroom) ho hland).1
  obtain ⟨hdrops, hcache, -⟩ := he.retireSlots false ((d1.jit.ownerSlots p.ticket).getD [])
  exact hs1.of_owners hdrops.owners he hdrops.exact (congrFun hcache pc)

/-- Nothing of a compile that waits is taken by another one. -/
theorem settle_current {fresh : Prop} (hd : Exact fresh d.jit.uses .closed d.jit.toOwnedCode) (hp : p.Proper) (hb : InRange base)
    (hf : fresh → FreshSlots d.jit.toOwnedCode base n) (hne : p.ticket ≠ q.ticket) (hr : d.settle m p base n = some (m', d'))
    (h : d.isCurrent q = true) : d'.isCurrent q = true := by
  refine isCurrent_of (settle_clock hr).boot (fun k hk => ?_) (fun key source prior hkey => ?_) h
  · obtain ⟨hclaims, -⟩ := settle_claims hr
    have hother : (claimsAfter d.jit p (d.outcome m p base n)).pendingSuperblocks k = d.jit.pendingSuperblocks k := by
      unfold claimsAfter
      split
      · rfl
      · split
        · rfl
        · refine (finish_other _ (.inr fun hn => ?_)).1
          obtain ⟨claim, hc, ht⟩ := hk
          obtain ⟨claim', hc', ht'⟩ := hn
          rw [hc] at hc'
          cases hc'
          exact hne (ht'.symm.trans ht)
    obtain ⟨claim, hc, ht⟩ := hk
    exact ⟨claim, by rw [hclaims.2, hother, hc], ht⟩
  · obtain ⟨c, hended, howners⟩ := settle_ended hd hp hb hf hr
    have hothers := hended.others key fun hn => by
      obtain ⟨-, source', prior', hs⟩ := hn
      rw [hkey] at hs
      exact hne (PageModuleState.pending.inj (Option.some.inj hs)).2.1.symm
    refine ⟨prior.filter fun code => d'.jit.Alive code.owner, ?_⟩
    rw [howners.modules, hothers, hkey, Option.bind_some, survives_pending]

/-- What a completion that lands leaves. -/
structure Delivered (aspace : U64) (s : JitPageState × Dispatcher) (c : Completion) (t : JitPageState × Dispatcher) : Prop where
  orderly : Orderly t.2
  onPages : t.2.jit.OnPages
  settings : t.2.settings = s.2.settings
  ready : ∀ c', c.Apart aspace c' → Ready aspace s c' → Ready aspace t c'
  shows : ∀ pc site, s.2.jit.Shows aspace pc site → site.live ≠ some c.compile.ticket →
    t.2.jit.Shows aspace pc (site.land s.2.settings.traceKeepMin (c.arrival aspace pc))

/-- **A completion lands**, and those that are ready apart from it stay ready. -/
theorem Ready.deliver {s : JitPageState × Dispatcher} {c : Completion} (h : Ready aspace s c) (ho : Orderly s.2)
    (hon : s.2.jit.OnPages) :
    ∃ t, deliver s c = some t ∧ Delivered aspace s c t := by
  obtain ⟨hown, hprop, hnum⟩ := ho
  obtain ⟨pos, hfind⟩ := hnum.find h.waits
  have hcode := take_code s.2 pos c.compile
  obtain ⟨t, ht⟩ := Option.isSome_iff_exists.1 (completeJit_isSome s.1 c.compile.ticket hown hprop hnum.apart h.pos h.slots)
  have hlands : (s.2.take pos c.compile).outcome s.1 c.compile c.base c.slotCount = .landed := by rw [take_outcome, h.lands]
  obtain ⟨-, h0, -⟩ := current_of_landed h.lands
  have hroom := h.slots.1
  have hpos := h.pos
  have hb : InRange c.base := ⟨by omega, by omega⟩
  have hexact := (completeJit_exact hown hprop hb (fun _ => h.slots) ht).exact
  have hsettle : (s.2.take pos c.compile).settle s.1 c.compile c.base c.slotCount = some (t.1, t.2) := by
    unfold completeJit at ht
    rw [hfind] at ht
    exact ht
  have hown' : Exact True (s.2.take pos c.compile).jit.uses .closed (s.2.take pos c.compile).jit.toOwnedCode := by
    rw [hcode]
    exact hown
  have hperm := (findPending_some hfind).2
  have hclock := settle_clock hsettle
  have hstep : Step s.1 s.2 (.complete c.compile.ticket c.base c.slotCount) t.2 := .complete ht
  refine ⟨t, ht, ⟨⟨hexact, hprop.step hstep, hnum.complete hown hprop hb (fun _ => hroom) ht⟩, ?_, hclock.settings, fun c' ha hc' => ?_,
    fun pc site hs hl => ?_⟩⟩
  · exact settle_onPages hown' (hprop _ h.waits) hb hroom (by rw [hcode]; exact hon) hsettle
  · -- the slots of the others are not in use, and nothing of theirs was taken
    obtain ⟨hcount, hcur, hbase, hstale⟩ := landed_iff.1 hc'.lands
    obtain ⟨c₁, d₁, -, hland, -⟩ := settle_landed hlands hsettle
    refine ⟨?_, landed_iff.2 ⟨hcount, ?_, hbase, fresh_of (d := s.2) hclock.boot (fun page hp => land_fresh hland hp) hstale⟩, hc'.space, hc'.once,
      ⟨hc'.slots.1, fun i hi => ?_⟩, hc'.pos⟩
    · rw [(settle_claims hsettle).2]
      refine (List.mem_cons.1 (hperm.mem_iff.2 hc'.waits)).resolve_left fun he => ha.ticket (by rw [he])
    · refine settle_current (d := s.2.take pos c.compile) hown' (hprop _ h.waits) hb
        (fun _ => by rw [hcode]; exact h.slots) ha.ticket hsettle ?_
      have htake := take_outcome s.2 s.1 c.compile c'.compile c'.base c'.slotCount pos
      exact (landed_iff.1 (htake.trans hc'.lands)).2.1
    · by_contra hlive
      obtain ⟨o, hio⟩ := Option.isSome_iff_exists.1 ((hexact.live trivial i).1 (Bool.eq_true_of_not_eq_false hlive))
      rcases settle_slots hown' (hprop _ h.waits) (by rw [hcode]; exact h.slots) h.pos hlands hsettle hio with hold | hnew
      · rw [hcode] at hold
        have := (hown.live trivial i).2 (by rw [hold]; rfl)
        rw [hc'.slots.2 i hi] at this
        cases this
      · exact ha.slots i hnew hi
  · exact settle_shows (d := s.2.take pos c.compile) hown' (hprop _ h.waits) (by rw [hcode]; exact hon)
      (by rw [hcode]; exact h.slots) h.pos hlands h.space h.once hsettle
      (by rw [hcode]; exact hs) hl

/-- Only a page module becomes live on a page. -/
theorem land_live (keep : ℕ) (s : Site) (a : Arrival) : (s.land keep a).live = s.live ∨ ∃ o, a.owner? = some o ∧
    (s.land keep a).live = some o := by
  cases a with
  | trace o b =>
    left
    simp only [Site.land]
    repeat' split
    all_goals rfl
  | entry o b =>
    left
    simp only [Site.land]
    repeat' split
    all_goals rfl
  | pageModule o b => cases b <;> exact .inr ⟨o, rfl, rfl⟩
  | elsewhere => exact .inl rfl

/-- **Completions land one after the other**, each at each pc. -/
theorem deliverAll_shows {cs : List Completion} : ∀ {s : JitPageState × Dispatcher}, Orderly s.2 → s.2.jit.OnPages → cs.Pairwise
    (Completion.Apart aspace) →
    (∀ c ∈ cs, Ready aspace s c) → ∃ t, deliverAll s cs = some t ∧ ∀ pc site, s.2.jit.Shows aspace pc site →
      (∀ c ∈ cs, site.live ≠ some c.compile.ticket) →
      t.2.jit.Shows aspace pc ((Completion.arrivals cs aspace pc).foldl (Site.land s.2.settings.traceKeepMin) site) := by
  induction cs with
  | nil => exact fun _ _ _ _ => ⟨_, rfl, fun pc site hs _ => hs⟩
  | cons c cs ih =>
    intro s ho hon hpair hready
    obtain ⟨hc, hcs⟩ := List.pairwise_cons.1 hpair
    obtain ⟨s₁, hs₁, hdel⟩ := (hready c List.mem_cons_self).deliver ho hon
    obtain ⟨t, ht, hshows⟩ := ih hdel.orderly hdel.onPages hcs fun c' hc' => hdel.ready c' (hc c' hc')
      (hready c' (List.mem_cons_of_mem c hc'))
    refine ⟨t, ?_, fun pc site hs hlive => ?_⟩
    · unfold deliverAll at ht ⊢
      rw [List.foldlM_cons, hs₁]
      exact ht
    · rw [hdel.settings] at hshows
      refine hshows pc _ (hdel.shows pc site hs (hlive c List.mem_cons_self)) fun c' hc' hn => ?_
      rcases land_live s.2.settings.traceKeepMin site (c.arrival aspace pc) with he | ⟨o, hown, he⟩
      · exact hlive c' (List.mem_cons_of_mem c hc') (he ▸ hn)
      · rw [he] at hn
        refine (hc c' hc').ticket ?_
        rw [Completion.arrival_owner hown]
        exact Option.some.inj hn

/-- Nothing of a compile that waits is there yet. -/
theorem before_of_ready {s : JitPageState × Dispatcher} {cs : List Completion} (ho : Orderly s.2)
    (hready : ∀ c ∈ cs, Ready aspace s c) (pc : U64) :
    Site.Before (Completion.arrivals cs aspace pc) (s.2.jit.site aspace pc) := by
  intro a ha o hown
  obtain ⟨c, hc, rfl⟩ := List.mem_map.1 ha
  have hdead := ho.numbered.apart _ (hready c hc).waits
  rw [Completion.arrival_owner hown] at hdead
  refine ⟨fun hl => hdead ?_, fun hs => hdead (ho.owns.code_alive rfl hs).2⟩
  exact (ho.owns.active (aspace, pageOf pc) hl).1

/-- A permutation of what completions bring is what a permutation of the completions brings. -/
theorem exists_arrivals {cs : List Completion} {pc : U64} {l : List Arrival} (h : (Completion.arrivals cs aspace pc).Perm l) :
    ∃ cs', cs.Perm cs' ∧ Completion.arrivals cs' aspace pc = l := by
  have hcomp : Relation.Comp (fun x y => x = List.map (fun c : Completion => c.arrival aspace pc) y)
    (fun x y => x.Perm y) l cs := by
    rw [List.eq_map_comp_perm]
    exact h.symm
  obtain ⟨cs', rfl, hp⟩ := hcomp
  exact ⟨cs', hp.symm, rfl⟩

theorem slotRun_of_run {settings : JitSettings} (h : Run (fun (_ : JitPageState) d a => d.Answers a) (Dispatcher.new settings) d) :
    ∃ count, SlotRun JitPageState (Dispatcher.new settings) d count := by
  induction h with
  | start => exact ⟨_, .start⟩
  | step _ hP hs ih =>
    obtain ⟨count, hc⟩ := ih
    exact ⟨_, hc.step hP.1 hs⟩

/-- A long trace of another address space, which is there first. -/
def longBlock : PendingBlock := { resetBlock with aspace := 1 }

/-- A short trace of the same pc. -/
def shortBlock : PendingBlock := { resetBlock with block := ⟨false, -1, 1, 0x80000000, 0⟩ }

/-- A region that enters at that pc. -/
def resetRegion : PendingRegion := ⟨0, 0x80000000, [(0x80000000, 0x80000000)], [0], [0x80000000]⟩

def countedOnce : Dispatcher := ((Dispatcher.new ⟨2, false⟩).jitSetThreshold 1).countPc 0x80000000

def longIssued : Dispatcher :=
    { countedOnce with nextJitTicket := 2, pendingJit := [⟨1, 0, .block longBlock⟩], jitIssuesThisRun := 1 }

/-- Both traces wait. -/
def bothIssued : Dispatcher := { longIssued with
  nextJitTicket := 3
  pendingJit := [⟨1, 0, .block longBlock⟩, ⟨2, 0, .block shortBlock⟩] }

/-- The long trace has landed in slot 7, and the short one waits with the region. -/
def regionIssued : Option (JitPageState × Dispatcher) := do
  let t ← bothIssued.completeJit resetPages 1 7 1
  let d ← (nextRun t.2).issueRegion resetRegion (0, 0, 0)
  some (t.1, d)

def shortDone : Completion := ⟨⟨2, 0, .block shortBlock⟩, 8, 1⟩

def regionDone : Completion := ⟨⟨3, 0, .region resetRegion⟩, 9, 1⟩

theorem regionIssued_reached : ∃ s, regionIssued = some s ∧ Run (fun (_ : JitPageState) d a => d.Answers a)
    (Dispatcher.new ⟨2, false⟩) s.2 := by
  obtain ⟨s, hs⟩ := Option.isSome_iff_exists.1 (show regionIssued.isSome by decide)
  refine ⟨s, hs, ?_⟩
  unfold regionIssued at hs
  obtain ⟨t, ht, hrest⟩ := Option.bind_eq_some_iff.1 hs
  obtain ⟨d, hd, hrest⟩ := Option.bind_eq_some_iff.1 hrest
  cases hrest
  have hfacts : (bothIssued.completeJit resetPages 1 7 1).all fun t => decide (t.2.jit.cache 0x80000010 = none ∧
      (nextRun t.2).jitThreshold ≤ ((nextRun t.2).jit.hot 0x80000010).getD 0 ∧ t.2.nextJitTicket.toNat + 1 < 2 ^ 64) := by decide
  rw [ht, Option.all_some, decide_eq_true_eq] at hfacts
  obtain ⟨hcold, hhot, hlast⟩ := hfacts
  have hthreshold : Run (fun (_ : JitPageState) d a => d.Answers a) (Dispatcher.new ⟨2, false⟩) _ :=
    Run.start.step (m := resetPages) (a := .threshold) ⟨trivial, by decide⟩ (.threshold 1)
  have hcount := hthreshold.step (m := resetPages) (a := .count 0x80000000) ⟨trivial, by decide⟩ (.count 0x80000000 rfl)
  have hlong : Run (fun (_ : JitPageState) d a => d.Answers a) (Dispatcher.new ⟨2, false⟩) longIssued :=
    hcount.step (m := resetPages) (a := .block) ⟨trivial, by decide⟩
      (.block (s := (1, longIssued)) (p := longBlock) ⟨rfl, by decide⟩ rfl)
  have hagain := hlong.step (m := resetPages) (a := .beginRun) ⟨trivial, by decide⟩ .beginRun
  have hshort : Run (fun (_ : JitPageState) d a => d.Answers a) (Dispatcher.new ⟨2, false⟩) bothIssued :=
    hagain.step (m := resetPages) (a := .block) ⟨trivial, by decide⟩
      (.block (s := (2, bothIssued)) (p := shortBlock) ⟨rfl, by decide⟩ rfl)
  have hland := hshort.step (m := resetPages) (a := .complete 1 7 1)
    ⟨⟨⟨by decide, by decide⟩, by decide, fun i _ => rfl⟩, by decide⟩ (.complete ht)
  have hrun := hland.step (m := resetPages) (a := .beginRun) ⟨trivial, hlast⟩ .beginRun
  have hcounted : Run (fun (_ : JitPageState) d a => d.Answers a) (Dispatcher.new ⟨2, false⟩) (nextRun t.2) :=
    hrun.step (m := resetPages) (a := .count 0x80000010) ⟨trivial, hlast⟩ (.count 0x80000010 hcold)
  exact hcounted.step (m := resetPages) (a := .build) ⟨trivial, hlast⟩
    (.build (show Tiered _ 0x80000010 from ⟨hcold, hhot⟩) (.issue resetRegion (0, 0, 0) (List.cons_ne_nil _ _) hd))

theorem ready_both {s : JitPageState × Dispatcher} (hs : regionIssued = some s) : ∀ c ∈ [shortDone, regionDone], Ready 0 s c := by
  have hwaits : regionIssued.map (fun s => s.2.pendingJit) = some [⟨2, 0, .block shortBlock⟩, ⟨3, 0, .region resetRegion⟩] := rfl
  have hlands : regionIssued.all fun s => [shortDone, regionDone].all fun c =>
      decide (s.2.outcome s.1 c.compile c.base c.slotCount = .landed) := by decide
  have hslots : regionIssued.all fun s => !s.2.jit.liveSlots 8 && !s.2.jit.liveSlots 9 := by decide
  rw [hs] at hwaits hlands hslots
  rw [Option.all_some, List.all_eq_true] at hlands
  rw [Option.all_some, Bool.and_eq_true, Bool.not_eq_true', Bool.not_eq_true'] at hslots
  have hqueue : s.2.pendingJit = _ := Option.some.inj hwaits
  intro c hc
  have hland := of_decide_eq_true (hlands c hc)
  rcases List.mem_cons.1 hc with rfl | hc
  · refine ⟨by rw [hqueue]; exact List.mem_cons_self, hland, rfl, fun b hb => (by cases hb), ⟨by decide, fun i hi => ?_⟩, by decide⟩
    obtain ⟨-, h1, h2, -⟩ := hi
    obtain rfl : i = 8 := by
      change (8 : ℤ) ≤ i at h1
      change i < 8 + 1 at h2
      omega
    exact hslots.1
  · obtain rfl := List.mem_singleton.1 hc
    refine ⟨by rw [hqueue]; exact List.mem_cons_of_mem _ List.mem_cons_self, hland, rfl, fun b hb => (by cases hb), ⟨by decide, fun i hi => ?_⟩,
      by decide⟩
    obtain ⟨-, h1, h2, -⟩ := hi
    obtain rfl : i = 9 := by
      change (9 : ℤ) ≤ i at h1
      change i < 9 + 1 at h2
      omega
    exact hslots.2

theorem both_apart : [shortDone, regionDone].Pairwise (Completion.Apart 0) := by
  refine List.pairwise_pair.2 ⟨by decide, fun i hi hi' => ?_, fun pc _ => ?_⟩
  · obtain ⟨-, -, h2, -⟩ := hi
    obtain ⟨-, h1, -, -⟩ := hi'
    change i < 8 + 1 at h2
    change (9 : ℤ) ≤ i at h1
    omega
  · unfold Completion.arrival PendingJit.arrival
    change (Arrival.isTrace ((if resetRegion.entries.contains pc then regionBlock 9 resetRegion pc else none).elim .elsewhere (.entry 3))) = false
    cases (if resetRegion.entries.contains pc then regionBlock 9 resetRegion pc else none) <;> rfl

end Dispatcher
end Lish
