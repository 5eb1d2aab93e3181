import Lish.Jit.ExactLandings
import Lish.Jit.SuperblockClaims
/-!
# ExactCompletions — every completion keeps the maps exact

Whatever the host answers, the slots of a module are owned or retired at once, and a replaced page module is retired with its code.
-/
namespace Lish

/-- What the host's answer can be: a signed word. -/
def InRange (base : ℤ) : Prop := -2 ^ 31 ≤ base ∧ base < 2 ^ 31

/-- The slots that an answer names. -/
def Names (base : ℤ) (slotCount : ℕ) (i : ℤ) : Prop := 0 ≤ i ∧ base ≤ i ∧ i < base + slotCount ∧ i < 2 ^ 31

instance (base : ℤ) (slotCount : ℕ) (i : ℤ) : Decidable (Names base slotCount i) :=
  inferInstanceAs (Decidable (0 ≤ i ∧ base ≤ i ∧ i < base + slotCount ∧ i < 2 ^ 31))

theorem wrapI32_of_lt {x : ℤ} (h0 : 0 ≤ x) (h : x < 2 ^ 31) : JitState.wrapI32 x = x := by
  unfold JitState.wrapI32
  rw [Int.bmod_def]
  omega

namespace Dispatcher

open OwnedCode JitState

variable {M : Type} [FullSystemJitMachine M] {fresh : Prop} {g : Gap} {d d' : Dispatcher} {j j' : JitState} {c c' : OwnedCode} {o : JitOwnerId}

/-- The named slots are not in use, and there are no more of them than the table has. -/
def FreshSlots (c : OwnedCode) (base : ℤ) (slotCount : ℕ) : Prop :=
  base + slotCount ≤ 2 ^ 31 ∧ ∀ i, Names base slotCount i → c.liveSlots i = false

/-! ## Slots that are not adopted -/

/-- The slots named by an answer are retired as soon as they are registered. -/
theorem dropSlots_eq (c : OwnedCode) (base : ℤ) (n : ℕ) : (List.range n).foldl (dropSlot base) c = { c with
    liveSlots := fun i => if Names base n i then false else c.liveSlots i
    retired := fun i => if Names base n i then c.retired i ++ [false] else c.retired i } := by
  induction n with
  | zero =>
    have hno : ∀ i, ¬Names base 0 i := fun i h => by
      obtain ⟨-, h1, h2, -⟩ := h
      omega
    simp only [List.range_zero, List.foldl_nil, hno, if_false]
  | succ n ih =>
    rw [List.range_succ, List.foldl_append, ih]
    change dropSlot base _ n = _
    unfold dropSlot
    dsimp only
    have hnames : ∀ i, Names base (n + 1) i ↔ Names base n i ∨ (i = base + n ∧ 0 ≤ i ∧ i < 2 ^ 31) := fun i => by
      unfold Names
      omega
    by_cases hlt : base + n < 2 ^ 31
    · rw [if_pos hlt]
      by_cases h0 : 0 ≤ base + n
      · rw [if_pos h0]
        unfold registerTableSlot
        rw [if_neg (not_lt.2 h0), retireTableSlot_eq h0]
        have hnew : ¬Names base n (base + n) := fun h => by
          obtain ⟨-, h1, h2, -⟩ := h
          omega
        congr 1
        · funext i
          dsimp only
          by_cases hi : i = base + n
          · rw [if_pos hi, if_pos ((hnames i).2 (.inr ⟨hi, hi ▸ h0, hi ▸ hlt⟩))]
          · rw [if_neg hi, if_neg hi]
            exact if_congr (by rw [hnames]; tauto) rfl rfl
        · funext i
          dsimp only
          by_cases hi : i = base + n
          · rw [if_pos ⟨hi, if_pos rfl⟩, if_pos ((hnames i).2 (.inr ⟨hi, hi ▸ h0, hi ▸ hlt⟩)), if_neg (hi ▸ hnew)]
          · rw [if_neg fun hn => hi hn.1]
            exact if_congr (by rw [hnames]; tauto) rfl rfl
      · rw [if_neg h0]
        congr 1
        · funext i
          exact if_congr (by rw [hnames]; exact ⟨.inl, fun h => h.elim id fun h => absurd (h.1 ▸ h.2.1) h0⟩) rfl rfl
        · funext i
          exact if_congr (by rw [hnames]; exact ⟨.inl, fun h => h.elim id fun h => absurd (h.1 ▸ h.2.1) h0⟩) rfl rfl
    · rw [if_neg hlt, if_neg (by decide)]
      congr 1
      · funext i
        exact if_congr (by rw [hnames]; exact ⟨.inl, fun h => h.elim id fun h => absurd (h.1 ▸ h.2.2) hlt⟩) rfl rfl
      · funext i
        exact if_congr (by rw [hnames]; exact ⟨.inl, fun h => h.elim id fun h => absurd (h.1 ▸ h.2.2) hlt⟩) rfl rfl

theorem dropSlots_exact {f : ℤ → ℕ} {base : ℤ} {n : ℕ} (h : Exact fresh f g j.toOwnedCode) (hf : fresh → FreshSlots j.toOwnedCode base n) :
    Exact fresh f g (dropSlots j base n).toOwnedCode := by
  unfold dropSlots
  dsimp only
  rw [dropSlots_eq]
  exact { h with
    live := fun hp i => by
      dsimp only
      split
      · rename_i hn
        rw [← h.live hp, (hf hp).2 i hn]
      · exact h.live hp i }

/-! ## What a completion does not touch -/

theorem finishSuperblock_code (ticket aspace : U64) (landed : Bool) (pages : List (U64 × U64)) (j : JitState) :
    (j.finishPendingSuperblock ticket aspace pages landed).toOwnedCode = j.toOwnedCode := by
  unfold finishPendingSuperblock
  induction pages generalizing j with
  | nil => rfl
  | cons p l ih =>
    rw [List.foldl_cons, ih]
    unfold finishPage
    dsimp only
    split
    · rfl
    · split <;> rfl

theorem releaseRegion_code (j : JitState) (p : PendingJit) : (releaseRegion j p).toOwnedCode = j.toOwnedCode := by
  unfold releaseRegion
  split
  · exact finishSuperblock_code _ _ _ _ j
  · rfl

theorem removePendingCoverage_code (j : JitState) (kind : PendingJitKind) : (j.removePendingCoverage kind).toOwnedCode = j.toOwnedCode := by
  cases kind with
  | block b => rfl
  | batch b => exact removeConfirmedCoverage_code b.members j
  | region r => rfl

theorem finishBatch_uses (j : JitState) (p : PendingJit) (finish : PageModuleFinish) : (finishBatch j p finish).uses = j.uses := by
  unfold finishBatch finishPendingPageModule recordPageModuleFailure
  repeat' split
  all_goals rfl

theorem finishBatch_exact (h : Exact fresh j.uses g j.toOwnedCode) (p : PendingJit) (finish : PageModuleFinish) (hf : ∀ o, finish ≠ .landed o) :
    Exact fresh (finishBatch j p finish).uses g (finishBatch j p finish).toOwnedCode := by
  rw [finishBatch_uses]
  unfold finishBatch
  split
  · exact Exact.finishPage h p.ticket _ hf
  · exact h

/-! ## Landing -/

theorem mem_slotsFrom {base : ℤ} {n : ℕ} {i : ℤ} : i ∈ slotsFrom base n ↔ ∃ k < n, wrapI32 (base + k) = i := by
  simp [slotsFrom]

/-- A state whose landing has just got its slots. -/
structure Landing (fresh : Prop) (o : JitOwnerId) (base : ℤ) (n : ℕ) (c : OwnedCode) : Prop where
  exact : Exact fresh c.uses { Gap.closed with landing := some o } c
  owned : ∀ k < n, 0 ≤ wrapI32 (base + k) → c.slotOwner (wrapI32 (base + k)) = some o
  unused : ∀ k < n, ∀ pc, c.slotAt pc ≠ some (wrapI32 (base + k))
  noExits : ∀ k < n, 0 ≤ wrapI32 (base + k) → c.regionExits (wrapI32 (base + k)) = none
  alive : c.Alive o
  noPage : c.pageModuleOwner o = none

/-- The first slot of a landing. -/
theorem Landing.first (h : Landing fresh o base n c) (hn : 0 < n) (h0 : 0 ≤ base) (hb : base < 2 ^ 31) :
    c.slotOwner base = some o ∧ (∀ pc, c.slotAt pc ≠ some base) ∧ c.regionExits base = none := by
  have hslot : wrapI32 (base + (0 : ℕ)) = base := by
    rw [Int.natCast_zero, Int.add_zero, wrapI32_of_lt h0 hb]
  have ho := h.owned 0 hn (by rw [hslot]; exact h0)
  have hu := h.unused 0 hn
  have hx := h.noExits 0 hn (by rw [hslot]; exact h0)
  rw [hslot] at ho hu hx
  exact ⟨ho, hu, hx⟩

/-- Where the new slots were. -/
theorem Landing.of_track {slots : List ℤ} {base : ℤ} {n : ℕ} (h : Exact fresh c.uses .closed c) (hs : slots = slotsFrom base n)
    (hr : c.trackOwner o slots = some c') : Landing fresh o base n c' ∧ Tracked c o (slots.filter (0 ≤ ·)) c' := by
  have ht := h.tracked hr
  have he := h.track rfl ht
  have hmem : ∀ k < n, 0 ≤ wrapI32 (base + k) → wrapI32 (base + k) ∈ slots.filter (0 ≤ ·) := fun k hk h0 =>
    List.mem_filter.2 ⟨hs ▸ mem_slotsFrom.2 ⟨k, hk, rfl⟩, decide_eq_true h0⟩
  refine ⟨⟨?_, fun k hk h0 => ?_, fun k hk pc hpc => ?_, fun k hk h0 => ?_, ht.alive.2 (.inl rfl), ?_⟩, ht⟩
  · rw [ht.uses]
    exact he
  · rw [ht.slotOwner, if_pos (hmem k hk h0)]
  · have h0 : 0 ≤ wrapI32 (base + k) := he.nonneg _ (he.owned pc _ hpc)
    rw [ht.slotAt] at hpc
    have := h.owned pc _ hpc
    rw [ht.unowned _ (hmem k hk h0)] at this
    cases this
  · rw [ht.exits]
    by_contra hn
    have := h.exits _ (Option.isSome_iff_ne_none.2 hn)
    rw [ht.unowned _ (hmem k hk h0)] at this
    cases this
  · rw [ht.moduleOwner]
    by_contra hn
    have := h.moduleSlots o (Option.isSome_iff_ne_none.2 hn)
    rw [ht.dead] at this
    cases this

/-- The compile that lands is the one its page waits for. -/
theorem current_of_landed {m : M} {p : PendingJit} {base : ℤ} {n : ℕ} (ho : d.outcome m p base n = .landed) :
    p.slotCount = n ∧ 0 ≤ base ∧ ∀ b key, p.kind = .batch b → b.pageModule = some key →
      ∃ source prior, d.jit.pageModules key = some (.pending source p.ticket prior) := by
  unfold outcome at ho
  split at ho
  · cases ho
  · rename_i hn
    split at ho
    · cases ho
    · rename_i hc
      split at ho
      · cases ho
      · split at ho
        · cases ho
        · rename_i hb
          refine ⟨of_not_not hn, not_lt.1 hb, fun b key hk hkey => ?_⟩
          have hcur : d.isCurrent p = true := by simpa using hc
          unfold isCurrent pageModulePendingIsCurrent at hcur
          rw [hk] at hcur
          dsimp only at hcur
          rw [hkey] at hcur
          dsimp only at hcur
          have := (Bool.and_eq_true_iff.1 hcur).2
          cases hs : d.jit.pageModules key with
          | none =>
            rw [hs] at this
            cases this
          | some s =>
            rw [hs] at this
            cases s with
            | attempted source => cases this
            | live code => cases this
            | pending source current prior => exact ⟨source, prior, by rw [of_decide_eq_true this]⟩

theorem retirePrior_exact {prior : Option JitOwnerId} (h : Exact fresh j.uses { Gap.closed with prior := prior, landing := some o } j.toOwnedCode)
    (hne : prior ≠ some o) (hr : retirePrior j prior o = some j') :
    Exact fresh j'.uses { Gap.closed with landing := some o } j'.toOwnedCode ∧ OwnersGo j.toOwnedCode j'.toOwnedCode ∧
      (∀ q, prior = some q → ¬j'.Alive q) ∧ ∀ pc, j.ownerAt pc = some o → j'.cache pc = j.cache pc := by
  unfold retirePrior at hr
  cases prior with
  | none =>
    cases hr
    exact ⟨h, h.ownersGo_refl, fun q hq => (nomatch hq), fun _ _ => rfl⟩
  | some q =>
    dsimp only at hr
    rw [if_neg fun he => hne (congrArg some he)] at hr
    obtain ⟨c, hc, hr⟩ := Option.map_eq_some_iff.1 hr
    obtain ⟨hd, hdead, hkeep⟩ := h.retireOwner rfl rfl hc
    have hgone := Exact.priorGone hd.exact fun q' hq' => Option.some.inj hq' ▸ hdead
    cases hr
    refine ⟨hgone, hd.owners, fun q' hq' => Option.some.inj hq' ▸ hdead, fun pc hpc => hkeep pc fun hn => hne ?_⟩
    rw [← hn, hpc]

/-- The members of a batch and the slots they land in. -/
structure Fits (fresh : Prop) (base : ℤ) (n : ℕ) (batch : PendingBatch) : Prop where
  count : n = if batch.pageModule.isSome then 1 else batch.members.length
  nonneg : 0 ≤ base
  lt : base < 2 ^ 31
  room : fresh → base + n ≤ 2 ^ 31
  ofPage : ∀ key, batch.pageModule = some key → batch.OfPage key

/-- The slot of a member is one of the module's. -/
theorem Fits.memberSlot {base : ℤ} {n : ℕ} {batch : PendingBatch} (h : Fits fresh base n batch) {a : ℕ} (ha : a < batch.members.length) :
    ∃ k < n, memberSlot batch.pageModule.isSome base a = wrapI32 (base + k) := by
  have hn := h.count
  cases hpm : batch.pageModule.isSome with
  | true =>
    rw [hpm, if_pos rfl] at hn
    refine ⟨0, by omega, ?_⟩
    change base = wrapI32 (base + 0)
    rw [Int.add_zero, wrapI32_of_lt h.nonneg h.lt]
  | false =>
    rw [hpm, if_neg Bool.false_ne_true] at hn
    exact ⟨a, hn ▸ ha, rfl⟩

/-- **The members of a tracked batch land.** -/
theorem Fits.lands {s : JitSettings} {base : ℤ} {n : ℕ} {batch : PendingBatch} (hf : Fits fresh base n batch) (hg : Gap.Landing g)
    (h : Exact fresh j.uses g j.toOwnedCode) (hu : ∀ k < n, ∀ pc, j.slotAt pc ≠ some (wrapI32 (base + k)))
    (hx : ∀ k < n, 0 ≤ wrapI32 (base + k) → j.regionExits (wrapI32 (base + k)) = none) (hr : j.completeBatchLanding s base batch = some j') :
    Lands fresh g j.toOwnedCode j'.toOwnedCode ∧ (batch.pageModule.isSome → ∃ pc, j'.slotAt pc = some base) := by
  have hroom : batch.pageModule.isSome = false → fresh → base + batch.members.length ≤ 2 ^ 31 := fun hpm hp => by
    have := hf.room hp
    rwa [hf.count, hpm, if_neg Bool.false_ne_true] at this
  have hslot : batch.pageModule.isSome = false → fresh → ∀ a < batch.members.length, JitState.memberSlot batch.pageModule.isSome base a = base + a := by
    intro hpm hp a ha
    rw [hpm]
    have := hroom hpm hp
    exact wrapI32_of_lt (by have := hf.nonneg; omega) (by omega)
  obtain ⟨hl, hlast⟩ := Exact.landMembers hg batch.members 0 h (fun hpm p hp => by
      obtain ⟨key, hkey⟩ := Option.isSome_iff_exists.1 hpm
      obtain ⟨-, -, pa, hpages⟩ := (hf.ofPage key hkey).2 p hp
      rw [hpages]
      exact le_rfl)
    (fun hp a _ ha => by
      rw [Nat.zero_add] at ha
      cases hpm : batch.pageModule.isSome with
      | true => exact hf.nonneg
      | false =>
        have := hslot hpm hp a ha
        rw [hpm] at this
        rw [this]
        have := hf.nonneg
        omega)
    (fun hpm hp a b hab hb => by
      rw [hslot hpm hp a (by omega), hslot hpm hp b (by omega)]
      omega)
    (fun _ _ a _ ha pc => by
      obtain ⟨k, hk, he⟩ := hf.memberSlot (by omega : a < batch.members.length)
      rw [he]
      exact hu k hk pc)
    (fun a _ ha h0 => by
      obtain ⟨k, hk, he⟩ := hf.memberSlot (by omega : a < batch.members.length)
      rw [he] at h0 ⊢
      exact hx k hk h0) hr
  refine ⟨hl, fun hpm => hlast hpm hf.nonneg ?_⟩
  obtain ⟨key, hkey⟩ := Option.isSome_iff_exists.1 hpm
  exact (hf.ofPage key hkey).1

/-- The page of a module that has just landed. -/
def pageTaken (c : OwnedCode) (key : PageKey) (source : PageModuleSource) (o : JitOwnerId) (entries : List U64) : OwnedCode := { c with
  pageModules := c.pageModules.insert key (.live ⟨source, o, entries⟩)
  pageModuleOwner := c.pageModuleOwner.insert o key }

theorem Landing.pageTaken {base : ℤ} {n : ℕ} {key : PageKey} {source : PageModuleSource} {prior : Option LivePageModule}
    (h : Landing fresh o base n c) (hk : c.pageModules key = some (.pending source o prior)) (entries : List U64) :
    Exact fresh (Dispatcher.pageTaken c key source o entries).uses { Gap.closed with prior := prior.map LivePageModule.owner, landing := some o }
      (Dispatcher.pageTaken c key source o entries) :=
  Exact.landPage h.exact rfl hk h.alive h.noPage entries

/-- What a landing leaves: the gap of its slots. -/
structure Landed (fresh : Prop) (o : JitOwnerId) (d d' : Dispatcher) : Prop where
  exact : Exact fresh d'.jit.uses { Gap.closed with landing := some o } d'.jit.toOwnedCode
  owners : OwnersGo d.jit.toOwnedCode d'.jit.toOwnedCode

/-- A landed page module: it has its page, in use, and its predecessor has gone. -/
structure PageLanded (fresh : Prop) (o : JitOwnerId) (base : ℤ) (d d' : Dispatcher) (batch : PendingBatch) (key : PageKey)
    (source : PageModuleSource) (prior : Option LivePageModule) : Prop where
  exact : Exact fresh d'.jit.uses { Gap.closed with landing := some o } d'.jit.toOwnedCode
  owners : OwnersGo (pageTaken d.jit.toOwnedCode key source o (sortDedup (batch.members.map PendingBlock.pc))) d'.jit.toOwnedCode
  gone : ∀ code, prior = some code → ¬d'.jit.Alive code.owner
  inUse : ∃ pc, d'.jit.slotAt pc = some base

theorem publishBase_code (d : Dispatcher) (base : ℤ) (batch : PendingBatch) : (publishBase d base batch).jit = d.jit := (publishBase_jit d base batch).1

/-- **A batch of traces lands.** -/
theorem Landing.batch {base : ℤ} {n : ℕ} {batch : PendingBatch} (h : Landing fresh o base n d.jit.toOwnedCode) (hf : Fits fresh base n batch)
    (hp : batch.pageModule = none) (hr : d.landBatch o base batch = some d') : Landed fresh o d d' := by
  unfold landBatch finishPendingPageModule at hr
  rw [hp] at hr
  obtain ⟨j1, h1, hr⟩ := Option.bind_eq_some_iff.1 hr
  obtain ⟨j2, h2, hr⟩ := Option.bind_eq_some_iff.1 hr
  cases h2
  obtain ⟨hl, -⟩ := hf.lands ⟨rfl, rfl, rfl⟩ h.exact h.unused h.noExits h1
  rw [← Option.some.inj hr]
  refine ⟨?_, ?_⟩ <;> rw [publishBase_code]
  · exact hl.exact
  · exact hl.owners

/-- **A page module lands.** -/
theorem Landing.page {base : ℤ} {n : ℕ} {batch : PendingBatch} {key : PageKey} {source : PageModuleSource} {prior : Option LivePageModule}
    (h : Landing fresh o base n d.jit.toOwnedCode) (hf : Fits fresh base n batch) (hp : batch.pageModule = some key)
    (hk : d.jit.pageModules key = some (.pending source o prior)) (hne : prior.map LivePageModule.owner ≠ some o)
    (hr : d.landBatch o base batch = some d') : PageLanded fresh o base d d' batch key source prior := by
  unfold landBatch finishPendingPageModule at hr
  rw [hp] at hr
  dsimp only at hr
  rw [hk] at hr
  dsimp only at hr
  rw [if_neg fun hn => hn rfl] at hr
  obtain ⟨j1, h1, hr⟩ := Option.bind_eq_some_iff.1 hr
  obtain ⟨j2, h2, hr⟩ := Option.bind_eq_some_iff.1 hr
  have htaken := h.pageTaken hk (sortDedup (batch.members.map PendingBlock.pc))
  obtain ⟨j0, hj0⟩ : ∃ j0 : JitState, j0 =
      { d.jit with toOwnedCode := Dispatcher.pageTaken d.jit.toOwnedCode key source o (sortDedup (batch.members.map PendingBlock.pc)) } := ⟨_, rfl⟩
  have h1 : j0.completeBatchLanding d.settings base batch = some j1 := by
    rw [hj0]
    exact h1
  obtain ⟨hl, hlast⟩ := hf.lands (j := j0) (g := { Gap.closed with prior := prior.map LivePageModule.owner, landing := some o }) ⟨rfl, rfl, rfl⟩
    (by rw [hj0]; exact htaken) (by rw [hj0]; exact h.unused) (by rw [hj0]; exact h.noExits) h1
  obtain ⟨hexact, howners, hgone, hkeep⟩ := retirePrior_exact hl.exact hne h2
  obtain ⟨pc, hpc⟩ := hlast (by rw [hp]; rfl)
  -- the entry that uses the slot is the module's own
  have hbase : wrapI32 (base + (0 : ℕ)) = base := by
    rw [Int.natCast_zero, Int.add_zero, wrapI32_of_lt hf.nonneg hf.lt]
  have howner : j1.slotOwner base = some o := by
    obtain ⟨q, hq⟩ := Option.isSome_iff_exists.1 (hl.exact.owned pc base hpc)
    have hq0 := hl.owners.owner base q hq
    have hn : 0 < n := by
      rw [hf.count, hp]
      exact Nat.one_pos
    have := h.owned 0 hn (by rw [hbase]; exact hf.nonneg)
    rw [hbase] at this
    rw [hj0] at hq0
    rw [hq, ← this]
    exact hq0.symm
  have hcache := hkeep pc (ownerAt_eq_some.2 ⟨base, hpc, howner⟩)
  rw [← Option.some.inj hr]
  refine ⟨?_, ?_, fun code hcode => ?_, pc, ?_⟩ <;> rw [publishBase_code]
  · exact hexact
  · rw [hj0] at hl
    exact hl.owners.trans howners
  · exact hgone code.owner (by rw [hcode]; rfl)
  · unfold OwnedCode.slotAt at hpc ⊢
    rw [← hpc]
    exact congrArg (fun e => Option.bind e entrySlot) hcache

/-! ## Completions -/

/-- The slots an answer hands over are registered, unless the compile ended without any. -/
def adopts (d : Dispatcher) (m : M) (ticket : U64) (base : ℤ) (slotCount : ℕ) : Bool :=
  match d.findPending ticket with
  | none => true
  | some (pos, p) => decide ((d.take pos p).outcome m p base slotCount ≠ .capacity ∧ (d.take pos p).outcome m p base slotCount ≠ .failed)

theorem mem_slots_iff {base : ℤ} {n : ℕ} (h0 : 0 ≤ base) (hr : base + n ≤ 2 ^ 31) (i : ℤ) :
    i ∈ (slotsFrom base n).filter (0 ≤ ·) ↔ Names base n i := by
  rw [List.mem_filter, decide_eq_true_eq, mem_slotsFrom]
  unfold Names
  constructor
  · rintro ⟨⟨k, hk, he⟩, hi⟩
    rw [wrapI32_of_lt (by omega) (by omega)] at he
    omega
  · rintro ⟨h1, h2, h3, h4⟩
    refine ⟨⟨(i - base).toNat, by omega, ?_⟩, h1⟩
    rw [show base + ((i - base).toNat : ℤ) = i by omega, wrapI32_of_lt h1 h4]

/-- A new owner's slots come into use. -/
theorem Tracked.tally {base : ℤ} {n : ℕ} (ht : Tracked c o ((slotsFrom base n).filter (0 ≤ ·)) c') (h0 : 0 ≤ base) (hf : FreshSlots c base n) (i : ℤ) :
    c'.tally i = c.tally i + if Names base n i then 1 else 0 := by
  unfold OwnedCode.tally
  rw [ht.retired, ht.live, if_congr (mem_slots_iff h0 hf.1 i) rfl rfl]
  split
  · rename_i hn
    rw [hf.2 i hn]
    rfl
  · rfl

theorem dropSlots_tally {base : ℤ} {n : ℕ} (hf : FreshSlots j.toOwnedCode base n) (i : ℤ) :
    (dropSlots j base n).tally i = j.tally i + if Names base n i then 1 else 0 := by
  unfold dropSlots OwnedCode.tally
  rw [dropSlots_eq]
  dsimp only
  split
  · rename_i hn
    rw [hf.2 i hn, List.length_append]
    rfl
  · rfl

theorem finishBatch_tally (j : JitState) (p : PendingJit) (finish : PageModuleFinish) (i : ℤ) : (finishBatch j p finish).tally i = j.tally i := by
  unfold finishBatch finishPendingPageModule recordPageModuleFailure
  repeat' split
  all_goals rfl

theorem finishBatch_live (j : JitState) (p : PendingJit) (finish : PageModuleFinish) : (finishBatch j p finish).liveSlots = j.liveSlots := by
  unfold finishBatch finishPendingPageModule recordPageModuleFailure
  repeat' split
  all_goals rfl

/-- What a completion leaves: exact maps, and each slot it named once more in use or retired. -/
structure Settled (fresh : Prop) (base : ℤ) (n : ℕ) (adopted : Bool) (c c' : OwnedCode) : Prop where
  exact : Exact fresh c'.uses .closed c'
  tally : FreshSlots c base n → ∀ i, c'.tally i = c.tally i + if adopted ∧ Names base n i then 1 else 0

theorem dropped_settled {base : ℤ} {n : ℕ} (h : Exact fresh j.uses .closed j.toOwnedCode) (hf : fresh → FreshSlots j.toOwnedCode base n) :
    Settled fresh base n true j.toOwnedCode (dropSlots j base n).toOwnedCode := by
  refine ⟨?_, fun hf i => by rw [dropSlots_tally hf]; simp⟩
  have : (dropSlots j base n).uses = j.uses := by
    unfold dropSlots
    rw [dropSlots_eq]
    rfl
  rw [this]
  exact dropSlots_exact h hf

/-- The claims and the page state that a compile gives up are no part of its slots. -/
theorem Settled.of_same {base : ℤ} {n : ℕ} {b : Bool} {c₀ : OwnedCode} (h : Settled fresh base n b c c') (hl : c.liveSlots = c₀.liveSlots)
    (ht : ∀ i, c.tally i = c₀.tally i) : Settled fresh base n b c₀ c' := by
  refine ⟨h.exact, fun hf i => ?_⟩
  rw [← ht]
  exact h.tally ⟨hf.1, fun i hi => hl ▸ hf.2 i hi⟩ i

theorem released_exact (h : Exact fresh j.uses g j.toOwnedCode) (p : PendingJit) (finish : PageModuleFinish) (hf : ∀ o, finish ≠ .landed o) :
    Exact fresh (finishBatch (releaseRegion j p) p finish).uses g (finishBatch (releaseRegion j p) p finish).toOwnedCode :=
  finishBatch_exact (by rw [releaseRegion_code]; exact h) p finish hf

theorem released_live (j : JitState) (p : PendingJit) (finish : PageModuleFinish) :
    (finishBatch (releaseRegion j p) p finish).liveSlots = j.liveSlots ∧ ∀ i, (finishBatch (releaseRegion j p) p finish).tally i = j.tally i := by
  rw [finishBatch_live, releaseRegion_code]
  exact ⟨rfl, fun i => by rw [finishBatch_tally, releaseRegion_code]⟩

theorem nonneg_of_stale {m : M} {p : PendingJit} {base : ℤ} {n : ℕ} (ho : d.outcome m p base n = .stale) : 0 ≤ base := by
  unfold outcome at ho
  by_contra hb
  repeat' split at ho
  all_goals first | exact absurd (not_le.1 hb) (by assumption) | cases ho

/-- A region that is tracked and lands. -/
theorem land_region {m m' : M} {p : PendingJit} {base : ℤ} {n : ℕ} {region : PendingRegion} (h : Landing fresh p.ticket base n c)
    (hb : base < 2 ^ 31) (ho : d.outcome m p base n = .landed) (hk : p.kind = .region region)
    (hr : land { d with jit := { d.jit with toOwnedCode := c } } m p base = some (m', d')) :
    Exact fresh d'.jit.uses { Gap.closed with landing := some p.ticket } d'.jit.toOwnedCode ∧ OwnersGo c d'.jit.toOwnedCode := by
  obtain ⟨hn, h0, -⟩ := current_of_landed ho
  have hslot : wrapI32 (base + (0 : ℕ)) = base := by
    rw [Int.natCast_zero, Int.add_zero, wrapI32_of_lt h0 hb]
  have hone : n = 1 := by
    rw [← hn]
    unfold PendingJit.slotCount
    rw [hk]
  unfold land at hr
  rw [hk] at hr
  obtain ⟨j, hj, hr⟩ := Option.map_eq_some_iff.1 hr
  cases hr
  have hcode := finishSuperblock_code p.ticket region.aspace true region.pages { d.jit with toOwnedCode := c }
  have hl := h.owned 0 (by omega) (by rw [hslot]; exact h0)
  rw [hslot] at hl
  have hres := Exact.completeRegionLanding (by rw [hcode]; exact h.exact) ⟨rfl, rfl, rfl⟩ (by rw [hcode]; exact Option.isSome_iff_exists.2 ⟨_, hl⟩)
    (by
      rw [hcode]
      have := h.unused 0 (by omega)
      rw [hslot] at this
      exact this) hj
  have howners := hres.2
  rw [hcode] at howners
  exact ⟨hres.1, howners⟩

/-- A trace that is tracked and lands. -/
theorem land_block {m m' : M} {p : PendingJit} {base : ℤ} {n : ℕ} {block : PendingBlock} (h : Landing fresh p.ticket base n c)
    (hb : base < 2 ^ 31) (ho : d.outcome m p base n = .landed) (hk : p.kind = .block block)
    (hr : land { d with jit := { d.jit with toOwnedCode := c } } m p base = some (m', d')) :
    Exact fresh d'.jit.uses { Gap.closed with landing := some p.ticket } d'.jit.toOwnedCode ∧ OwnersGo c d'.jit.toOwnedCode := by
  obtain ⟨hn, h0, -⟩ := current_of_landed ho
  have hslot : wrapI32 (base + (0 : ℕ)) = base := by
    rw [Int.natCast_zero, Int.add_zero, wrapI32_of_lt h0 hb]
  have hone : n = 1 := by
    rw [← hn]
    unfold PendingJit.slotCount
    rw [hk]
  unfold land at hr
  rw [hk] at hr
  obtain ⟨⟨m1, j⟩, hj, hr⟩ := Option.map_eq_some_iff.1 hr
  cases hr
  have hu := h.unused 0 (by omega)
  have hx := h.noExits 0 (by omega)
  rw [hslot] at hu hx
  have hres := Exact.completeBlockLanding (j := { d.jit with toOwnedCode := c }) h.exact ⟨rfl, rfl, rfl⟩ (fun _ => h0) (fun _ => hu) hx hj
  exact ⟨hres.exact, hres.owners⟩

theorem fits_of_landed {m : M} {p : PendingJit} {base : ℤ} {n : ℕ} {batch : PendingBatch} (hp : p.Proper) (hb : base < 2 ^ 31)
    (hf : fresh → base + n ≤ 2 ^ 31) (ho : d.outcome m p base n = .landed) (hk : p.kind = .batch batch) : Fits fresh base n batch := by
  obtain ⟨hn, h0, -⟩ := current_of_landed ho
  refine ⟨?_, h0, hb, hf, fun key hkey => hp batch key hk hkey⟩
  rw [← hn]
  unfold PendingJit.slotCount
  rw [hk]

/-- A batch of traces that is tracked and lands. -/
theorem land_members {m m' : M} {p : PendingJit} {base : ℤ} {n : ℕ} {batch : PendingBatch} (h : Landing fresh p.ticket base n c) (hp : p.Proper)
    (hb : base < 2 ^ 31) (hf : fresh → base + n ≤ 2 ^ 31) (ho : d.outcome m p base n = .landed) (hk : p.kind = .batch batch)
    (hpm : batch.pageModule = none) (hr : land { d with jit := { d.jit with toOwnedCode := c } } m p base = some (m', d')) :
    Exact fresh d'.jit.uses { Gap.closed with landing := some p.ticket } d'.jit.toOwnedCode ∧ OwnersGo c d'.jit.toOwnedCode := by
  unfold land at hr
  rw [hk] at hr
  obtain ⟨d1, hd1, hr⟩ := Option.map_eq_some_iff.1 hr
  cases hr
  have hres := Landing.batch (d := { d with jit := { d.jit with toOwnedCode := c } }) h (fits_of_landed hp hb hf ho hk) hpm hd1
  exact ⟨hres.exact, hres.owners⟩

/-- A page module that is tracked and lands. -/
theorem land_page {m m' : M} {p : PendingJit} {base : ℤ} {n : ℕ} {batch : PendingBatch} {key : PageKey} (h : Landing fresh p.ticket base n c)
    (hd : Exact fresh d.jit.uses .closed d.jit.toOwnedCode) (ht : Tracked d.jit.toOwnedCode p.ticket ((slotsFrom base n).filter (0 ≤ ·)) c)
    (hp : p.Proper) (hb : base < 2 ^ 31) (hf : fresh → base + n ≤ 2 ^ 31) (ho : d.outcome m p base n = .landed) (hk : p.kind = .batch batch)
    (hpm : batch.pageModule = some key) (hr : land { d with jit := { d.jit with toOwnedCode := c } } m p base = some (m', d')) :
    ∃ source prior, d.jit.pageModules key = some (.pending source p.ticket prior) ∧
      PageLanded fresh p.ticket base { d with jit := { d.jit with toOwnedCode := c } } d' batch key source prior := by
  obtain ⟨-, -, hcur⟩ := current_of_landed ho
  obtain ⟨source, prior, hkey⟩ := hcur batch key hk hpm
  unfold land at hr
  rw [hk] at hr
  obtain ⟨d1, hd1, hr⟩ := Option.map_eq_some_iff.1 hr
  cases hr
  -- the ticket is no owner yet
  have hne : prior.map LivePageModule.owner ≠ some p.ticket := by
    intro he
    have := (hd.active key (o := p.ticket) (by rw [hkey]; exact he)).1
    unfold Alive at this
    rw [ht.dead] at this
    cases this
  refine ⟨source, prior, hkey, Landing.page (d := { d with jit := { d.jit with toOwnedCode := c } }) h (fits_of_landed hp hb hf ho hk) hpm ?_ hne hd1⟩
  change c.pageModules key = _
  rw [ht.modules, hkey]

/-- A compile that is tracked and lands. -/
theorem land_exact {m m' : M} {p : PendingJit} {base : ℤ} {n : ℕ} (h : Landing fresh p.ticket base n c) (hd : Exact fresh d.jit.uses .closed d.jit.toOwnedCode)
    (ht : Tracked d.jit.toOwnedCode p.ticket ((slotsFrom base n).filter (0 ≤ ·)) c) (hp : p.Proper) (hb : base < 2 ^ 31)
    (hf : fresh → base + n ≤ 2 ^ 31) (ho : d.outcome m p base n = .landed)
    (hr : land { d with jit := { d.jit with toOwnedCode := c } } m p base = some (m', d')) :
    Exact fresh d'.jit.uses { Gap.closed with landing := some p.ticket } d'.jit.toOwnedCode ∧ ∀ i, d'.jit.tally i = c.tally i := by
  cases hk : p.kind with
  | region region => exact (land_region h hb ho hk hr).imp_right OwnersGo.tally
  | block block => exact (land_block h hb ho hk hr).imp_right OwnersGo.tally
  | batch batch =>
    cases hpm : batch.pageModule with
    | none => exact (land_members h hp hb hf ho hk hpm hr).imp_right OwnersGo.tally
    | some key =>
      obtain ⟨source, prior, -, hres⟩ := land_page h hd ht hp hb hf ho hk hpm hr
      exact ⟨hres.exact, hres.owners.tally⟩

/-- The slots of a landing that no entry took are retired. -/
theorem retireUnreferenced_exact (h : Exact fresh j.uses { Gap.closed with landing := some o } j.toOwnedCode) :
    Drops fresh .closed j.toOwnedCode (retireUnreferenced j o).toOwnedCode := Exact.landed h rfl

/-- **Every end of a compile** leaves the maps exact. -/
theorem settle_exact {m m' : M} {p : PendingJit} {base : ℤ} {n : ℕ} (h : Exact fresh d.jit.uses .closed d.jit.toOwnedCode) (hp : p.Proper)
    (hb : InRange base) (hf : fresh → FreshSlots d.jit.toOwnedCode base n) (hr : d.settle m p base n = some (m', d')) :
    Settled fresh base n (decide (d.outcome m p base n ≠ .capacity ∧ d.outcome m p base n ≠ .failed)) d.jit.toOwnedCode d'.jit.toOwnedCode := by
  unfold settle at hr
  cases ho : d.outcome m p base n <;> rw [ho] at hr
  case wrongSlotCount =>
    cases hr
    exact (dropped_settled (finishBatch_exact h p .failed fun o hn => nomatch hn) (fun hp => ⟨(hf hp).1, by rw [finishBatch_live]; exact (hf hp).2⟩)).of_same (finishBatch_live _ _ _) (finishBatch_tally _ _ _)
  case superseded =>
    cases hr
    obtain ⟨hl, ht⟩ := released_live d.jit p .cancelled
    exact (dropped_settled (released_exact h p .cancelled fun o hn => nomatch hn) (fun hp => ⟨(hf hp).1, by rw [hl]; exact (hf hp).2⟩)).of_same hl ht
  case capacity =>
    obtain ⟨d1, hd1, hr⟩ := Option.map_eq_some_iff.1 hr
    cases hr
    obtain ⟨c, hc, hd1⟩ := Option.map_eq_some_iff.1 hd1
    cases hd1
    have hd := (released_exact h p .cancelled fun o hn => nomatch hn).evictColdOwner rfl rfl hc
    refine ⟨hd.exact, fun _ i => ?_⟩
    rw [show decide (Outcome.capacity ≠ .capacity ∧ Outcome.capacity ≠ .failed) = false from rfl]
    simp only [Bool.false_eq_true, false_and, if_false, Nat.add_zero]
    exact (hd.owners.tally i).trans ((released_live d.jit p .cancelled).2 i)
  case failed =>
    cases hr
    refine ⟨released_exact h p .failed (fun o hn => nomatch hn), fun _ i => ?_⟩
    rw [show decide (Outcome.failed ≠ .capacity ∧ Outcome.failed ≠ .failed) = false from rfl]
    simp only [Bool.false_eq_true, false_and, if_false, Nat.add_zero]
    exact (released_live d.jit p .failed).2 i
  case stale =>
    obtain ⟨c, hc, hr⟩ := Option.bind_eq_some_iff.1 hr
    cases hr
    obtain ⟨hland, ht⟩ := Landing.of_track h rfl hc
    have hrel := released_exact (j := { d.jit with toOwnedCode := c }) hland.exact p .cancelled fun o hn => nomatch hn
    have hd := retireUnreferenced_exact hrel
    refine ⟨hd.exact, fun hf i => ?_⟩
    have htally := (released_live { d.jit with toOwnedCode := c } p .cancelled).2 i
    rw [hd.owners.tally i, htally, Tracked.tally ht (nonneg_of_stale ho) hf]
    simp
  case landed =>
    obtain ⟨c, hc, hr⟩ := Option.bind_eq_some_iff.1 hr
    obtain ⟨⟨m1, d1⟩, hl, hr⟩ := Option.bind_eq_some_iff.1 hr
    cases hr
    obtain ⟨hland, ht⟩ := Landing.of_track h rfl hc
    obtain ⟨-, h0, -⟩ := current_of_landed ho
    obtain ⟨he, htally⟩ := land_exact hland h ht hp hb.2 (fun hp => (hf hp).1) ho hl
    have hd := retireUnreferenced_exact he
    refine ⟨hd.exact, fun hf i => ?_⟩
    rw [hd.owners.tally i, htally, Tracked.tally ht h0 hf]
    simp

/-- **Every completion** leaves the maps exact. -/
theorem completeJit_exact {m m' : M} {ticket : U64} {base : ℤ} {n : ℕ} (h : Exact fresh d.jit.uses .closed d.jit.toOwnedCode)
    (hp : ∀ p ∈ d.pendingJit, p.Proper) (hb : InRange base) (hf : fresh → FreshSlots d.jit.toOwnedCode base n)
    (hr : d.completeJit m ticket base n = some (m', d')) : Settled fresh base n (d.adopts m ticket base n) d.jit.toOwnedCode d'.jit.toOwnedCode := by
  unfold completeJit at hr
  unfold adopts
  cases hfind : d.findPending ticket with
  | none =>
    rw [hfind] at hr
    cases hr
    exact dropped_settled h hf
  | some s =>
    obtain ⟨pos, p⟩ := s
    rw [hfind] at hr
    have hcode : (d.take pos p).jit.toOwnedCode = d.jit.toOwnedCode := removePendingCoverage_code d.jit p.kind
    have hmem := hp p ((findPending_some hfind).2.subset List.mem_cons_self)
    have := settle_exact (d := d.take pos p) (by rw [hcode]; exact h) hmem hb (by rw [hcode]; exact hf) hr
    rw [hcode] at this
    exact this

end Dispatcher
end Lish
