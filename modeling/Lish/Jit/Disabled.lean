import Lish.Jit.DispatcherSteps
import Lish.Jit.SuperblockClaims
/-!
# Disabled — what runs after the JIT is switched off

Switching the JIT off forgets all compiled code, but not the compiles in flight.  Region and page-module builds lost their
claims and cannot land; individual blocks and batches have none to lose.
-/
namespace Lish

namespace OwnedCode

variable {c c' c'' : OwnedCode} {pc : U64} {idx : ℤ} {owner : JitOwnerId} {b : Bool}

/-! ## Operations that add no code -/

/-- No compiled code comes, no line is filled, no counter rises, and what is empty stays empty. -/
structure Shrinks (c c' : OwnedCode) : Prop where
  cache : ∀ pc block, (c'.cache pc).join = some block → ∃ block', (c.cache pc).join = some block' ∧ block'.idx = block.idx
  lines : ∀ s, c'.dispatch s = c.dispatch s ∨ (c'.dispatch s).pc = NO_PC
  hot : ∀ pc, (c'.hot pc).getD 0 ≤ (c.hot pc).getD 0
  owners : (∀ o, c.pageModuleOwner o = none) → ∀ o, c'.pageModuleOwner o = none
  modules : (∀ k, c.pageModules k = none) → ∀ k, c'.pageModules k = none
  exits : (∀ i, c.regionExits i = none) → ∀ i, c'.regionExits i = none
  queue : c.extQueue = [] → c'.extQueue = []

namespace Shrinks

theorem refl (c : OwnedCode) : Shrinks c c :=
  ⟨fun _ block h => ⟨block, h, rfl⟩, fun _ => Or.inl rfl, fun _ => le_rfl, id, id, id, id⟩

theorem trans (h : Shrinks c c') (h' : Shrinks c' c'') : Shrinks c c'' where
  cache pc block hb := by
    obtain ⟨b1, h1, i1⟩ := h'.cache pc block hb
    obtain ⟨b2, h2, i2⟩ := h.cache pc b1 h1
    exact ⟨b2, h2, i2.trans i1⟩
  lines s := by
    rcases h'.lines s with h1 | h1
    · exact (h.lines s).imp h1.trans fun h2 => by rw [h1, h2]
    · exact Or.inr h1
  hot pc := (h'.hot pc).trans (h.hot pc)
  owners hn := h'.owners (h.owners hn)
  modules hn := h'.modules (h.modules hn)
  exits hn := h'.exits (h.exits hn)
  queue hn := h'.queue (h.queue hn)

/-- A fold of steps that add no code adds none. -/
theorem foldl {α : Type} {f : OwnedCode → α → OwnedCode} (hf : ∀ c a, Shrinks c (f c a)) (l : List α) (c : OwnedCode) :
    Shrinks c (l.foldl f c) := by
  induction l generalizing c with
  | nil => exact refl c
  | cons a l ih => exact (hf c a).trans (ih _)

theorem foldlM {α : Type} {f : OwnedCode → α → Option OwnedCode} (hf : ∀ c a c', f c a = some c' → Shrinks c c') (l : List α) :
    ∀ {c c' : OwnedCode}, l.foldlM f c = some c' → Shrinks c c' := by
  induction l with
  | nil => exact fun h => Option.some.inj h ▸ refl _
  | cons a l ih =>
    intro c c' h
    rw [List.foldlM_cons] at h
    obtain ⟨c1, h1, h2⟩ := Option.bind_eq_some_iff.1 h
    exact (hf c a c1 h1).trans (ih h2)

end Shrinks

theorem registerTableSlot_shrinks (c : OwnedCode) (idx : ℤ) : Shrinks c (c.registerTableSlot idx) := by
  unfold registerTableSlot
  split <;> exact ⟨(Shrinks.refl c).cache, fun _ => Or.inl rfl, fun _ => le_rfl, id, id, id, id⟩

theorem retireTableSlot_shrinks (c : OwnedCode) (idx : ℤ) (b : Bool) : Shrinks c (c.retireTableSlot idx b) := by
  unfold retireTableSlot
  repeat' split
  all_goals exact ⟨(Shrinks.refl c).cache, fun _ => Or.inl rfl, fun _ => le_rfl, id, id, id, id⟩

theorem clearLine_shrinks (c : OwnedCode) (pc : U64) : Shrinks c (c.clearLine pc) where
  cache := (Shrinks.refl c).cache
  lines s := by
    unfold clearLine
    dsimp only
    split
    next => exact Or.inr rfl
    next => exact Or.inl rfl
  hot _ := le_rfl
  owners := id
  modules := id
  exits := id
  queue := id

theorem clearLineOf_shrinks (c : OwnedCode) (pc : U64) : Shrinks c (c.clearLineOf pc) := by
  unfold clearLineOf
  split
  next => exact clearLine_shrinks c pc
  next => exact .refl c

theorem updateOwnerRecency_shrinks (c : OwnedCode) (owner : JitOwnerId) (stamp : U64) : Shrinks c (c.updateOwnerRecency owner stamp) := by
  unfold updateOwnerRecency
  split <;> exact ⟨(Shrinks.refl c).cache, fun _ => Or.inl rfl, fun _ => le_rfl, id, id, id, id⟩

theorem withoutOwner_none {modules : HashMap PageKey PageModuleState} (h : ∀ k, modules k = none) (key : PageKey) (owner : JitOwnerId) :
    withoutOwner modules key owner = modules := by
  unfold withoutOwner
  rw [h key]

theorem forgetOwner_shrinks (c : OwnedCode) (owner : JitOwnerId) : Shrinks c (c.forgetOwner owner) where
  cache := (Shrinks.refl c).cache
  lines _ := Or.inl rfl
  hot _ := le_rfl
  owners h o := by
    show c.pageModuleOwner.remove owner o = none
    rw [HashMap.remove_apply, h o, ite_self]
  modules h k := by
    unfold forgetOwner
    dsimp only
    cases c.pageModuleOwner owner with
    | none => exact h k
    | some key =>
      show withoutOwner c.pageModules key owner k = none
      rw [withoutOwner_none h, h k]
  exits := id
  queue := id

theorem retireOwnedSlot_shrinks (c : OwnedCode) (idx : ℤ) (b : Bool) : Shrinks c (c.retireOwnedSlot idx b) := by
  unfold retireOwnedSlot
  split
  next => exact .refl c
  next owner _ =>
    dsimp only
    refine Shrinks.trans ?_ (retireTableSlot_shrinks _ idx b)
    have hend : ∀ c1 : OwnedCode, Shrinks c c1 → Shrinks c { c1 with
        regions := c1.regions.remove idx
        regionExits := c1.regionExits.remove idx
        extQueue := c1.extQueue.filter (· ≠ idx) } := fun c1 h1 =>
      h1.trans ⟨(Shrinks.refl c1).cache, fun _ => Or.inl rfl, fun _ => le_rfl, id, id,
        fun h i => by show c1.regionExits.remove idx i = none; rw [HashMap.remove_apply, h i, ite_self],
        fun h => by show c1.extQueue.filter _ = []; rw [h]; rfl⟩
    refine hend _ ?_
    split
    next => exact ⟨(Shrinks.refl c).cache, fun _ => Or.inl rfl, fun _ => le_rfl, id, id, id, id⟩
    next slots _ =>
      have hslots : Shrinks c { c with
          slotOwner := c.slotOwner.remove idx, ownerSlots := c.ownerSlots.insert owner (slots.filter (· ≠ idx)) } :=
        ⟨(Shrinks.refl c).cache, fun _ => Or.inl rfl, fun _ => le_rfl, id, id, id, id⟩
      split
      next => exact hslots.trans (forgetOwner_shrinks _ owner)
      next => exact hslots

theorem releaseSlot_shrinks (c : OwnedCode) (idx : ℤ) (b : Bool) : Shrinks c (c.releaseSlot idx b) := by
  unfold releaseSlot
  split
  next => exact .refl c
  next =>
    split
    next => exact ⟨(Shrinks.refl c).cache, fun _ => Or.inl rfl, fun _ => le_rfl, id, id, id, id⟩
    next =>
      refine Shrinks.trans ?_ (retireOwnedSlot_shrinks _ idx b)
      exact ⟨(Shrinks.refl c).cache, fun _ => Or.inl rfl, fun _ => le_rfl, id, id, id, id⟩

theorem retireUnreferencedSlot_shrinks (b : Bool) (c : OwnedCode) (idx : ℤ) : Shrinks c (retireUnreferencedSlot b c idx) := by
  unfold retireUnreferencedSlot
  split
  next => exact retireOwnedSlot_shrinks c idx b
  next => exact .refl c

theorem removed_shrinks (c : OwnedCode) (pc : U64) : Shrinks c { c with cache := c.cache.remove pc } where
  cache q block h := by
    change (c.cache.remove pc q).join = some block at h
    rw [HashMap.remove_apply] at h
    split at h
    next => cases h
    next => exact ⟨block, h, rfl⟩
  lines _ := Or.inl rfl
  hot _ := le_rfl
  owners := id
  modules := id
  exits := id
  queue := id

theorem cacheRemoveWithReason_shrinks (h : c.cacheRemoveWithReason pc b = some c') : Shrinks c c' := by
  unfold cacheRemoveWithReason at h
  split at h
  next => exact Option.some.inj h ▸ removed_shrinks c pc
  next block _ =>
    have hun : Shrinks c ({ c with cache := c.cache.remove pc }.unindexBlock pc block) :=
      (removed_shrinks c pc).trans ⟨(Shrinks.refl _).cache, fun _ => Or.inl rfl, fun _ => le_rfl, id, id, id, id⟩
    split at h
    next =>
      obtain ⟨owner, -, h⟩ := Option.bind_eq_some_iff.1 h
      obtain rfl := Option.some.inj h
      refine hun.trans (Shrinks.trans ?_ (releaseSlot_shrinks _ _ _))
      exact ⟨(Shrinks.refl _).cache, fun _ => Or.inl rfl, fun _ => le_rfl, id, id, id, id⟩
    next => exact Option.some.inj h ▸ hun

theorem coolEvictedEntry_shrinks (c : OwnedCode) (pc : U64) : Shrinks c (c.coolEvictedEntry pc) where
  cache := (Shrinks.refl c).cache
  lines _ := Or.inl rfl
  hot q := by
    show (c.hot.remove pc q).getD 0 ≤ (c.hot q).getD 0
    rw [HashMap.remove_apply]
    split
    next => exact Nat.zero_le _
    next => exact le_rfl
  owners := id
  modules := id
  exits := id
  queue := id

theorem retireEntry_shrinks (h : retireEntry b c pc = some c') : Shrinks c c' := by
  unfold retireEntry at h
  refine Shrinks.trans ?_ (cacheRemoveWithReason_shrinks h)
  refine Shrinks.trans ?_ (clearLineOf_shrinks _ pc)
  split
  next => exact coolEvictedEntry_shrinks c pc
  next => exact .refl c

theorem retireOwner_shrinks (h : c.retireOwner owner b = some c') : Shrinks c c' := by
  unfold retireOwner at h
  obtain ⟨c1, h1, h⟩ := Option.bind_eq_some_iff.1 h
  obtain rfl := Option.some.inj h
  have hfirst : Shrinks c c1 := by
    refine Shrinks.trans ?_ (Shrinks.foldlM (fun _ _ _ => retireEntry_shrinks) _ h1)
    exact ⟨(Shrinks.refl c).cache, fun _ => Or.inl rfl, fun _ => le_rfl, id, id, id, id⟩
  have hslots := hfirst.trans (Shrinks.foldl (retireUnreferencedSlot_shrinks b) ((c.ownerSlots owner).getD []) c1)
  split
  next => exact hslots.trans (forgetOwner_shrinks _ owner)
  next => exact hslots

theorem evictColdOwner_shrinks (h : c.evictColdOwner = some c') : Shrinks c c' := by
  unfold evictColdOwner at h
  split at h
  next => exact Option.some.inj h ▸ .refl c
  next => exact retireOwner_shrinks h

theorem trackOwner_shrinks {slots : List ℤ} (h : c.trackOwner owner slots = some c') : Shrinks c c' := by
  unfold trackOwner at h
  dsimp only at h
  split at h
  next => cases h
  next =>
    obtain ⟨c1, h1, h⟩ := Option.bind_eq_some_iff.1 h
    obtain rfl := Option.some.inj h
    have hslot : ∀ (c : OwnedCode) (i : ℤ) (c' : OwnedCode), trackSlot owner c i = some c' → Shrinks c c' := by
      intro c i c' h
      unfold trackSlot at h
      split at h
      next => cases h
      next =>
        obtain rfl := Option.some.inj h
        refine (registerTableSlot_shrinks c i).trans ?_
        exact ⟨(Shrinks.refl _).cache, fun _ => Or.inl rfl, fun _ => le_rfl, id, id, id, id⟩
    refine (Shrinks.foldlM hslot _ h1).trans (Shrinks.trans ?_ (updateOwnerRecency_shrinks _ _ _))
    exact ⟨(Shrinks.refl _).cache, fun _ => Or.inl rfl, fun _ => le_rfl, id, id, id, id⟩

theorem dropSlot_shrinks (base : ℤ) (c : OwnedCode) (offset : ℕ) : Shrinks c (Dispatcher.dropSlot base c offset) := by
  have hslot : ∀ idx : ℤ, Shrinks c (if 0 ≤ idx then (c.registerTableSlot idx).retireTableSlot idx false else c) := by
    intro idx
    split
    next => exact (registerTableSlot_shrinks c _).trans (retireTableSlot_shrinks _ _ _)
    next => exact .refl c
  exact hslot _

theorem dropCached_shrinks (h : c.dropCached pc = some c') : Shrinks c c' := by
  obtain ⟨c1, h1, rfl⟩ := Option.map_eq_some_iff.1 h
  exact (cacheRemoveWithReason_shrinks h1).trans (clearLineOf_shrinks c1 pc)

theorem extendInline_shrinks (h : c.extendInline pc = some c') : Shrinks c c' := by
  obtain ⟨c1, h1, rfl⟩ := Option.map_eq_some_iff.1 h
  exact (cacheRemoveWithReason_shrinks h1).trans (clearLine_shrinks c1 pc)

theorem retirePageModuleForSlot_shrinks {s : Bool × OwnedCode} (h : c.retirePageModuleForSlot idx = some s) : Shrinks c s.2 := by
  unfold retirePageModuleForSlot at h
  split at h
  next => exact Option.some.inj h ▸ .refl c
  next =>
    split at h
    next => exact Option.some.inj h ▸ .refl c
    next =>
      obtain ⟨c1, h1, rfl⟩ := Option.map_eq_some_iff.1 h
      exact retireOwner_shrinks h1

theorem dropUnmapped_shrinks (h : c.dropUnmapped pc idx = some c') : Shrinks c c' := by
  unfold dropUnmapped at h
  obtain ⟨s, hs, h⟩ := Option.bind_eq_some_iff.1 h
  refine (retirePageModuleForSlot_shrinks hs).trans ?_
  split at h
  next => exact Option.some.inj h ▸ .refl _
  next => exact extendInline_shrinks h

theorem dropBailing_shrinks (h : c.dropBailing pc = some c') : Shrinks c c' := by
  unfold dropBailing at h
  split at h
  next => exact dropCached_shrinks h
  next =>
    obtain ⟨s, hs, h⟩ := Option.bind_eq_some_iff.1 h
    refine (retirePageModuleForSlot_shrinks hs).trans ?_
    split at h
    next => exact Option.some.inj h ▸ .refl _
    next => exact dropCached_shrinks h

/-! ## No compiled code -/

structure NoCode (c : OwnedCode) : Prop where
  blocks : ∀ pc block, (c.cache pc).join = some block → block.idx < 0
  lines : ∀ pc, pc.getLsbD 0 = false → (c.dispatch (dslot pc)).pc = pc → (c.dispatch (dslot pc)).idx < 0
  hot : ∀ pc, (c.hot pc).getD 0 < Dispatcher.U32_MAX
  owners : ∀ o, c.pageModuleOwner o = none
  modules : ∀ k, c.pageModules k = none
  exits : ∀ i, c.regionExits i = none
  queue : c.extQueue = []

theorem NoCode.no_call (h : NoCode c) (pc : U64) : ¬ c.Calls pc := by
  rintro ⟨heven, ⟨hpc, hidx⟩ | ⟨block, hb, hidx⟩⟩
  · have := h.lines pc heven hpc
    omega
  · have := h.blocks pc block hb
    omega

theorem NoCode.mono (h : NoCode c) (hs : Shrinks c c') : NoCode c' where
  blocks pc block hb := by
    obtain ⟨b, h1, h2⟩ := hs.cache pc block hb
    rw [← h2]
    exact h.blocks pc b h1
  lines pc heven hpc := by
    rcases hs.lines (dslot pc) with h1 | h1
    · rw [h1] at hpc ⊢
      exact h.lines pc heven hpc
    · rw [h1] at hpc
      rw [← hpc] at heven
      exact absurd heven (by decide)
  hot pc := (hs.hot pc).trans_lt (h.hot pc)
  owners := hs.owners h.owners
  modules := hs.modules h.modules
  exits := hs.exits h.exits
  queue := hs.queue h.queue

theorem NoCode.clear (c : OwnedCode) : NoCode c.clear where
  blocks _ _ hb := by cases hb
  lines pc heven hpc := by
    rw [← show (c.clear.dispatch (dslot pc)).pc = pc from hpc] at heven
    exact absurd heven (by
      show NO_PC.getLsbD 0 ≠ false
      decide)
  hot _ := by
    show 0 < Dispatcher.U32_MAX
    decide
  owners _ := rfl
  modules _ := rfl
  exits _ := rfl
  queue := rfl

theorem NoCode.touch (h : NoCode c) (pc : U64) : NoCode (c.touch pc) := by
  unfold OwnedCode.touch
  dsimp only
  cases hb : (c.nextJitUseStamp.cache pc).join with
  | none => exact h.mono ⟨(Shrinks.refl c).cache, fun _ => Or.inl rfl, fun _ => le_rfl, id, id, id, id⟩
  | some block =>
    have hidx := h.blocks pc block hb
    have hset : NoCode { c.nextJitUseStamp with
        cache := c.nextJitUseStamp.cache.insert pc (some { block with lastUsed := c.nextJitUseStamp.useStamp }) } := by
      refine ⟨fun q block' hq => ?_, h.lines, h.hot, h.owners, h.modules, h.exits, h.queue⟩
      change (c.cache.insert pc (some { block with lastUsed := c.nextJitUseStamp.useStamp }) q).join = some block' at hq
      rw [HashMap.insert_apply] at hq
      split at hq
      next =>
        rw [Option.join_some, Option.some.injEq] at hq
        rw [← hq]
        exact hidx
      next => exact h.blocks q block' hq
    dsimp only
    split
    next => exact hset.mono (updateOwnerRecency_shrinks _ _ _)
    next => exact hset

theorem NoCode.resolve {mapped : Bool} {gen : U32} (h : NoCode c) (hr : c.resolve pc mapped gen = some c') : NoCode c' := by
  unfold OwnedCode.resolve at hr
  cases hb : (c.cache pc).join with
  | none =>
    rw [hb] at hr
    exact Option.some.inj hr ▸ h
  | some block =>
    rw [hb] at hr
    dsimp only at hr
    split at hr
    next =>
      obtain rfl := Option.some.inj hr
      refine ⟨h.blocks, fun q heven hq => ?_, h.hot, h.owners, h.modules, h.exits, h.queue⟩
      dsimp only at hq ⊢
      split at hq
      next hs =>
        rw [if_pos hs]
        exact h.blocks pc block hb
      next hs =>
        rw [if_neg hs]
        exact h.lines q heven hq
    next => exact h.mono (dropUnmapped_shrinks hr)

end OwnedCode

namespace JitState

variable {j j' : JitState}

/-- No compiled code, and nothing that a build could come from. -/
structure Off (j : JitState) : Prop where
  code : j.toOwnedCode.NoCode
  staged : j.confirmedStage = []
  queue : j.sbQueue = []
  claims : ∀ k, j.pendingSuperblocks k = none

theorem Off.mono (h : Off j) {c : OwnedCode} (hc : j.toOwnedCode.Shrinks c) : Off { j with toOwnedCode := c } :=
  ⟨h.code.mono hc, h.staged, h.queue, h.claims⟩

theorem Off.setCode (h : Off j) {c : OwnedCode} (hc : c.NoCode) : Off { j with toOwnedCode := c } :=
  ⟨hc, h.staged, h.queue, h.claims⟩

theorem Off.clear (j : JitState) : Off j.clear := ⟨.clear j.toOwnedCode, rfl, rfl, fun _ => rfl⟩

theorem Off.uncover (h : Off j) (cov : HashMap (U64 × U64) ℕ) : Off { j with confirmedCoverage := cov } :=
  ⟨h.code, h.staged, h.queue, h.claims⟩

theorem Off.removePendingCoverage (h : Off j) (kind : PendingJitKind) : Off (j.removePendingCoverage kind) := by
  have hblocks : ∀ (blocks : List PendingBlock) (j : JitState), Off j → Off (blocks.foldl removeConfirmedCoverage j) := by
    intro blocks
    induction blocks with
    | nil => exact fun _ hj => hj
    | cons b blocks ih => exact fun _ hj => ih _ (hj.uncover _)
  cases kind with
  | block b => exact h.uncover _
  | batch b => exact hblocks b.members j h
  | region r => exact h

/-- A ticket that holds nothing gives nothing up. -/
theorem Off.finish (h : Off j) (ticket aspace : U64) (pages : List (U64 × U64)) (landed : Bool) :
    j.finishPendingSuperblock ticket aspace pages landed = j := by
  unfold finishPendingSuperblock
  induction pages with
  | nil => rfl
  | cons page pages ih =>
    rw [List.foldl_cons]
    have hpage : finishPage ticket aspace landed j page = j := by
      unfold finishPage
      dsimp only
      rw [h.claims]
    rw [hpage, ih]

theorem Off.finishPageModule (h : Off j) (ticket : U64) (batch : PendingBatch) (finish : PageModuleFinish) :
    (j.finishPendingPageModule ticket batch finish).2 = j := by
  unfold finishPendingPageModule
  split
  next => rfl
  next key _ => rw [h.code.modules key]

theorem Off.drainPage {s s' : Drain} (h : Off s.jit) {ppage : U64} (hd : JitState.drainPage s ppage = some s') : Off s'.jit := by
  unfold JitState.drainPage at hd
  dsimp only at hd
  obtain ⟨c, hc, rfl⟩ := Option.map_eq_some_iff.1 hd
  have hstaged : Off (s.jit.dropStaged ppage) := by
    unfold dropStaged
    dsimp only
    rw [h.staged]
    exact ⟨h.code, rfl, h.queue, h.claims⟩
  refine hstaged.mono (OwnedCode.Shrinks.trans ?_ (OwnedCode.Shrinks.foldlM (fun _ _ _ => OwnedCode.dropCached_shrinks) _ hc))
  exact ⟨(OwnedCode.Shrinks.refl _).cache, fun _ => Or.inl rfl, fun _ => le_rfl, id, id, id, id⟩

theorem Off.drainPages {s s' : Drain} {dirty : List U64} (h : Off s.jit) (hd : dirty.foldlM JitState.drainPage s = some s') :
    Off s'.jit := by
  induction dirty generalizing s with
  | nil => exact Option.some.inj hd ▸ h
  | cons page dirty ih =>
    rw [List.foldlM_cons] at hd
    obtain ⟨s1, h1, h2⟩ := Option.bind_eq_some_iff.1 hd
    exact ih (h.drainPage h1) h2

theorem retain_none {κ α : Type} {t : HashMap κ α} (h : ∀ k, t k = none) (p : κ → α → Bool) (k : κ) : t.retain p k = none := by
  unfold HashMap.retain
  rw [h k]
  rfl

theorem Off.invalidate {exact : PageKey → Bool} {broad : U64 → Bool} {owners : List JitOwnerId} (h : Off j)
    (hi : j.invalidateSuperblockState exact broad owners = some j') : Off j' := by
  unfold invalidateSuperblockState at hi
  obtain ⟨c, hc, rfl⟩ := Option.map_eq_some_iff.1 hi
  have hcode := h.code.mono (OwnedCode.Shrinks.foldlM (fun _ _ _ => OwnedCode.retireOwner_shrinks) _ hc)
  exact ⟨⟨hcode.blocks, hcode.lines, hcode.hot, hcode.owners, retain_none hcode.modules _, hcode.exits, hcode.queue⟩, h.staged, h.queue,
    retain_none h.claims _⟩

theorem Off.switchSpace (h : Off j) (gen : U64) (entriesFull hotFull : Bool) : Off (j.switchSpace gen entriesFull hotFull) := by
  unfold JitState.switchSpace
  have hcode : ∀ (keep : PageKey → PageModuleState → Bool) (j1 : JitState), Off j1 →
      Off { j1 with pageHotEntries := .empty, pageModules := j1.pageModules.retain keep } := fun keep j1 h1 =>
    ⟨⟨h1.code.blocks, h1.code.lines, h1.code.hot, h1.code.owners, retain_none h1.code.modules _, h1.code.exits, h1.code.queue⟩,
      h1.staged, h1.queue, h1.claims⟩
  have hgen : Off { j with flushGen := gen } := ⟨h.code, h.staged, h.queue, h.claims⟩
  have hentries : Off (if entriesFull then
      { j with flushGen := gen, pageEntries := .empty, superblocked := fun _ => false, pendingSuperblocks := .empty, sbGen := .empty }
      else { j with flushGen := gen }) := by
    split
    next => exact ⟨h.code, h.staged, h.queue, fun _ => rfl⟩
    next => exact hgen
  dsimp only
  split
  next => exact hcode _ _ hentries
  next => exact hentries

end JitState

namespace PendingJit

/-- A block or a batch that makes no claim. -/
def Individual (p : PendingJit) : Prop := p.region? = none ∧ ∀ b, p.kind = .batch b → b.pageModule = none

end PendingJit

namespace Dispatcher

variable {M : Type} [FullSystemJitMachine M] {m m' : M} {d d' : Dispatcher} {a : Action}

/-! ## Runs while the JIT is off -/

/-- Every region build covers a page. -/
def Covering (d : Dispatcher) : Prop := ∀ p ∈ d.pendingJit, ∀ r, p.region? = some r → r.pages ≠ []

structure Off (d : Dispatcher) : Prop where
  threshold : d.jitThreshold = U32_MAX
  jit : d.jit.Off

/-- No individual block or batch lands, no counter goes through its whole range, and the JIT stays off. -/
def KeepsOff (m : M) (d : Dispatcher) : Action → Prop
  | .count pc => (d.jit.hot pc).getD 0 + 1 < U32_MAX
  | .complete ticket base slotCount =>
    ∀ pos p, d.findPending ticket = some (pos, p) → p.Individual → (d.take pos p).outcome m p base slotCount ≠ .landed
  | .enable => False
  | .threshold => False
  | _ => True

/-- Until it is enabled again. -/
def StaysOff (_ : M) (_ : Dispatcher) (a : Action) : Prop := a ≠ .enable ∧ a ≠ .threshold

theorem Off.not_tiered (h : Off d) (pc : U64) : ¬ d.Tiered pc := by
  rintro ⟨-, ht⟩
  rw [h.threshold] at ht
  exact absurd (h.jit.code.hot pc) (Nat.not_lt.2 ht)

theorem Off.setCode (h : Off d) {c : OwnedCode} (hc : c.NoCode) : Off (d.setCode c) := ⟨h.threshold, h.jit.setCode hc⟩

theorem Off.shrink (h : Off d) {c : OwnedCode} (hc : d.jit.toOwnedCode.Shrinks c) : Off (d.setCode c) := h.setCode (h.jit.code.mono hc)

/-- A build that makes claims has lost them. -/
theorem Off.not_current {p : PendingJit} (h : Off d) (hw : ∀ r, p.region? = some r → r.pages ≠ []) (hp : ¬ p.Individual) :
    d.isCurrent p = false := by
  unfold isCurrent
  rw [Bool.and_eq_false_iff]
  refine Or.inr ?_
  unfold PendingJit.Individual PendingJit.region? at hp
  unfold PendingJit.region? at hw
  cases hk : p.kind with
  | block b => exact absurd ⟨by rw [hk], fun b' hb' => by rw [hk] at hb'; cases hb'⟩ hp
  | batch b =>
    cases hm : b.pageModule with
    | none => exact absurd ⟨by rw [hk], fun b' hb' => by rw [hk] at hb'; cases hb'; exact hm⟩ hp
    | some key =>
      dsimp only
      unfold JitState.pageModulePendingIsCurrent
      rw [hm]
      dsimp only
      rw [h.jit.code.modules key]
  | region r =>
    dsimp only
    unfold JitState.pendingSuperblockIsCurrent
    rw [List.all_eq_false]
    obtain ⟨page, hpage⟩ := List.exists_mem_of_ne_nil _ (hw r (by rw [hk]))
    exact ⟨page, hpage, by rw [h.jit.claims]; exact Bool.false_ne_true⟩

theorem Off.finishBatch (h : Off d) (p : PendingJit) (finish : PageModuleFinish) : finishBatch d.jit p finish = d.jit := by
  unfold Dispatcher.finishBatch
  split
  next => exact h.jit.finishPageModule _ _ _
  next => rfl

theorem Off.releaseRegion (h : Off d) (p : PendingJit) : releaseRegion d.jit p = d.jit := by
  unfold Dispatcher.releaseRegion
  split
  next => exact h.jit.finish _ _ _ _
  next => rfl

/-- **A completion that lands nothing leaves the JIT off.** -/
theorem Off.settle {p : PendingJit} {base : ℤ} {slotCount : ℕ} (h : Off d) (hw : ∀ r, p.region? = some r → r.pages ≠ [])
    (hP : p.Individual → d.outcome m p base slotCount ≠ .landed) (hs : d.settle m p base slotCount = some (m', d')) : Off d' := by
  unfold Dispatcher.settle at hs
  have hdrop : Off { d with jit := dropSlots d.jit base slotCount } :=
    h.shrink (OwnedCode.Shrinks.foldl (OwnedCode.dropSlot_shrinks base) _ _)
  cases ho : d.outcome m p base slotCount <;> rw [ho] at hs
  case wrongSlotCount =>
    obtain ⟨-, rfl⟩ := Prod.mk.inj (Option.some.inj hs)
    rwa [h.finishBatch]
  case superseded =>
    obtain ⟨-, rfl⟩ := Prod.mk.inj (Option.some.inj hs)
    rwa [h.releaseRegion, h.finishBatch]
  case capacity =>
    obtain ⟨d1, hd, hs⟩ := Option.map_eq_some_iff.1 hs
    obtain ⟨-, rfl⟩ := Prod.mk.inj hs
    rw [h.releaseRegion, h.finishBatch] at hd
    obtain ⟨c, hc, rfl⟩ := Option.map_eq_some_iff.1 hd
    exact ⟨h.threshold, h.jit.mono (OwnedCode.evictColdOwner_shrinks hc)⟩
  case failed =>
    obtain ⟨-, rfl⟩ := Prod.mk.inj (Option.some.inj hs)
    rwa [h.releaseRegion, h.finishBatch]
  case stale =>
    obtain ⟨c, hc, hs⟩ := Option.bind_eq_some_iff.1 hs
    obtain ⟨-, rfl⟩ := Prod.mk.inj (Option.some.inj hs)
    have htrack : Off (d.setCode c) := h.shrink (OwnedCode.trackOwner_shrinks hc)
    rw [show Dispatcher.releaseRegion { d.jit with toOwnedCode := c } p = (d.setCode c).jit from htrack.releaseRegion p,
      htrack.finishBatch]
    exact htrack.shrink (OwnedCode.Shrinks.foldl (OwnedCode.retireUnreferencedSlot_shrinks false) _ _)
  case landed =>
    by_cases hi : p.Individual
    · exact absurd ho (hP hi)
    · unfold outcome at ho
      rw [h.not_current hw hi] at ho
      split at ho
      next => cases ho
      next => cases ho

theorem Off.complete {ticket : U64} {base : ℤ} {slotCount : ℕ} (h : Off d) (hcov : d.Covering)
    (hP : KeepsOff m d (.complete ticket base slotCount)) (hc : d.completeJit m ticket base slotCount = some (m', d')) : Off d' := by
  unfold completeJit at hc
  cases hf : d.findPending ticket with
  | none =>
    rw [hf] at hc
    obtain ⟨-, rfl⟩ := Prod.mk.inj (Option.some.inj hc)
    exact h.shrink (OwnedCode.Shrinks.foldl (OwnedCode.dropSlot_shrinks base) _ _)
  | some s =>
    obtain ⟨pos, p⟩ := s
    rw [hf] at hc
    have hmem : p ∈ d.pendingJit := (findPending_some hf).2.subset List.mem_cons_self
    have htake : Off (d.take pos p) := ⟨h.threshold, h.jit.removePendingCoverage p.kind⟩
    exact htake.settle (hcov p hmem) (hP pos p hf) hc

/-- **Every step but a landing leaves the JIT off.** -/
theorem Off.step (h : Off d) (hcov : d.Covering) (hP : KeepsOff m d a) (hs : Step m d a d') : Off d' := by
  cases hs with
  | beginRun => exact ⟨h.threshold, h.jit⟩
  | switchSpace gen entriesFull hotFull => exact ⟨h.threshold, h.jit.switchSpace gen entriesFull hotFull⟩
  | drain hd _ hj => exact ⟨h.threshold, (JitState.Off.drainPages (s := ⟨d.jit, _, _⟩) h.jit hd).invalidate hj⟩
  | touch pc => exact h.setCode (h.jit.code.touch pc)
  | resolve hr => exact h.setCode (h.jit.code.resolve hr)
  | extendInline he => exact h.shrink (OwnedCode.extendInline_shrinks he)
  | dropBailing hb => exact h.shrink (OwnedCode.dropBailing_shrinks hb)
  | @demote idx j hd =>
    unfold JitState.demoteRegion at hd
    rw [h.jit.code.exits idx] at hd
    exact Option.some.inj hd ▸ h
  | @queueExtension idx hi =>
    rw [h.jit.code.exits idx] at hi
    cases hi
  | extend hidx =>
    rw [h.jit.code.queue] at hidx
    exact absurd hidx List.not_mem_nil
  | queuePage ht => exact absurd ht (h.not_tiered _)
  | buildQueued hk =>
    rw [h.jit.queue] at hk
    exact absurd hk List.not_mem_nil
  | count pc _ =>
    refine ⟨h.threshold, ⟨⟨h.jit.code.blocks, h.jit.code.lines, fun q => ?_, h.jit.code.owners, h.jit.code.modules,
      h.jit.code.exits, h.jit.code.queue⟩, h.jit.staged, h.jit.queue, h.jit.claims⟩⟩
    change ((d.jit.hot.insert pc _ q).getD 0) < U32_MAX
    rw [HashMap.insert_apply]
    split
    next =>
      have hlt : (d.jit.hot pc).getD 0 + 1 < U32_MAX := hP
      exact (Nat.mod_le _ _).trans_lt hlt
    next => exact h.jit.code.hot q
  | build ht => exact absurd ht (h.not_tiered _)
  | recordEntry ht => exact absurd ht (h.not_tiered _)
  | pageModule ht => exact absurd ht (h.not_tiered _)
  | block ht => exact absurd ht (h.not_tiered _)
  | batch ht => exact absurd ht (h.not_tiered _)
  | stage ht => exact absurd ht (h.not_tiered _)
  | submitStage ht hsub =>
    unfold submitConfirmedStage at hsub
    rw [h.jit.staged, List.length_nil, if_pos (by omega)] at hsub
    cases hsub
  | blacklist ht => exact absurd ht (h.not_tiered _)
  | observe _ _ _ _ ht => exact absurd h.threshold ht
  | complete hc => exact h.complete hcov hP hc
  | enable => exact hP.elim
  | disable => exact ⟨rfl, .clear d.jit⟩
  | threshold t => exact hP.elim
  | reset => exact ⟨h.threshold, .clear d.jit⟩

/-! ## The queue of compiles -/

/-- A queue grows by builds that cover a page, and by page modules of entries of their page. -/
def Grows (d d' : Dispatcher) : Prop :=
  ∀ p ∈ d'.pendingJit, p ∈ d.pendingJit ∨ (∀ r, p.region? = some r → r.pages ≠ []) ∧ p.Proper

theorem Grows.of_eq (h : d'.pendingJit = d.pendingJit) : Grows d d' := fun _ hp => Or.inl (h ▸ hp)

theorem submit_grows {kind : PendingJitKind} {s : U64 × Dispatcher} (h : d.submitPendingJit kind = some s)
    (hk : ∀ r, kind = .region r → r.pages ≠ []) (hp : ∀ b key, kind = .batch b → b.pageModule = some key → b.OfPage key) : Grows d s.2 := by
  unfold submitPendingJit at h
  split at h
  next => cases h
  next =>
    obtain rfl := Option.some.inj h
    intro p hmem
    rcases List.mem_append.1 hmem with hmem | hmem
    · exact Or.inl hmem
    · rw [List.mem_singleton] at hmem
      subst hmem
      exact Or.inr ⟨fun r hr => hk r (PendingJit.region?_eq.1 hr), hp⟩

theorem Builds.grows (h : Builds d d') : Grows d d' := by
  cases h with
  | none => exact .of_eq rfl
  | issue r gen hr h =>
    unfold issueRegion at h
    obtain ⟨s, hs, h⟩ := Option.bind_eq_some_iff.1 h
    obtain ⟨j, -, h⟩ := Option.bind_eq_some_iff.1 h
    obtain rfl := Option.some.inj h
    exact submit_grows hs (fun r' hr' => by cases hr'; exact hr) fun b key hb => by cases hb

theorem issuePageModule_grows (d : Dispatcher) (key : PageKey) (source : PageModuleSource) {batch : Option PendingBatch}
    (hb : ∀ b ∈ batch, b.OfPage key) : Grows d (d.issuePageModule key source batch) := by
  unfold issuePageModule
  split
  next => exact .of_eq rfl
  next => exact .of_eq rfl
  next prior _ =>
    split
    next =>
      unfold JitState.recordPageModuleFailure
      split <;> exact .of_eq rfl
    next b =>
      split
      next => exact .of_eq rfl
      next s hs =>
        refine submit_grows hs (fun r hr => by cases hr) fun b' key' hb' hkey => ?_
        cases hb'
        cases hkey
        exact hb b rfl

theorem complete_grows {ticket : U64} {base : ℤ} {slotCount : ℕ} (hc : d.completeJit m ticket base slotCount = some (m', d')) :
    Grows d d' := by
  unfold completeJit at hc
  cases hf : d.findPending ticket with
  | none =>
    rw [hf] at hc
    obtain ⟨-, rfl⟩ := Prod.mk.inj (Option.some.inj hc)
    exact .of_eq rfl
  | some s =>
    rw [hf] at hc
    intro p hp
    rw [(settle_claims hc).2] at hp
    exact Or.inl ((findPending_some hf).2.subset (List.mem_cons_of_mem _ hp))

theorem Step.grows (hs : Step m d a d') : Grows d d' := by
  cases hs with
  | extend hidx hq sampling hb => exact hb.grows
  | buildQueued hk hb => exact hb.grows
  | build ht hb => exact hb.grows
  | pageModule ht key source batch hb => exact issuePageModule_grows d key source hb
  | block ht h => exact submit_grows h (fun r hr => by cases hr) fun b key hb => by cases hb
  | batch ht hp h =>
    refine submit_grows h (fun r hr => by cases hr) fun b key hb hkey => ?_
    cases hb
    rw [hp] at hkey
    cases hkey
  | submitStage ht h =>
    unfold submitConfirmedStage at h
    split at h
    next => cases h
    next =>
      obtain ⟨s, hs, rfl⟩ := Option.map_eq_some_iff.1 h
      refine submit_grows hs (fun r hr => by cases hr) fun b key hb hkey => ?_
      cases hb
      cases hkey
  | blacklist ht h =>
    obtain ⟨c, -, rfl⟩ := Option.map_eq_some_iff.1 h
    exact .of_eq rfl
  | complete hc => exact complete_grows hc
  | reset => exact fun p hp => absurd hp List.not_mem_nil
  | disable => exact .of_eq rfl
  | enable => exact .of_eq rfl
  | _ => exact .of_eq rfl

theorem Covering.step (h : d.Covering) (hs : Step m d a d') : d'.Covering := fun p hp r hr =>
  (hs.grows p hp).elim (fun hp => h p hp r hr) fun hn => hn.1 r hr

theorem Covering.run {P : M → Dispatcher → Action → Prop} {d₀ : Dispatcher} (h : d₀.Covering) (hr : Run P d₀ d) : d.Covering := by
  induction hr with
  | start => exact h
  | step _ _ hs ih => exact ih.step hs

theorem Reach.covering (h : Reach M d) : d.Covering := by
  obtain ⟨settings, hr⟩ := h
  exact Covering.run (fun _ hp => absurd hp List.not_mem_nil) hr

theorem Off.run {d₀ : Dispatcher} (h : Off d₀) (hcov : d₀.Covering) (hr : Run (M := M) KeepsOff d₀ d) : Off d := by
  induction hr with
  | start => exact h
  | step hr hP hs ih => exact ih.step (hcov.run hr) hP hs

def resetBlock : PendingBlock where
  aspace := 0
  pc := 0x80000000
  block := ⟨false, -1, 4, 0x80000000, 0⟩
  pages := [(0x80000000, 0x80000000)]
  pageGenerations := [0]
  seeds := []
  tracePcs := []
  missedSuperblock := false

/-- The page of the block is marked, and was not written. -/
def resetPages : JitPageState := ((JitPageState.new 0x1000).markAddress 0x80000000).2

/-- A dispatcher that counts a pc once and compiles it. -/
def hotDispatcher : Dispatcher := ((Dispatcher.new ⟨0, false⟩).jitSetThreshold 1).countPc 0x80000000

theorem compiling : ∃ s, hotDispatcher.submitPendingJit (.block resetBlock) = some s ∧ Reach JitPageState s.2 := by
  obtain ⟨s, hs⟩ := Option.isSome_iff_exists.1 (show (hotDispatcher.submitPendingJit (.block resetBlock)).isSome by decide)
  have hthreshold : Run (fun (_ : JitPageState) _ _ => True) (Dispatcher.new ⟨0, false⟩) _ := Run.start.step (m := resetPages) trivial (.threshold 1)
  have hcount := hthreshold.step (m := resetPages) trivial (.count 0x80000000 rfl)
  exact ⟨s, hs, ⟨0, false⟩, hcount.step (m := resetPages) trivial (.block ⟨rfl, by decide⟩ hs)⟩

end Dispatcher
end Lish
