import Lish.Prog.RefCounts
import Lish.Jit.Disabled
/-!
# Coverage — the counts of the pcs that staged and pending traces cover

A translated trace is counted when it is staged and released at its end.  A switch-off forgets the counts, but not the traces
that are in flight.
-/
namespace Lish

open RefCounts

/-! ## Traces and their pcs -/

/-- The pcs of a trace, in its address space. -/
def PendingBlock.traceKeys (b : PendingBlock) : List (U64 × U64) := b.tracePcs.map fun pc => (b.aspace, pc)

def traceKeys (bodies : List PendingBlock) : List (U64 × U64) := bodies.flatMap PendingBlock.traceKeys

def PendingJitKind.bodies : PendingJitKind → List PendingBlock
  | .block b => [b]
  | .batch b => b.members
  | .region _ => []

/-- How often a pc occurs in the traces of an address space. -/
def occurrences (bodies : List PendingBlock) (aspace pc : U64) : ℕ :=
  ((bodies.filter fun b => b.aspace = aspace).map fun b => b.tracePcs.count pc).sum

theorem traceKeys_append (bodies more : List PendingBlock) : traceKeys
    (bodies ++ more) = traceKeys bodies ++ traceKeys more := List.flatMap_append

theorem traceKeys_perm {bodies more : List PendingBlock} (h : bodies.Perm more) : (traceKeys bodies).Perm (traceKeys more)
    := h.flatMap_right _

theorem count_traceKey (b : PendingBlock) (aspace pc : U64) : b.traceKeys.count (aspace, pc) = if b.aspace = aspace then
    b.tracePcs.count pc else 0 := by
  unfold PendingBlock.traceKeys
  split
  · rename_i h
    subst h
    exact List.count_map_of_injective _ _ (fun _ _ he => (Prod.mk.inj he).2) _
  · rename_i h
    refine List.count_eq_zero.2 fun hm => ?_
    obtain ⟨pc', -, he⟩ := List.mem_map.1 hm
    exact h (Prod.mk.inj he).1

/-- The occurrences of a pc are those of its key. -/
theorem count_traceKeys (bodies : List PendingBlock) (aspace pc : U64) : (traceKeys bodies).count (aspace,
    pc) = occurrences bodies aspace pc := by
  induction bodies with
  | nil => rfl
  | cons b bodies ih =>
    have hcons : traceKeys (b :: bodies) = b.traceKeys ++ traceKeys bodies := List.flatMap_cons
    unfold occurrences at ih ⊢
    rw [hcons, List.count_append, count_traceKey, ih, List.filter_cons]
    by_cases h : b.aspace = aspace
    · rw [if_pos h, if_pos (decide_eq_true h), List.map_cons, List.sum_cons]
    · rw [if_neg h, if_neg (by simpa using h), Nat.zero_add]

/-- A trace names no pc twice. -/
theorem count_le_length {bodies : List PendingBlock} (h : ∀ b ∈ bodies, b.tracePcs.Nodup) (key : U64 × U64) :
    (traceKeys bodies).count key ≤ bodies.length := by
  induction bodies with
  | nil => exact Nat.le_refl 0
  | cons b bodies ih =>
    have hone : b.traceKeys.count key ≤ 1 := by
      refine List.nodup_iff_count_le_one.1 ?_ key
      exact (h b List.mem_cons_self).map fun _ _ he => (Prod.mk.inj he).2
    have hrest := ih fun b' hb => h b' (List.mem_cons_of_mem _ hb)
    have hcons : traceKeys (b :: bodies) = b.traceKeys ++ traceKeys bodies := List.flatMap_cons
    rw [hcons, List.count_append, List.length_cons]
    omega

namespace JitState

variable {j j' : JitState}

def sourceDirty (ppage : U64) (block : PendingBlock) : Bool := block.pages.any fun page => pageDirty ppage page.2

/-- The removal of some traces. -/
def uncoverAll (coverage : HashMap (U64 × U64) ℕ) (keys : List (U64 × U64)) : HashMap (U64 × U64) ℕ :=
  keys.foldl (fun cov key => uncover cov key.1 key.2) coverage

theorem uncoverAll_eq (coverage : HashMap (U64 × U64) ℕ) (keys : List (U64 × U64)) :
    uncoverAll coverage keys = keys.foldl release coverage := by
  unfold uncoverAll
  congr 1

theorem addConfirmedCoverage_coverage (j : JitState) (b : PendingBlock) :
    (j.addConfirmedCoverage b).confirmedCoverage = b.traceKeys.foldl (retain 65535) j.confirmedCoverage := by
  unfold PendingBlock.traceKeys
  rw [List.foldl_map]
  rfl

theorem removeConfirmedCoverage_coverage (j : JitState) (b : PendingBlock) :
    (j.removeConfirmedCoverage b).confirmedCoverage = uncoverAll j.confirmedCoverage b.traceKeys := by
  unfold uncoverAll PendingBlock.traceKeys
  rw [List.foldl_map]
  rfl

/-- The staged traces are the same, and the counts are. -/
def SameTraces (j j' : JitState) : Prop := j'.confirmedStage = j.confirmedStage ∧ j'.confirmedCoverage = j.confirmedCoverage

theorem SameTraces.refl (j : JitState) : SameTraces j j := ⟨rfl, rfl⟩

theorem SameTraces.trans {j'' : JitState} (h : SameTraces j j') (h' : SameTraces j' j'') : SameTraces j j'' :=
  ⟨h'.1.trans h.1, h'.2.trans h.2⟩

/-- Traces that end release their pcs one after the other. -/
theorem removeAll_coverage (blocks : List PendingBlock) (j : JitState) :
    (blocks.foldl removeConfirmedCoverage j).confirmedStage = j.confirmedStage ∧
      (blocks.foldl removeConfirmedCoverage j).confirmedCoverage = uncoverAll j.confirmedCoverage (traceKeys blocks) := by
  induction blocks generalizing j with
  | nil => exact ⟨rfl, rfl⟩
  | cons b blocks ih =>
    have hcons : traceKeys (b :: blocks) = b.traceKeys ++ traceKeys blocks := List.flatMap_cons
    obtain ⟨h1, h2⟩ := ih (j.removeConfirmedCoverage b)
    rw [removeConfirmedCoverage_coverage] at h2
    refine ⟨h1, ?_⟩
    rw [List.foldl_cons, h2, hcons]
    unfold uncoverAll
    rw [List.foldl_append]

theorem removePendingCoverage_coverage (j : JitState) (kind : PendingJitKind) :
    (j.removePendingCoverage kind).confirmedStage = j.confirmedStage ∧
      (j.removePendingCoverage kind).confirmedCoverage = uncoverAll j.confirmedCoverage (traceKeys kind.bodies) := by
  cases kind with
  | block b => exact removeAll_coverage [b] j
  | batch b => exact removeAll_coverage b.members j
  | region r => exact ⟨rfl, rfl⟩

theorem dropStaged_coverage (j : JitState) (ppage : U64) :
    (j.dropStaged ppage).confirmedStage = j.confirmedStage.filter (fun b => !sourceDirty ppage b) ∧
      (j.dropStaged ppage).confirmedCoverage = uncoverAll j.confirmedCoverage (traceKeys (j.confirmedStage.filter
        (sourceDirty ppage))) :=
  ⟨rfl, (removeAll_coverage _ j).2⟩

/-! ## What leaves the traces alone -/

theorem install_traces {pc : U64} {block : JitBlock} (h : j.install pc block = some j') : SameTraces j j' := by
  unfold install at h
  obtain ⟨c, -, rfl⟩ := Option.map_eq_some_iff.1 h
  exact ⟨rfl, rfl⟩

theorem recordPages_traces (j : JitState) (idx : ℤ) (pages : List (U64 × U64)) : SameTraces j (j.recordPages idx pages) := by
  unfold recordPages
  split <;> exact ⟨rfl, rfl⟩

theorem addSeeds_traces (s : JitSettings) (j : JitState) (block : PendingBlock) : SameTraces j (j.addSeeds s block) := by
  unfold addSeeds
  split <;> exact ⟨rfl, rfl⟩

theorem landBlock_traces {s : JitSettings} {idx : ℤ} {p : PendingBlock} (h : j.landBlock s idx p = some j') : SameTraces j j' := by
  have hstamp : SameTraces j j.stamp := ⟨rfl, rfl⟩
  exact ((hstamp.trans (recordPages_traces _ _ _)).trans (addSeeds_traces _ _ _)).trans (install_traces h)

theorem landMember_traces {s : JitSettings} {b : Bool} {idx : ℤ} {p : PendingBlock} (h : j.landMember s b idx p = some j') :
    SameTraces j j' := by
  unfold landMember at h
  split at h
  · exact Option.some.inj h ▸ .refl j
  · split at h
    · exact Option.some.inj h ▸ .refl j
    · exact landBlock_traces h

theorem foldlM_traces {α : Type} {f : JitState → α → Option JitState} (hf : ∀ j a j', f j a = some j' → SameTraces j j') :
    ∀ {l : List α} {j j' : JitState}, l.foldlM f j = some j' → SameTraces j j'
  | [], j, j', h => Option.some.inj h ▸ .refl j
  | a :: l, j, j', h => by
    rw [List.foldlM_cons] at h
    obtain ⟨j1, h1, h2⟩ := Option.bind_eq_some_iff.1 h
    exact (hf j a j1 h1).trans (foldlM_traces hf h2)

theorem landEntry_traces {s : JitSettings} {idx : ℤ} {p : PendingRegion} {e : U64} (h : landEntry s idx p j e = some j') :
    SameTraces j j' := by
  unfold landEntry at h
  split at h
  · exact Option.some.inj h ▸ .refl j
  · split at h
    · exact Option.some.inj h ▸ .refl j
    · split at h
      · exact Option.some.inj h ▸ .refl j
      · have hstamp : SameTraces j j.stamp := ⟨rfl, rfl⟩
        exact hstamp.trans (install_traces h)

theorem completeRegionLanding_traces {s : JitSettings} {idx : ℤ} {p : PendingRegion} (h :
    j.completeRegionLanding s idx p = some j') :
    SameTraces j j' := by
  unfold completeRegionLanding at h
  refine (recordPages_traces j idx p.pages).trans (SameTraces.trans ?_ (foldlM_traces (fun _ _ _ => landEntry_traces) h))
  exact ⟨rfl, rfl⟩

theorem noteMissed_traces (j : JitState) (p : PendingBlock) (previous : Option JitBlock) : SameTraces j
    (j.noteMissed p previous) := by
  unfold noteMissed
  dsimp only
  split <;> exact ⟨rfl, rfl⟩

theorem completeBlockLanding_traces {M : Type} [FullSystemJitMachine M] {s : JitSettings} {m m' : M} {idx : ℤ} {p : PendingBlock}
    (h : completeBlockLanding s m j idx p = some (m', j')) : SameTraces j j' := by
  unfold completeBlockLanding at h
  split at h
  · exact (Prod.mk.inj (Option.some.inj h)).2 ▸ .refl j
  · split at h
    · exact (Prod.mk.inj (Option.some.inj h)).2 ▸ .refl j
    · obtain ⟨j1, h1, h2⟩ := Option.map_eq_some_iff.1 h
      obtain ⟨-, rfl⟩ := Prod.mk.inj h2
      exact (landBlock_traces h1).trans (noteMissed_traces j1 p _)

theorem finishPage_traces (ticket aspace : U64) (landed : Bool) (j : JitState) (page : U64 × U64) : SameTraces j
    (finishPage ticket aspace landed j page) := by
  unfold finishPage
  dsimp only
  split
  · exact .refl j
  · split <;> exact ⟨rfl, rfl⟩

theorem finish_traces (j : JitState) (ticket aspace : U64) (pages : List (U64 × U64)) (landed : Bool) :
    SameTraces j (j.finishPendingSuperblock ticket aspace pages landed) := by
  unfold finishPendingSuperblock
  induction pages generalizing j with
  | nil => exact .refl j
  | cons page pages ih => exact (finishPage_traces ticket aspace landed j page).trans (ih _)

theorem finishPendingPageModule_traces (j : JitState) (ticket : U64) (batch : PendingBatch) (finish : PageModuleFinish) :
    SameTraces j (j.finishPendingPageModule ticket batch finish).2 := by
  unfold finishPendingPageModule recordPageModuleFailure
  repeat' split
  all_goals exact ⟨rfl, rfl⟩

theorem claimPage_traces {ticket aspace : U64} {page : U64 × U64} (h : claimPage ticket aspace j page = some j') :
    SameTraces j j' := by
  unfold claimPage at h
  dsimp only at h
  split at h
  · cases h
  · cases h
    exact ⟨rfl, rfl⟩

theorem spendAllowances_traces (aspace : U64) (pages : List (U64 × U64)) (j : JitState) : SameTraces j (pages.foldl
    (spendAllowance aspace) j) := by
  induction pages generalizing j with
  | nil => exact .refl j
  | cons page pages ih => exact SameTraces.trans ⟨rfl, rfl⟩ (ih _)

end JitState

namespace Dispatcher

open JitState

variable {M : Type} [FullSystemJitMachine M] {m m' : M} {d d' : Dispatcher} {a : Action}

theorem finishBatch_traces (j : JitState) (p : PendingJit) (finish : PageModuleFinish) : SameTraces j (finishBatch j p finish) := by
  unfold finishBatch
  split
  · exact finishPendingPageModule_traces j _ _ finish
  · exact .refl j

theorem releaseRegion_traces (j : JitState) (p : PendingJit) : SameTraces j (releaseRegion j p) := by
  unfold releaseRegion
  split
  · exact finish_traces j _ _ _ _
  · exact .refl j

theorem retirePrior_traces {j j' : JitState} {prior : Option JitOwnerId} {owner : JitOwnerId} (h :
    retirePrior j prior owner = some j') :
    SameTraces j j' := by
  unfold retirePrior at h
  split at h
  · exact Option.some.inj h ▸ .refl j
  · split at h
    · exact Option.some.inj h ▸ .refl j
    · obtain ⟨c, -, rfl⟩ := Option.map_eq_some_iff.1 h
      exact ⟨rfl, rfl⟩

theorem landBatch_traces {owner : JitOwnerId} {base : ℤ} {batch : PendingBatch} (h : d.landBatch owner base batch = some d') :
    SameTraces d.jit d'.jit := by
  unfold landBatch at h
  obtain ⟨j1, h1, h⟩ := Option.bind_eq_some_iff.1 h
  obtain ⟨j2, h2, h⟩ := Option.bind_eq_some_iff.1 h
  obtain rfl := Option.some.inj h
  rw [(publishBase_jit { d with jit := j2 } base batch).1]
  have hfinish := finishPendingPageModule_traces d.jit owner batch (.landed owner)
  have hmembers : SameTraces _ j1 := foldlM_traces (fun _ _ _ => landMember_traces) h1
  exact (hfinish.trans hmembers).trans (retirePrior_traces h2)

theorem land_traces {p : PendingJit} {base : ℤ} (h : d.land m p base = some (m', d')) : SameTraces d.jit d'.jit := by
  unfold land at h
  split at h
  · obtain ⟨j, hj, h⟩ := Option.map_eq_some_iff.1 h
    obtain ⟨-, rfl⟩ := Prod.mk.inj h
    exact (finish_traces d.jit _ _ _ _).trans (completeRegionLanding_traces hj)
  · obtain ⟨⟨m1, j⟩, hj, h⟩ := Option.map_eq_some_iff.1 h
    obtain ⟨-, rfl⟩ := Prod.mk.inj h
    exact completeBlockLanding_traces hj
  · obtain ⟨d1, hd, h⟩ := Option.map_eq_some_iff.1 h
    obtain ⟨-, rfl⟩ := Prod.mk.inj h
    exact landBatch_traces hd

/-- However a compile ends, the traces and the counts that its removal left stay. -/
theorem settle_traces {p : PendingJit} {base : ℤ} {slotCount : ℕ} (h : d.settle m p base slotCount = some (m', d')) :
    SameTraces d.jit d'.jit := by
  unfold settle at h
  cases ho : d.outcome m p base slotCount <;> rw [ho] at h
  case wrongSlotCount =>
    obtain ⟨-, rfl⟩ := Prod.mk.inj (Option.some.inj h)
    exact (finishBatch_traces d.jit p .failed).trans ⟨rfl, rfl⟩
  case superseded =>
    obtain ⟨-, rfl⟩ := Prod.mk.inj (Option.some.inj h)
    exact ((releaseRegion_traces d.jit p).trans (finishBatch_traces _ p .cancelled)).trans ⟨rfl, rfl⟩
  case capacity =>
    obtain ⟨d1, hd, h⟩ := Option.map_eq_some_iff.1 h
    obtain ⟨-, rfl⟩ := Prod.mk.inj h
    obtain ⟨c, -, rfl⟩ := Option.map_eq_some_iff.1 hd
    exact ((releaseRegion_traces d.jit p).trans (finishBatch_traces _ p .cancelled)).trans ⟨rfl, rfl⟩
  case failed =>
    obtain ⟨-, rfl⟩ := Prod.mk.inj (Option.some.inj h)
    exact (releaseRegion_traces d.jit p).trans (finishBatch_traces _ p .failed)
  case stale =>
    obtain ⟨c, -, h⟩ := Option.bind_eq_some_iff.1 h
    obtain ⟨-, rfl⟩ := Prod.mk.inj (Option.some.inj h)
    have hc : SameTraces d.jit { d.jit with toOwnedCode := c } := ⟨rfl, rfl⟩
    exact ((hc.trans (releaseRegion_traces _ p)).trans (finishBatch_traces _ p .cancelled)).trans ⟨rfl, rfl⟩
  case landed =>
    obtain ⟨c, -, h⟩ := Option.bind_eq_some_iff.1 h
    obtain ⟨⟨m1, d1⟩, hl, h⟩ := Option.bind_eq_some_iff.1 h
    obtain ⟨-, rfl⟩ := Prod.mk.inj (Option.some.inj h)
    have hc : SameTraces d.jit { d.jit with toOwnedCode := c } := ⟨rfl, rfl⟩
    have hland := land_traces hl
    exact (hc.trans hland).trans ⟨rfl, rfl⟩

/-! ## Steps that issue one compile at most -/

/-- The traces and the counts stay, and one compile is issued at most, where one may be. -/
structure Issues (d d' : Dispatcher) : Prop where
  traces : SameTraces d.jit d'.jit
  pending : d'.pendingJit = d.pendingJit ∨ d.fullSystemJitIssueAllowed = true ∧ ∃ p, d'.pendingJit = d.pendingJit ++ [p]
  allowed : d'.fullSystemJitIssueAllowed = true → d.fullSystemJitIssueAllowed = true

theorem Issues.of_jit {j : JitState} (h : SameTraces d.jit j) : Issues d { d with jit := j } := ⟨h, .inl rfl, id⟩

theorem submit_issues {kind : PendingJitKind} {s : U64 × Dispatcher} (h : d.submitPendingJit kind = some s) : Issues d s.2 := by
  unfold submitPendingJit at h
  split at h
  · cases h
  · rename_i hallowed
    rw [Bool.not_eq_true', Bool.not_eq_false] at hallowed
    cases h
    exact ⟨.refl _, .inr ⟨hallowed, _, rfl⟩, fun _ => hallowed⟩

theorem Issues.with_jit {j : JitState} (h : Issues d d') (hj : SameTraces d'.jit j) : Issues d { d' with jit := j } :=
  ⟨h.traces.trans hj, h.pending, h.allowed⟩

theorem Builds.issues (h : Builds d d') : Issues d d' := by
  cases h with
  | none => exact .of_jit (.refl _)
  | issue r gen hr h =>
    obtain ⟨s, hs, h⟩ := Option.bind_eq_some_iff.1 h
    obtain ⟨j, hj, h⟩ := Option.bind_eq_some_iff.1 h
    cases h
    have hclaims : SameTraces s.2.jit j := foldlM_traces (fun _ _ _ => claimPage_traces) hj
    exact (submit_issues hs).with_jit (hclaims.trans ⟨rfl, rfl⟩)

theorem issuePageModule_issues (d : Dispatcher) (key : PageKey) (source : PageModuleSource) (batch : Option PendingBatch) :
    Issues d (d.issuePageModule key source batch) := by
  unfold issuePageModule
  split
  · exact .of_jit (.refl _)
  · exact .of_jit (.refl _)
  · split
    · unfold recordPageModuleFailure
      split <;> exact .of_jit ⟨rfl, rfl⟩
    · split
      · exact .of_jit (.refl _)
      · rename_i s hs
        exact (submit_issues hs).with_jit ⟨rfl, rfl⟩

end Dispatcher

/-- The steps of a round of the run loop, after its staged traces were looked at. -/
def Dispatcher.Action.inRound : Dispatcher.Action → Bool
  | .touch | .resolve | .extendInline | .dropBailing | .demote | .queueExtension | .extend | .queuePage | .buildQueued | .count _
  | .build | .recordEntry | .pageModule | .block | .batch | .blacklist | .observe => true
  | _ => false

namespace Dispatcher

open JitState

variable {M : Type} [FullSystemJitMachine M] {m m' : M} {d d' : Dispatcher} {a : Action}

theorem Step.issues (hs : Step m d a d') (ha : a.inRound = true) : Issues d d' := by
  cases hs with
  | touch pc => exact .of_jit ⟨rfl, rfl⟩
  | resolve h => exact .of_jit ⟨rfl, rfl⟩
  | extendInline h => exact .of_jit ⟨rfl, rfl⟩
  | dropBailing h => exact .of_jit ⟨rfl, rfl⟩
  | demote h =>
    unfold demoteRegion at h
    split at h
    · cases h
      exact .of_jit (.refl _)
    · obtain ⟨c, -, rfl⟩ := Option.map_eq_some_iff.1 h
      exact .of_jit (spendAllowances_traces _ _ { d.jit with toOwnedCode := c })
  | queueExtension h => exact .of_jit ⟨rfl, rfl⟩
  | extend hidx hq sampling h => exact ⟨h.issues.traces, h.issues.pending, h.issues.allowed⟩
  | queuePage ht key => exact .of_jit ⟨rfl, rfl⟩
  | buildQueued hk h => exact ⟨h.issues.traces, h.issues.pending, h.issues.allowed⟩
  | count pc hc => exact .of_jit ⟨rfl, rfl⟩
  | build ht h => exact h.issues
  | recordEntry ht aspace hot =>
    cases hot
    · exact .of_jit ⟨rfl, rfl⟩
    · exact .of_jit ⟨rfl, rfl⟩
  | pageModule ht key source batch hb => exact issuePageModule_issues d key source batch
  | block ht h => exact submit_issues h
  | batch ht hp h => exact ⟨(submit_issues h).traces, (submit_issues h).pending, (submit_issues h).allowed⟩
  | blacklist ht h =>
    obtain ⟨c, -, rfl⟩ := Option.map_eq_some_iff.1 h
    exact .of_jit ⟨rfl, rfl⟩
  | observe pc interp warm tiered ht =>
    refine .of_jit ?_
    unfold recordWarm
    cases warm
    · exact ⟨rfl, rfl⟩
    · exact ⟨rfl, rfl⟩
  | _ => cases ha

end Dispatcher

/-! ## Confirmed batches -/

/-- The dispatcher with the host's settings of confirmed batches. -/
structure ConfirmedDispatcher where
  dispatcher : Dispatcher
  confirmedBatchOn : Bool
  confirmedBatchTarget : ℕ

/-- The bodies of the compiles in flight. -/
def Dispatcher.pendingBodies (d : Dispatcher) : List PendingBlock := d.pendingJit.flatMap fun p => p.kind.bodies

/-- The traces of staged bodies and of bodies in flight. -/
def Dispatcher.bodies (d : Dispatcher) : List PendingBlock := d.jit.confirmedStage ++ d.pendingBodies

/-- A compile that is issued otherwise than from the staged traces carries no trace. -/
def Dispatcher.Untraced (d d' : Dispatcher) : Prop :=
  ∀ p ∈ d'.pendingJit.drop d.pendingJit.length, ∀ b ∈ p.kind.bodies, b.tracePcs = []

/-- The steps of one round. -/
inductive Dispatcher.Round (M : Type) [FullSystemJitMachine M] (d : Dispatcher) : Dispatcher → Prop
  | refl : Round M d d
  | step {m : M} {d₁ d₂ : Dispatcher} {a : Dispatcher.Action} (h : Round M d d₁) (ha : a.inRound = true) (hu : d₁.Untraced d₂)
      (hs : d₁.Step m a d₂) : Round M d d₂

namespace ConfirmedDispatcher

def new (settings : JitSettings) : ConfirmedDispatcher := ⟨.new settings, false, 8⟩

def jitSetConfirmedBatch (c : ConfirmedDispatcher) (on : Bool) : ConfirmedDispatcher := { c with confirmedBatchOn := on }

def jitSetConfirmedBatchTarget (c : ConfirmedDispatcher) (target : ℕ) : ConfirmedDispatcher :=
  { c with confirmedBatchTarget := max 2 (min target 64) }

/-- What happens next. -/
inductive Event
  | plain (a : Dispatcher.Action)
  | flush
  | confirm
  | setBatch
  | setTarget
  deriving DecidableEq

/-- A step; a trace is staged in a round that found too few of them for a batch when it began. -/
inductive Step (M : Type) [FullSystemJitMachine M] (c : ConfirmedDispatcher) : Event → ConfirmedDispatcher → Prop
  | plain {m : M} {a : Dispatcher.Action} {d : Dispatcher} (h : c.dispatcher.Step m a d) (ha : a ≠ .stage ∧ a ≠ .submitStage)
      (hu : c.dispatcher.Untraced d) : Step M c (.plain a) { c with dispatcher := d }
  | flush {d : Dispatcher} {cell : ℕ} {sequence : U64} (hon : c.confirmedBatchOn = true)
      (h : c.dispatcher.submitConfirmedStage c.confirmedBatchTarget cell sequence = some d) :
        Step M c .flush { c with dispatcher := d }
  | confirm {d d' : Dispatcher} {p : PendingBlock} (traced : List U64) (cell : ℕ) (sequence : U64) (hon : c.confirmedBatchOn = true)
      (hround : ∀ cell sequence, c.dispatcher.submitConfirmedStage c.confirmedBatchTarget cell sequence = none)
      (hd : c.dispatcher.Round M d) (hallowed : d.fullSystemJitIssueAllowed = true) (hcovered : d.jit.confirmedCoverage
        (p.aspace, p.pc) = none)
      (hd' : d.Round M d') (ht : d'.Tiered p.pc) (hp : p.tracePcs = JitState.sortDedup (traced ++ p.seeds)) :
      Step M c .confirm { c with
        dispatcher := ((d'.stage p).submitConfirmedStage c.confirmedBatchTarget cell sequence).getD (d'.stage p) }
  | setBatch (on : Bool) : Step M c .setBatch (c.jitSetConfirmedBatch on)
  | setTarget (target : ℕ) : Step M c .setTarget (c.jitSetConfirmedBatchTarget target)

/-- The states of the runs from a first one whose steps all meet `P`. -/
inductive Run (M : Type) [FullSystemJitMachine M] (P : ConfirmedDispatcher → Event → Prop) (c₀ : ConfirmedDispatcher) :
  ConfirmedDispatcher → Prop
  | start : Run M P c₀ c₀
  | step {c c' : ConfirmedDispatcher} {e : Event} (h : Run M P c₀ c) (hP : P c e) (hs : c.Step M e c') : Run M P c₀ c'

end ConfirmedDispatcher

/-! ## Exact counts -/

open JitState in
/-- The removal of some traces meets, for each pc, the count of its occurrences that are left. -/
def RemovesOwn (coverage : HashMap (U64 × U64) ℕ) (removed kept : List PendingBlock) : Prop :=
  ∀ before key after, traceKeys removed = before ++ key :: after →
    uncoverAll coverage before key = some ((key :: after ++ traceKeys kept).count key)

/-- The counts are exact, and the end of any trace that is staged or in flight removes its own. -/
structure CoverageExact (d : Dispatcher) : Prop where
  counts : ∀ aspace pc, d.jit.confirmedCoverage (aspace, pc) = counted (occurrences d.bodies aspace pc)
  nonzero : ∀ key, d.jit.confirmedCoverage key ≠ some 0
  dirty : ∀ (pages : List U64) (ppage : U64),
    RemovesOwn (pages.foldl JitState.dropStaged d.jit).confirmedCoverage
      ((pages.foldl JitState.dropStaged d.jit).confirmedStage.filter (JitState.sourceDirty ppage))
      ((pages.foldl JitState.dropStaged d.jit).confirmedStage.filter (fun b => !JitState.sourceDirty ppage b) ++ d.pendingBodies)
  complete : ∀ ticket pos p, d.findPending ticket = some (pos, p) →
    RemovesOwn d.jit.confirmedCoverage p.kind.bodies
      (d.jit.confirmedStage ++ (Dispatcher.swapRemove d.pendingJit pos).flatMap fun p => p.kind.bodies)

section Exact

open JitState

variable {d d' : Dispatcher} {j : JitState} {kept : List PendingBlock}

theorem removesOwn_of_counts {coverage : HashMap (U64 × U64) ℕ} {removed : List PendingBlock}
    (h : Counts coverage (traceKeys removed ++ traceKeys kept)) : RemovesOwn coverage removed kept := by
  intro before key after hkeys
  rw [uncoverAll_eq]
  exact RefCounts.Counts.release_meets h hkeys

theorem filter_perm (stage : List PendingBlock) (p : PendingBlock → Bool) :
    (traceKeys stage).Perm (traceKeys (stage.filter p) ++ traceKeys (stage.filter fun b => !p b)) := by
  rw [← traceKeys_append]
  exact traceKeys_perm (List.filter_append_perm p stage).symm

/-- What the counts of a state are for: the staged bodies, and others. -/
def Covers (j : JitState) (kept : List PendingBlock) : Prop := Counts j.confirmedCoverage
    (traceKeys j.confirmedStage ++ traceKeys kept)

theorem Covers.dirty (h : Covers j kept) (ppage : U64) : Counts j.confirmedCoverage
    (traceKeys (j.confirmedStage.filter (sourceDirty ppage)) ++ traceKeys (j.confirmedStage.filter
      (fun b => !sourceDirty ppage b) ++ kept)) := by
  refine h.perm ?_
  rw [traceKeys_append, ← List.append_assoc]
  exact (filter_perm _ _).append_right _

theorem Covers.dropStaged (h : Covers j kept) (ppage : U64) : Covers (j.dropStaged ppage) kept := by
  obtain ⟨hstage, hcov⟩ := dropStaged_coverage j ppage
  unfold Covers
  rw [hstage, hcov, uncoverAll_eq, ← traceKeys_append]
  exact (h.dirty ppage).releaseAll

theorem Covers.dropAll (h : Covers j kept) (pages : List U64) : Covers (pages.foldl JitState.dropStaged j) kept := by
  induction pages generalizing j with
  | nil => exact h
  | cons page pages ih => exact ih (h.dropStaged page)

theorem Covers.same {j' : JitState} (h : Covers j kept) (hs : SameTraces j j') : Covers j' kept := by
  unfold Covers
  rw [hs.1, hs.2]
  exact h

/-- The counts cover a completed compile and what stays in flight. -/
theorem Covers.taken {ticket : U64} {pos : ℕ} {p : PendingJit} (h : Covers d.jit d.pendingBodies) (hf :
    d.findPending ticket = some (pos, p)) :
    Counts d.jit.confirmedCoverage (traceKeys p.kind.bodies ++
      traceKeys (d.jit.confirmedStage ++ (Dispatcher.swapRemove d.pendingJit pos).flatMap fun p => p.kind.bodies)) := by
  refine h.perm ?_
  have hperm : d.pendingBodies.Perm (p.kind.bodies ++ (Dispatcher.swapRemove d.pendingJit pos).flatMap fun p => p.kind.bodies) := by
    have := (Dispatcher.findPending_some hf).2.symm.flatMap_right fun p : PendingJit => p.kind.bodies
    rwa [List.flatMap_cons] at this
  rw [← traceKeys_append, ← traceKeys_append]
  refine traceKeys_perm ((hperm.append_left _).trans ?_)
  rw [← List.append_assoc, ← List.append_assoc]
  exact List.perm_append_comm.append_right _

/-- **Exact counts** are removed exactly. -/
theorem Covers.exact (h : Covers d.jit d.pendingBodies) : CoverageExact d where
  counts aspace pc := by
    rw [h (aspace, pc), ← traceKeys_append]
    exact congrArg counted (count_traceKeys _ aspace pc)
  nonzero key := by
    rw [h key]
    unfold counted
    split
    · exact fun he => by cases he
    · rename_i hne
      exact fun he => hne (Option.some.inj he)
  dirty pages ppage := removesOwn_of_counts ((h.dropAll pages).dirty ppage)
  complete _ _ _ hf := removesOwn_of_counts (h.taken hf)

end Exact

/-! ## Steps -/

namespace Dispatcher

open JitState

variable {M : Type} [FullSystemJitMachine M] {m m' : M} {d d' : Dispatcher} {a : Action}

/-- The counts are exact, and there are few bodies: a body names a pc once, so that no count saturates. -/
structure Traced (d : Dispatcher) : Prop where
  covers : Covers d.jit d.pendingBodies
  staged : d.jit.confirmedStage.length ≤ 64
  distinct : ∀ b ∈ d.jit.confirmedStage, b.tracePcs.Nodup
  pending : d.pendingJit.length ≤ MAX_PENDING_JIT
  batches : ∀ p ∈ d.pendingJit, ∀ key, (traceKeys p.kind.bodies).count key ≤ 64

theorem pending_lt (h : d.fullSystemJitIssueAllowed = true) : d.pendingJit.length < MAX_PENDING_JIT := by
  unfold fullSystemJitIssueAllowed at h
  rw [Bool.and_eq_true, Bool.and_eq_true] at h
  exact of_decide_eq_true h.1.2

/-- No pc has more occurrences than there are bodies. -/
theorem Traced.count_le (h : Traced d) (key : U64 × U64) : (traceKeys d.bodies).count key ≤ 320 := by
  have hpending : ∀ pending : List PendingJit, (∀ p ∈ pending, ∀ key, (traceKeys p.kind.bodies).count key ≤ 64) →
      (traceKeys (pending.flatMap fun p => p.kind.bodies)).count key ≤ 64 * pending.length := by
    intro pending hp
    induction pending with
    | nil => exact Nat.le_refl 0
    | cons p pending ih =>
      have hone := hp p List.mem_cons_self key
      have hrest := ih fun q hq => hp q (List.mem_cons_of_mem _ hq)
      rw [List.flatMap_cons, traceKeys_append, List.count_append, List.length_cons]
      omega
  have hstaged := count_le_length h.distinct key
  have hflight := hpending d.pendingJit h.batches
  have hfew := h.pending
  have hsome := h.staged
  unfold Dispatcher.bodies Dispatcher.pendingBodies
  rw [traceKeys_append, List.count_append]
  unfold MAX_PENDING_JIT at hfew
  omega

theorem traceKeys_untraced {bodies : List PendingBlock} (h : ∀ b ∈ bodies, b.tracePcs = []) : traceKeys bodies = [] := by
  refine List.flatMap_eq_nil_iff.2 fun b hb => ?_
  unfold PendingBlock.traceKeys
  rw [h b hb]
  rfl

/-- A step that leaves the traces alone keeps the counts exact. -/
theorem Traced.issues (h : Traced d) (hi : Issues d d') (hu : d.Untraced d') : Traced d' := by
  have hstage := hi.traces.1
  have hstaged : d'.jit.confirmedStage.length ≤ 64 := by
    rw [hstage]
    exact h.staged
  have hdistinct : ∀ b ∈ d'.jit.confirmedStage, b.tracePcs.Nodup := by
    rw [hstage]
    exact h.distinct
  have hcovers := h.covers.same hi.traces
  rcases hi.pending with hp | ⟨hallowed, p, hp⟩
  · refine ⟨?_, hstaged, hdistinct, hp ▸ h.pending, hp ▸ h.batches⟩
    unfold pendingBodies
    rw [hp]
    exact hcovers
  · have hlt := pending_lt hallowed
    have hnew : traceKeys p.kind.bodies = [] := by
      refine traceKeys_untraced (hu p ?_)
      rw [hp, List.drop_left]
      exact List.mem_singleton_self p
    refine ⟨?_, hstaged, hdistinct, by rw [hp, List.length_append, List.length_singleton]; omega, fun q hq key => ?_⟩
    · have hsame : traceKeys d'.pendingBodies = traceKeys d.pendingBodies := by
        unfold pendingBodies
        rw [hp, List.flatMap_append, traceKeys_append, List.flatMap_singleton, hnew, List.append_nil]
      unfold Covers
      rw [hsame]
      exact hcovers
    · rw [hp] at hq
      rcases List.mem_append.1 hq with hold | hq
      · exact h.batches q hold key
      · rw [List.mem_singleton.1 hq, hnew]
        exact Nat.zero_le _

theorem Traced.round (h : Traced d) (hr : d.Round M d') : Traced d' ∧ d'.jit.confirmedStage = d.jit.confirmedStage ∧
    (d'.fullSystemJitIssueAllowed = true → d.fullSystemJitIssueAllowed = true) := by
  induction hr with
  | refl => exact ⟨h, rfl, id⟩
  | step _ ha hu hs ih =>
    obtain ⟨ht, hstage, hallowed⟩ := ih
    have hi := hs.issues ha
    exact ⟨ht.issues hi hu, hi.traces.1.trans hstage, fun hd => hallowed (hi.allowed hd)⟩

theorem Traced.drain {dirty : List U64} {s s' : Drain} {kept : List PendingBlock} (h : Covers s.jit kept)
    (hd : dirty.foldlM drainPage s = some s') : Covers s'.jit kept ∧ s'.jit.confirmedStage.Sublist s.jit.confirmedStage := by
  induction dirty generalizing s with
  | nil =>
    cases hd
    exact ⟨h, .refl _⟩
  | cons page dirty ih =>
    rw [List.foldlM_cons] at hd
    obtain ⟨s1, h1, hd⟩ := Option.bind_eq_some_iff.1 hd
    unfold drainPage at h1
    obtain ⟨c, -, rfl⟩ := Option.map_eq_some_iff.1 h1
    have hpage : Covers ({ s.jit.dropStaged page with toOwnedCode := c } : JitState) kept := h.dropStaged page
    obtain ⟨hcovers, hsub⟩ := ih hpage hd
    exact ⟨hcovers, hsub.trans List.filter_sublist⟩

/-- A completed compile releases what it covered. -/
theorem Traced.complete {ticket : U64} {base : ℤ} {slotCount : ℕ} (h : Traced d)
    (hc : d.completeJit m ticket base slotCount = some (m', d')) : Traced d' := by
  unfold completeJit at hc
  cases hf : d.findPending ticket with
  | none =>
    rw [hf] at hc
    obtain ⟨-, rfl⟩ := Prod.mk.inj (Option.some.inj hc)
    exact ⟨h.covers.same ⟨rfl, rfl⟩, h.staged, h.distinct, h.pending, h.batches⟩
  | some s =>
    obtain ⟨pos, p⟩ := s
    rw [hf] at hc
    dsimp only at hc
    have hsame := settle_traces hc
    have hpending : d'.pendingJit = swapRemove d.pendingJit pos := (settle_claims hc).2
    obtain ⟨hstage, hcov⟩ := removePendingCoverage_coverage d.jit p.kind
    have hstaged : d'.jit.confirmedStage = d.jit.confirmedStage := hsame.1.trans hstage
    have hperm := (findPending_some hf).2
    refine ⟨?_, by rw [hstaged]; exact h.staged, by rw [hstaged]; exact h.distinct, ?_, fun q hq => ?_⟩
    · have hcov' : d'.jit.confirmedCoverage = (traceKeys p.kind.bodies).foldl release d.jit.confirmedCoverage := by
        rw [hsame.2, ← uncoverAll_eq, ← hcov]
        rfl
      unfold Covers pendingBodies
      rw [hcov', hstaged, hpending, ← traceKeys_append]
      exact (h.covers.taken hf).releaseAll
    · have := hperm.length_eq
      have hle := h.pending
      rw [hpending]
      rw [List.length_cons] at this
      omega
    · rw [hpending] at hq
      exact h.batches q (hperm.subset (List.mem_cons_of_mem _ hq))

/-- **One step** other than of the staged traces, if it does not forget the counts of traces in flight. -/
theorem Traced.step (h : Traced d) (hs : Step m d a d') (ha : a ≠ .stage ∧ a ≠ .submitStage) (hu : d.Untraced d')
    (hd : a = .disable → traceKeys d.pendingBodies = []) : Traced d' := by
  by_cases hround : a.inRound = true
  · exact h.issues (hs.issues hround) hu
  cases hs with
  | beginRun => exact ⟨h.covers.same ⟨rfl, rfl⟩, h.staged, h.distinct, h.pending, h.batches⟩
  | switchSpace gen entriesFull hotFull =>
    have hsame : SameTraces d.jit (d.jit.switchSpace gen entriesFull hotFull) := by
      unfold JitState.switchSpace
      cases entriesFull <;> cases hotFull <;> exact ⟨rfl, rfl⟩
    exact ⟨h.covers.same hsame, hsame.1 ▸ h.staged, hsame.1 ▸ h.distinct, h.pending, h.batches⟩
  | @drain dirty s owners j hdirty ho hj =>
    obtain ⟨hcovers, hsub⟩ := Traced.drain h.covers hdirty
    have hsame : SameTraces s.jit j := by
      unfold invalidateSuperblockState at hj
      obtain ⟨c, -, rfl⟩ := Option.map_eq_some_iff.1 hj
      exact ⟨rfl, rfl⟩
    have hstage : j.confirmedStage.Sublist d.jit.confirmedStage := hsame.1 ▸ hsub
    exact ⟨hcovers.same hsame, le_trans hstage.length_le h.staged, fun b hb => h.distinct b (hstage.subset hb), h.pending,
      h.batches⟩
  | complete hc => exact h.complete hc
  | enable => exact ⟨h.covers.same ⟨rfl, rfl⟩, h.staged, h.distinct, h.pending, h.batches⟩
  | threshold t => exact ⟨h.covers.same ⟨rfl, rfl⟩, h.staged, h.distinct, h.pending, h.batches⟩
  | disable =>
    refine ⟨fun key => ?_, Nat.zero_le _, fun b hb => absurd hb List.not_mem_nil, h.pending, h.batches⟩
    have hnone : traceKeys (d.jitSetEnabled false).pendingBodies = [] := hd rfl
    rw [hnone]
    rfl
  | reset => exact ⟨fun _ => rfl, Nat.zero_le _, fun b hb => absurd hb List.not_mem_nil, Nat.zero_le _,
      fun p hp => absurd hp List.not_mem_nil⟩
  | stage ht => exact absurd rfl ha.1
  | submitStage ht hsub => exact absurd rfl ha.2
  | _ => exact absurd rfl hround

/-- The first staged traces go into a compile together. -/
theorem Traced.flush {target cell : ℕ} {sequence : U64} (h : Traced d) (ht : target ≤ 64)
    (hs : d.submitConfirmedStage target cell sequence = some d') : Traced d' := by
  unfold submitConfirmedStage at hs
  split at hs
  · cases hs
  · obtain ⟨s, hsub, rfl⟩ := Option.map_eq_some_iff.1 hs
    unfold submitPendingJit at hsub
    split at hsub
    · cases hsub
    · rename_i hallowed
      rw [Bool.not_eq_true', Bool.not_eq_false] at hallowed
      cases hsub
      have hlt := pending_lt hallowed
      refine ⟨?_, ?_, fun b hb => h.distinct b (List.mem_of_mem_drop hb), ?_, fun q hq key => ?_⟩
      · refine h.covers.perm ?_
        unfold pendingBodies
        dsimp only
        rw [List.flatMap_append, List.flatMap_singleton, ← traceKeys_append, ← traceKeys_append]
        refine traceKeys_perm ?_
        dsimp only [PendingJitKind.bodies]
        calc (d.jit.confirmedStage ++ d.pendingJit.flatMap fun p => p.kind.bodies).Perm
              ((d.jit.confirmedStage.drop target ++ d.jit.confirmedStage.take target) ++
                d.pendingJit.flatMap fun p => p.kind.bodies) :=
              (List.perm_append_comm.trans (by rw [List.take_append_drop])).symm.append_right _
          _ |>.Perm _ := by
              rw [List.append_assoc]
              exact List.perm_append_comm.append_left _
      · have hsome := h.staged
        dsimp only
        rw [List.length_drop]
        omega
      · dsimp only
        rw [List.length_append, List.length_singleton]
        omega
      · rcases List.mem_append.1 hq with hq | hq
        · exact h.batches q hq key
        · rw [List.mem_singleton.1 hq]
          have hcount := count_le_length (fun b hb => h.distinct b (List.mem_of_mem_take hb) :
            ∀ b ∈ d.jit.confirmedStage.take target, _) key
          exact le_trans hcount (le_trans (List.length_take_le _ _) ht)

theorem nodup_sortDedup (pcs : List U64) : (sortDedup pcs).Nodup := by
  unfold sortDedup
  induction pcs with
  | nil => exact List.nodup_nil
  | cons pc pcs ih => exact SortedSet.nodup_insert ih

/-- A trace is counted when it is staged. -/
theorem Traced.stage (h : Traced d) {p : PendingBlock} (hp : p.tracePcs.Nodup) (hroom : d.jit.confirmedStage.length < 64) :
    Traced (d.stage p) := by
  refine ⟨?_, ?_, fun b hb => ?_, h.pending, h.batches⟩
  · have hcount : ∀ key, (p.traceKeys ++ traceKeys d.bodies).count key ≤ 65535 := fun key => by
      have hone : p.traceKeys.count key ≤ 1 := by
        refine List.nodup_iff_count_le_one.1 ?_ key
        exact hp.map fun _ _ he => (Prod.mk.inj he).2
      have := h.count_le key
      rw [List.count_append]
      omega
    have hcovers : Counts d.jit.confirmedCoverage (traceKeys d.bodies) := by
      unfold Dispatcher.bodies
      rw [traceKeys_append]
      exact h.covers
    have hcounts := hcovers.retainAll hcount
    rw [← addConfirmedCoverage_coverage] at hcounts
    refine hcounts.perm ?_
    have hone : traceKeys [p] = p.traceKeys := List.flatMap_singleton ..
    have hbodies : traceKeys d.bodies = traceKeys d.jit.confirmedStage ++ traceKeys d.pendingBodies := traceKeys_append _ _
    have hstaged : traceKeys (d.stage p).jit.confirmedStage = traceKeys d.jit.confirmedStage ++ p.traceKeys := by
      rw [← hone, ← traceKeys_append]
      rfl
    rw [hbodies, hstaged, ← List.append_assoc]
    exact List.perm_append_comm.append_right _
  · show (d.jit.confirmedStage ++ [p]).length ≤ 64
    rw [List.length_append, List.length_singleton]
    omega
  · rcases List.mem_append.1 hb with hb | hb
    · exact h.distinct b hb
    · rw [List.mem_singleton.1 hb]
      exact hp

/-- A round that issues no batch of staged traces found too few of them, or may issue none. -/
theorem few_staged {target : ℕ} (h : ∀ cell sequence, d.submitConfirmedStage target cell sequence = none)
    (hallowed : d.fullSystemJitIssueAllowed = true) : d.jit.confirmedStage.length < target := by
  by_contra hn
  have hnone := h 0 0
  unfold submitConfirmedStage submitPendingJit at hnone
  rw [if_neg hn, hallowed] at hnone
  cases hnone

end Dispatcher

namespace ConfirmedDispatcher

open Dispatcher

variable {M : Type} [FullSystemJitMachine M] {c c' : ConfirmedDispatcher} {e : Event}

/-- The JIT is not switched off while a compile of a trace is in flight. -/
def KeepsTraces (c : ConfirmedDispatcher) (e : Event) : Prop :=
  e = .plain .disable → traceKeys c.dispatcher.pendingBodies = []

structure Sound (c : ConfirmedDispatcher) : Prop where
  traced : Traced c.dispatcher
  target : c.confirmedBatchTarget ≤ 64

/-- **Every step** keeps the counts exact, if a switch-off finds no trace in flight. -/
theorem Sound.step (h : Sound c) (hP : KeepsTraces c e) (hs : c.Step M e c') : Sound c' := by
  cases hs with
  | plain hs ha hu => exact ⟨h.traced.step hs ha hu fun hd => hP (by rw [hd]), h.target⟩
  | flush hon hs => exact ⟨h.traced.flush h.target hs, h.target⟩
  | @confirm d d' p traced cell sequence hon hround hd hallowed hcovered hd' ht hp =>
    obtain ⟨ht1, hstage1, hallowed1⟩ := h.traced.round hd
    obtain ⟨ht2, hstage2, -⟩ := ht1.round hd'
    have hfew := few_staged hround (hallowed1 hallowed)
    have hroom : d'.jit.confirmedStage.length < 64 := by
      have := h.target
      rw [hstage2, hstage1]
      omega
    have hstaged := ht2.stage (hp ▸ nodup_sortDedup _) hroom
    refine ⟨?_, h.target⟩
    dsimp only
    cases hsub : (d'.stage p).submitConfirmedStage c.confirmedBatchTarget cell sequence with
    | none => exact hstaged
    | some s => exact hstaged.flush h.target hsub
  | setBatch on => exact ⟨h.traced, h.target⟩
  | setTarget target => exact ⟨h.traced, max_le (by decide) (min_le_right _ _)⟩

theorem sound_new (settings : JitSettings) : Sound (new settings) :=
  ⟨⟨fun _ => rfl, Nat.zero_le _, fun b hb => absurd hb List.not_mem_nil, Nat.zero_le _, fun p hp => absurd hp List.not_mem_nil⟩,
    (by decide : 8 ≤ 64)⟩

theorem Sound.run {c₀ : ConfirmedDispatcher} (h₀ : Sound c₀) (h : Run M KeepsTraces c₀ c) : Sound c := by
  induction h with
  | start => exact h₀
  | step _ hP hs ih => exact ih.step hP hs

/-- **In every run** that never switches the JIT off while a compile of a trace is in flight, the counts are exact. -/
theorem coverage_exact {settings : JitSettings} (h : Run M KeepsTraces (new settings) c) : CoverageExact c.dispatcher :=
  ((sound_new settings).run h).traced.covers.exact

/-! ## Two traces in a batch -/

def tracedBlock (pc : U64) : PendingBlock := { resetBlock with pc := pc, tracePcs := [pc] }

/-- A first hot pc, in batches of two. -/
def hotConfirmed : ConfirmedDispatcher := ⟨hotDispatcher, true, 2⟩

/-- One trace is staged, and a second pc is hot. -/
def oneStaged : ConfirmedDispatcher :=
  { hotConfirmed with dispatcher := (hotDispatcher.stage (tracedBlock 0x80000000)).countPc 0x80000010 }

/-- Both traces are in flight. -/
def inFlight : ConfirmedDispatcher := { oneStaged with
  dispatcher := ((oneStaged.dispatcher.stage (tracedBlock 0x80000010)).submitConfirmedStage 2 0 0).getD
    (oneStaged.dispatcher.stage (tracedBlock 0x80000010)) }

theorem reach_inFlight {P : ConfirmedDispatcher → Event → Prop} (hP : ∀ c e, e ≠ .plain .disable → P c e) :
    Run JitPageState P (new ⟨0, false⟩) inFlight := by
  have hon : Run JitPageState P (new ⟨0, false⟩) _ := Run.start.step (hP _ _ (by decide)) (.setBatch true)
  have htarget := hon.step (hP _ _ (by decide)) (.setTarget 2)
  have hthreshold := htarget.step (hP _ _ (by decide))
    (.plain (m := resetPages) (.threshold 1) ⟨by decide, by decide⟩ fun p hp => absurd hp List.not_mem_nil)
  have hhot : Run JitPageState P (new ⟨0, false⟩) hotConfirmed := hthreshold.step (hP _ (.plain (.count 0x80000000)) (by decide))
    (.plain (m := resetPages) (.count 0x80000000 rfl) ⟨by decide, by decide⟩ fun p hp => absurd hp List.not_mem_nil)
  have hfirst := hhot.step (hP _ _ (by decide)) (.confirm (p := tracedBlock 0x80000000) [0x80000000] 0 0 rfl
    (fun _ _ => rfl) .refl rfl rfl .refl ⟨rfl, by decide⟩ rfl)
  have hstaged : Run JitPageState P (new ⟨0, false⟩) oneStaged := hfirst.step (hP _ (.plain (.count 0x80000010)) (by decide))
    (.plain (m := resetPages) (.count 0x80000010 rfl) ⟨by decide, by decide⟩ fun p hp => absurd hp List.not_mem_nil)
  exact hstaged.step (hP _ _ (by decide)) (.confirm (p := tracedBlock 0x80000010) [0x80000010] 0 0 rfl
    (fun _ _ => rfl) .refl rfl rfl .refl ⟨rfl, by decide⟩ rfl)

theorem coverage_exact_inFlight : CoverageExact inFlight.dispatcher ∧ occurrences inFlight.dispatcher.bodies 0 0x80000010 = 1 := by
  have hrun : Run JitPageState KeepsTraces (new ⟨0, false⟩) inFlight := reach_inFlight fun c e he hdisable => absurd hdisable he
  exact ⟨coverage_exact hrun, by decide⟩

/-- A switch-off forgets the counts of traces that are in flight. -/
theorem switch_off_forgets : ¬ ∀ c, Run JitPageState (fun _ _ => True) (new ⟨0, false⟩) c → CoverageExact c.dispatcher := by
  intro hall
  have hflight : Run JitPageState (fun _ _ => True) (new ⟨0, false⟩) inFlight := reach_inFlight fun _ _ _ => trivial
  have hoff := hflight.step (e := .plain .disable) trivial
    (.plain (m := resetPages) .disable ⟨by decide, by decide⟩ fun p hp => absurd hp List.not_mem_nil)
  have hcounts := (hall _ hoff).counts 0 0x80000010
  have hone : occurrences (inFlight.dispatcher.jitSetEnabled false).bodies 0 0x80000010 = 1 := by decide
  have hnone : (inFlight.dispatcher.jitSetEnabled false).jit.confirmedCoverage (0, 0x80000010) = none := rfl
  dsimp only at hcounts
  rw [hone, hnone] at hcounts
  cases hcounts

end ConfirmedDispatcher

end Lish
