import Lish.Jit.CompleteJit
/-!
# SuperblockClaims — overlapping region builds and the pages they claim

A region build claims every page it covers until it completes.  A newer build of the same page takes the claim over, and the
page keeps what it was before the first build of the chain, so that a build that does not land can give it back.
-/
namespace Lish

namespace PendingJit

def region? (p : PendingJit) : Option PendingRegion :=
  match p.kind with
  | .region r => some r
  | .block _ => none
  | .batch _ => none

theorem region?_eq {p : PendingJit} {r : PendingRegion} : p.region? = some r ↔ p.kind = .region r := by
  unfold region?
  cases p.kind with
  | block b => exact ⟨fun h => (nomatch h), fun h => (nomatch h)⟩
  | batch b => exact ⟨fun h => (nomatch h), fun h => (nomatch h)⟩
  | region r' => exact ⟨fun h => by rw [Option.some.inj h], fun h => by rw [PendingJitKind.region.inj h]⟩

end PendingJit

/-- The pages of a build, in its address space. -/
def PendingRegion.keys (r : PendingRegion) : List PageKey := r.pages.map fun p => (r.aspace, p.1)

namespace JitState

/-! ## What a claim and its end do to a page -/

/-- The claims and the marks are the same. -/
def SameClaims (j j' : JitState) : Prop := j'.superblocked = j.superblocked ∧ j'.pendingSuperblocks = j.pendingSuperblocks

theorem SameClaims.refl (j : JitState) : SameClaims j j := ⟨rfl, rfl⟩

theorem SameClaims.trans {j j' j'' : JitState} (h : SameClaims j j') (h' : SameClaims j' j'') : SameClaims j j'' :=
  ⟨h'.1.trans h.1, h'.2.trans h.2⟩

theorem claimPage_spec {ticket aspace : U64} {j j' : JitState} {page : U64 × U64} (h : claimPage ticket aspace j page = some j') :
    (∀ k, j'.prior k = j.prior k) ∧
      (∀ k, k ≠ (aspace, page.1) → j'.pendingSuperblocks k = j.pendingSuperblocks k ∧ j'.superblocked k = j.superblocked k) ∧
      ∃ physical, j'.pendingSuperblocks (aspace, page.1) = some ⟨ticket, j.prior (aspace, page.1), physical⟩ ∧
        j'.superblocked (aspace, page.1) = true := by
  unfold claimPage at h
  split at h
  next => cases h
  next =>
    obtain rfl := Option.some.inj h
    refine ⟨fun k => ?_, fun k hk => ⟨HashMap.insert_of_ne hk, if_neg hk⟩, _, HashMap.insert_self _ _ _, if_pos rfl⟩
    by_cases hk : k = (aspace, page.1)
    · subst hk
      simp only [prior, HashMap.insert_self]
    · simp only [prior, HashMap.insert_of_ne hk, if_neg hk]

/-- **A claim takes every page over**, and remembers what it was before the chain. -/
theorem claim_spec {ticket aspace : U64} {pages : List (U64 × U64)} {j j' : JitState}
    (h : j.claimPendingSuperblock ticket aspace pages = some j') :
    (∀ k, k ∉ pages.map (fun p => (aspace, p.1)) →
      j'.pendingSuperblocks k = j.pendingSuperblocks k ∧ j'.superblocked k = j.superblocked k) ∧
      ∀ k ∈ pages.map (fun p => (aspace, p.1)), ∃ physical,
        j'.pendingSuperblocks k = some ⟨ticket, j.prior k, physical⟩ ∧ j'.superblocked k = true := by
  unfold claimPendingSuperblock at h
  induction pages generalizing j with
  | nil =>
    obtain rfl := Option.some.inj h
    exact ⟨fun _ _ => ⟨rfl, rfl⟩, fun _ hk => absurd hk List.not_mem_nil⟩
  | cons page pages ih =>
    rw [List.foldlM_cons] at h
    obtain ⟨j1, h1, h2⟩ := Option.bind_eq_some_iff.1 h
    obtain ⟨hprior, hother, physical, hpage, hmark⟩ := claimPage_spec h1
    obtain ⟨hout, hin⟩ := ih h2
    refine ⟨fun k hk => ?_, fun k hk => ?_⟩
    · rw [List.map_cons, List.mem_cons, not_or] at hk
      obtain ⟨ho1, ho2⟩ := hout k hk.2
      obtain ⟨hp1, hp2⟩ := hother k hk.1
      exact ⟨ho1.trans hp1, ho2.trans hp2⟩
    · by_cases hk' : k ∈ pages.map fun p => (aspace, p.1)
      · obtain ⟨physical, hp, hm⟩ := hin k hk'
        exact ⟨physical, by rw [hp, hprior], hm⟩
      · rw [List.map_cons, List.mem_cons] at hk
        obtain rfl := hk.resolve_right hk'
        obtain ⟨ho1, ho2⟩ := hout _ hk'
        exact ⟨physical, by rw [ho1, hpage], by rw [ho2, hmark]⟩

/-- A ticket has the claim on a page. -/
def Holds (j : JitState) (ticket : U64) (k : PageKey) : Prop := ∃ claim, j.pendingSuperblocks k = some claim ∧ claim.ticket = ticket

variable {ticket aspace : U64} {j j' : JitState} (landed : Bool)

theorem finishPage_other {page : U64 × U64} {k : PageKey} (h : k ≠ (aspace, page.1) ∨ ¬ j.Holds ticket k) :
    (finishPage ticket aspace landed j page).pendingSuperblocks k = j.pendingSuperblocks k ∧
      (finishPage ticket aspace landed j page).superblocked k = j.superblocked k := by
  unfold finishPage
  dsimp only
  cases hc : j.pendingSuperblocks (aspace, page.1) with
  | none => exact ⟨rfl, rfl⟩
  | some claim =>
    dsimp only
    split
    next => exact ⟨rfl, rfl⟩
    next ht =>
      have hk : k ≠ (aspace, page.1) := by
        rcases h with h | h
        · exact h
        · rintro rfl
          exact h ⟨claim, hc, not_not.1 ht⟩
      exact ⟨HashMap.remove_of_ne hk, if_neg fun hn => hk hn.1⟩

theorem finishPage_held {page : U64 × U64} {claim : PendingSuperblockClaim}
    (hc : j.pendingSuperblocks (aspace, page.1) = some claim) (ht : claim.ticket = ticket) :
    (finishPage ticket aspace landed j page).pendingSuperblocks (aspace, page.1) = none ∧
      (finishPage ticket aspace landed j page).superblocked (aspace, page.1) =
        (j.superblocked (aspace, page.1) && (landed || claim.prior)) := by
  unfold finishPage
  simp only [hc, ht, ne_eq, not_true, if_false, HashMap.remove_self, true_and]
  cases landed <;> cases claim.prior <;> simp

theorem finish_other {pages : List (U64 × U64)} {k : PageKey} (h : k ∉ pages.map (fun p => (aspace, p.1)) ∨ ¬ j.Holds ticket k) :
    (j.finishPendingSuperblock ticket aspace pages landed).pendingSuperblocks k = j.pendingSuperblocks k ∧
      (j.finishPendingSuperblock ticket aspace pages landed).superblocked k = j.superblocked k := by
  unfold finishPendingSuperblock
  induction pages generalizing j with
  | nil => exact ⟨rfl, rfl⟩
  | cons page pages ih =>
    rw [List.map_cons, List.mem_cons, not_or] at h
    obtain ⟨h1, h2⟩ := finishPage_other landed (h.imp_left And.left)
    have hnext : k ∉ pages.map (fun p => (aspace, p.1)) ∨ ¬ (finishPage ticket aspace landed j page).Holds ticket k := by
      refine h.imp And.right fun hn => ?_
      rintro ⟨claim, hc, ht⟩
      exact hn ⟨claim, h1.symm.trans hc, ht⟩
    obtain ⟨i1, i2⟩ := ih hnext
    exact ⟨i1.trans h1, i2.trans h2⟩

theorem finish_held {pages : List (U64 × U64)} {k : PageKey} {claim : PendingSuperblockClaim}
    (hk : k ∈ pages.map (fun p => (aspace, p.1))) (hc : j.pendingSuperblocks k = some claim) (ht : claim.ticket = ticket) :
    (j.finishPendingSuperblock ticket aspace pages landed).pendingSuperblocks k = none ∧
      (j.finishPendingSuperblock ticket aspace pages landed).superblocked k = (j.superblocked k && (landed || claim.prior)) := by
  induction pages generalizing j with
  | nil => exact absurd hk List.not_mem_nil
  | cons page pages ih =>
    by_cases hp : k = (aspace, page.1)
    · subst hp
      obtain ⟨h1, h2⟩ := finishPage_held landed hc ht
      have hgone : ¬ (finishPage ticket aspace landed j page).Holds ticket (aspace, page.1) := by
        rintro ⟨claim', hc', -⟩
        rw [h1] at hc'
        cases hc'
      obtain ⟨i1, i2⟩ := finish_other landed (Or.inr hgone : _ ∉ pages.map _ ∨ _)
      exact ⟨i1.trans h1, i2.trans h2⟩
    · obtain ⟨h1, h2⟩ := finishPage_other (j := j) landed (Or.inl hp : _ ∨ ¬ j.Holds ticket k)
      rw [List.map_cons, List.mem_cons] at hk
      obtain ⟨i1, i2⟩ := ih (j := finishPage ticket aspace landed j page) (hk.resolve_left hp) (h1.trans hc)
      exact ⟨i1, i2.trans (by rw [h2])⟩

theorem SameClaims.finish (h : SameClaims j j') (ticket aspace : U64) (pages : List (U64 × U64)) (landed : Bool) :
    SameClaims (j.finishPendingSuperblock ticket aspace pages landed) (j'.finishPendingSuperblock ticket aspace pages landed) := by
  unfold finishPendingSuperblock
  induction pages generalizing j j' with
  | nil => exact h
  | cons page pages ih =>
    refine ih ?_
    unfold finishPage
    dsimp only
    rw [h.2]
    cases j.pendingSuperblocks (aspace, page.1) with
    | none => exact h
    | some claim =>
      dsimp only
      split
      next => exact h
      next =>
        exact ⟨by simp only [h.1], rfl⟩

/-! ## Landings leave the claims alone -/

theorem install_claims {pc : U64} {block : JitBlock} (h : j.install pc block = some j') : SameClaims j j' := by
  unfold install at h
  obtain ⟨c, -, rfl⟩ := Option.map_eq_some_iff.1 h
  exact ⟨rfl, rfl⟩

theorem recordPages_claims (j : JitState) (idx : ℤ) (pages : List (U64 × U64)) : SameClaims j (j.recordPages idx pages) := by
  unfold recordPages
  split <;> exact ⟨rfl, rfl⟩

theorem addSeeds_claims (s : JitSettings) (j : JitState) (block : PendingBlock) : SameClaims j (j.addSeeds s block) := by
  unfold addSeeds
  split <;> exact ⟨rfl, rfl⟩

theorem landBlock_claims {s : JitSettings} {idx : ℤ} {p : PendingBlock} (h : j.landBlock s idx p = some j') : SameClaims j j' := by
  have hstamp : SameClaims j j.stamp := ⟨rfl, rfl⟩
  exact ((hstamp.trans (recordPages_claims _ _ _)).trans (addSeeds_claims _ _ _)).trans (install_claims h)

theorem landMember_claims {s : JitSettings} {b : Bool} {idx : ℤ} {p : PendingBlock} (h : j.landMember s b idx p = some j') :
    SameClaims j j' := by
  unfold landMember at h
  split at h
  next => exact Option.some.inj h ▸ .refl j
  next =>
    split at h
    next => exact Option.some.inj h ▸ .refl j
    next => exact landBlock_claims h

/-- A fold whose steps leave the claims alone does. -/
theorem foldlM_claims {α : Type} {f : JitState → α → Option JitState} (hf : ∀ j a j', f j a = some j' → SameClaims j j') :
    ∀ {l : List α} {j j' : JitState}, l.foldlM f j = some j' → SameClaims j j'
  | [], j, j', h => Option.some.inj h ▸ .refl j
  | a :: l, j, j', h => by
    rw [List.foldlM_cons] at h
    obtain ⟨j1, h1, h2⟩ := Option.bind_eq_some_iff.1 h
    exact (hf j a j1 h1).trans (foldlM_claims hf h2)

theorem completeBatchLanding_claims {s : JitSettings} {base : ℤ} {p : PendingBatch} (h : j.completeBatchLanding s base p = some j') :
    SameClaims j j' :=
  foldlM_claims (fun _ _ _ => landMember_claims) h

theorem landEntry_claims {s : JitSettings} {idx : ℤ} {p : PendingRegion} {e : U64} (h : landEntry s idx p j e = some j') :
    SameClaims j j' := by
  unfold landEntry at h
  split at h
  next => exact Option.some.inj h ▸ .refl j
  next =>
    split at h
    next => exact Option.some.inj h ▸ .refl j
    next =>
      split at h
      next => exact Option.some.inj h ▸ .refl j
      next =>
        have hstamp : SameClaims j j.stamp := ⟨rfl, rfl⟩
        exact hstamp.trans (install_claims h)

theorem completeRegionLanding_claims {s : JitSettings} {idx : ℤ} {p : PendingRegion}
    (h : j.completeRegionLanding s idx p = some j') : SameClaims j j' := by
  unfold completeRegionLanding at h
  refine (recordPages_claims j idx p.pages).trans (SameClaims.trans ?_ (foldlM_claims (fun _ _ _ => landEntry_claims) h))
  exact ⟨rfl, rfl⟩

theorem noteMissed_claims (j : JitState) (p : PendingBlock) (previous : Option JitBlock) : SameClaims j (j.noteMissed p previous) := by
  unfold noteMissed
  dsimp only
  split <;> exact ⟨rfl, rfl⟩

theorem completeBlockLanding_claims {M : Type} [FullSystemJitMachine M] {s : JitSettings} {m m' : M} {idx : ℤ} {p : PendingBlock}
    (h : completeBlockLanding s m j idx p = some (m', j')) : SameClaims j j' := by
  unfold completeBlockLanding at h
  split at h
  next => exact (Prod.mk.inj (Option.some.inj h)).2 ▸ .refl j
  next =>
    split at h
    next => exact (Prod.mk.inj (Option.some.inj h)).2 ▸ .refl j
    next =>
      obtain ⟨j1, h1, h2⟩ := Option.map_eq_some_iff.1 h
      obtain ⟨-, rfl⟩ := Prod.mk.inj h2
      exact (landBlock_claims h1).trans (noteMissed_claims j1 p _)

theorem finishPendingPageModule_claims (j : JitState) (ticket : U64) (batch : PendingBatch) (finish : PageModuleFinish) :
    SameClaims j (j.finishPendingPageModule ticket batch finish).2 := by
  unfold finishPendingPageModule recordPageModuleFailure
  repeat' split
  all_goals exact ⟨rfl, rfl⟩

theorem removeConfirmedCoverage_claims (blocks : List PendingBlock) (j : JitState) :
    SameClaims j (blocks.foldl removeConfirmedCoverage j) := by
  induction blocks generalizing j with
  | nil => exact .refl j
  | cons b blocks ih => exact SameClaims.trans ⟨rfl, rfl⟩ (ih _)

theorem removePendingCoverage_claims (j : JitState) (kind : PendingJitKind) : SameClaims j (j.removePendingCoverage kind) := by
  cases kind with
  | block b => exact ⟨rfl, rfl⟩
  | batch b => exact removeConfirmedCoverage_claims b.members j
  | region r => exact .refl j

end JitState

namespace Dispatcher

open JitState

variable {M : Type} [FullSystemJitMachine M] {d d' : Dispatcher}

/-! ## What a completion does to the claims -/

theorem finishBatch_claims (j : JitState) (p : PendingJit) (finish : PageModuleFinish) : SameClaims j (finishBatch j p finish) := by
  unfold finishBatch
  split
  next => exact finishPendingPageModule_claims j _ _ finish
  next => exact .refl j

/-- The claims after a compile ended: a region gives up what it holds, unless its slots are wrong. -/
def claimsAfter (j : JitState) (p : PendingJit) (o : Outcome) : JitState :=
  match p.region? with
  | none => j
  | some r => if o = .wrongSlotCount then j else j.finishPendingSuperblock p.ticket r.aspace r.pages (decide (o = .landed))

theorem releaseRegion_claims (j : JitState) (p : PendingJit) {o : Outcome} (hw : o ≠ .wrongSlotCount) (hl : o ≠ .landed) :
    claimsAfter j p o = releaseRegion j p := by
  unfold claimsAfter releaseRegion PendingJit.region?
  cases p.kind with
  | block b => rfl
  | batch b => rfl
  | region r => simp only [if_neg hw, hl, decide_false]

theorem claimsAfter_congr {j j' : JitState} (h : SameClaims j j') (p : PendingJit) (o : Outcome) :
    SameClaims (claimsAfter j p o) (claimsAfter j' p o) := by
  unfold claimsAfter
  split
  next => exact h
  next =>
    split
    next => exact h
    next => exact h.finish _ _ _ _

theorem retirePrior_claims {j j' : JitState} {prior : Option JitOwnerId} {owner : JitOwnerId}
    (h : retirePrior j prior owner = some j') : SameClaims j j' := by
  unfold retirePrior at h
  split at h
  next => exact Option.some.inj h ▸ .refl j
  next =>
    split at h
    next => exact Option.some.inj h ▸ .refl j
    next =>
      obtain ⟨c, -, rfl⟩ := Option.map_eq_some_iff.1 h
      exact ⟨rfl, rfl⟩

theorem publishBase_jit (d : Dispatcher) (base : ℤ) (batch : PendingBatch) :
    (publishBase d base batch).jit = d.jit ∧ (publishBase d base batch).pendingJit = d.pendingJit := by
  unfold publishBase
  split <;> exact ⟨rfl, rfl⟩

theorem landBatch_claims {owner : JitOwnerId} {base : ℤ} {batch : PendingBatch} (h : d.landBatch owner base batch = some d') :
    SameClaims d.jit d'.jit ∧ d'.pendingJit = d.pendingJit := by
  unfold landBatch at h
  obtain ⟨j1, h1, h⟩ := Option.bind_eq_some_iff.1 h
  obtain ⟨j2, h2, h⟩ := Option.bind_eq_some_iff.1 h
  obtain rfl := Option.some.inj h
  obtain ⟨hj, hp⟩ := publishBase_jit { d with jit := j2 } base batch
  rw [hj, hp]
  have hfinish := finishPendingPageModule_claims d.jit owner batch (.landed owner)
  exact ⟨(hfinish.trans (completeBatchLanding_claims h1)).trans (retirePrior_claims h2), rfl⟩

theorem land_claims {m m' : M} {p : PendingJit} {base : ℤ} (h : d.land m p base = some (m', d')) :
    SameClaims (claimsAfter d.jit p .landed) d'.jit ∧ d'.pendingJit = d.pendingJit := by
  unfold land at h
  unfold claimsAfter PendingJit.region?
  cases hk : p.kind with
  | region r =>
    rw [hk] at h
    obtain ⟨j, hj, h⟩ := Option.map_eq_some_iff.1 h
    obtain ⟨-, rfl⟩ := Prod.mk.inj h
    exact ⟨completeRegionLanding_claims hj, rfl⟩
  | block b =>
    rw [hk] at h
    obtain ⟨⟨m1, j⟩, hj, h⟩ := Option.map_eq_some_iff.1 h
    obtain ⟨-, rfl⟩ := Prod.mk.inj h
    exact ⟨completeBlockLanding_claims hj, rfl⟩
  | batch b =>
    rw [hk] at h
    obtain ⟨d1, hd, h⟩ := Option.map_eq_some_iff.1 h
    obtain ⟨-, rfl⟩ := Prod.mk.inj h
    exact landBatch_claims hd

/-- **Every end but a wrong slot count releases the region's claims.** -/
theorem settle_claims {m m' : M} {p : PendingJit} {base : ℤ} {slotCount : ℕ} (h : d.settle m p base slotCount = some (m', d')) :
    SameClaims (claimsAfter d.jit p (d.outcome m p base slotCount)) d'.jit ∧ d'.pendingJit = d.pendingJit := by
  unfold settle at h
  cases ho : d.outcome m p base slotCount <;> rw [ho] at h
  case wrongSlotCount =>
    obtain ⟨-, rfl⟩ := Prod.mk.inj (Option.some.inj h)
    have hsame : claimsAfter d.jit p .wrongSlotCount = d.jit := by
      unfold claimsAfter
      split <;> rfl
    rw [hsame]
    exact ⟨(finishBatch_claims d.jit p .failed).trans ⟨rfl, rfl⟩, rfl⟩
  case superseded =>
    obtain ⟨-, rfl⟩ := Prod.mk.inj (Option.some.inj h)
    rw [releaseRegion_claims _ _ (by decide) (by decide)]
    exact ⟨(finishBatch_claims _ p .cancelled).trans ⟨rfl, rfl⟩, rfl⟩
  case capacity =>
    obtain ⟨d1, hd, h⟩ := Option.map_eq_some_iff.1 h
    obtain ⟨-, rfl⟩ := Prod.mk.inj h
    obtain ⟨c, -, rfl⟩ := Option.map_eq_some_iff.1 hd
    rw [releaseRegion_claims _ _ (by decide) (by decide)]
    exact ⟨(finishBatch_claims _ p .cancelled).trans ⟨rfl, rfl⟩, rfl⟩
  case failed =>
    obtain ⟨-, rfl⟩ := Prod.mk.inj (Option.some.inj h)
    rw [releaseRegion_claims _ _ (by decide) (by decide)]
    exact ⟨finishBatch_claims _ p .failed, rfl⟩
  case stale =>
    obtain ⟨c, -, h⟩ := Option.bind_eq_some_iff.1 h
    obtain ⟨-, rfl⟩ := Prod.mk.inj (Option.some.inj h)
    have hc : SameClaims d.jit { d.jit with toOwnedCode := c } := ⟨rfl, rfl⟩
    have hafter := claimsAfter_congr hc p .stale
    rw [releaseRegion_claims { d.jit with toOwnedCode := c } p (by decide) (by decide)] at hafter
    exact ⟨(hafter.trans (finishBatch_claims _ p .cancelled)).trans ⟨rfl, rfl⟩, rfl⟩
  case landed =>
    obtain ⟨c, -, h⟩ := Option.bind_eq_some_iff.1 h
    obtain ⟨⟨m1, d1⟩, hl, h⟩ := Option.bind_eq_some_iff.1 h
    obtain ⟨-, rfl⟩ := Prod.mk.inj (Option.some.inj h)
    obtain ⟨hland, hp⟩ := land_claims hl
    have hc : SameClaims d.jit { d.jit with toOwnedCode := c } := ⟨rfl, rfl⟩
    exact ⟨((claimsAfter_congr hc p .landed).trans hland).trans ⟨rfl, rfl⟩, hp⟩

/-! ## The queue -/

theorem cons_set_perm {α : Type} {l : List α} {pos : ℕ} (h : pos < l.length) (b : α) : (l[pos] :: l.set pos b).Perm (b :: l) := by
  induction l generalizing pos with
  | nil => exact absurd h (Nat.not_lt_zero _)
  | cons a l ih =>
    cases pos with
    | zero => exact List.Perm.swap b a l
    | succ pos =>
      have hpos : pos < l.length := Nat.lt_of_succ_lt_succ h
      calc (l[pos] :: a :: l.set pos b).Perm (a :: l[pos] :: l.set pos b) := List.Perm.swap _ _ _
        _ |>.Perm (a :: b :: l) := (ih hpos).cons a
        _ |>.Perm (b :: a :: l) := List.Perm.swap _ _ _

theorem swapRemove_perm {α : Type} {l : List α} {pos : ℕ} (h : pos < l.length) : (l[pos] :: swapRemove l pos).Perm l := by
  obtain ⟨init, last, rfl⟩ : ∃ init last, l = init ++ [last] := by
    rcases List.eq_nil_or_concat l with rfl | ⟨init, last, rfl⟩
    · exact absurd h (Nat.not_lt_zero _)
    · exact ⟨init, last, List.concat_eq_append ..⟩
  have hset : ∃ init', (init ++ [last]).set pos last = init' ++ [last] := by
    by_cases hp : pos < init.length
    · exact ⟨init.set pos last, List.set_append_left _ _ hp⟩
    · have hlast : pos = init.length := by
        rw [List.length_append, List.length_singleton] at h
        omega
      subst hlast
      exact ⟨init, by rw [List.set_append_right _ _ le_rfl, Nat.sub_self]; rfl⟩
  obtain ⟨init', hs⟩ := hset
  have hremove : swapRemove (init ++ [last]) pos = init' := by
    unfold swapRemove
    rw [List.getLast?_concat]
    dsimp only
    rw [hs, List.dropLast_concat]
  have hperm := cons_set_perm h last
  rw [hs] at hperm
  rw [hremove]
  refine List.Perm.cons_inv (a := last) ?_
  calc (last :: (init ++ [last])[pos] :: init').Perm ((init ++ [last])[pos] :: last :: init') := List.Perm.swap _ _ _
    _ |>.Perm ((init ++ [last])[pos] :: (init' ++ [last])) := ((List.perm_append_singleton last init').symm).cons _
    _ |>.Perm (last :: (init ++ [last])) := hperm

theorem findPending_some {ticket : U64} {pos : ℕ} {p : PendingJit} (h : d.findPending ticket = some (pos, p)) :
    p.ticket = ticket ∧ (p :: swapRemove d.pendingJit pos).Perm d.pendingJit := by
  unfold findPending at h
  obtain ⟨i, hi, h⟩ := Option.bind_eq_some_iff.1 h
  obtain ⟨q, hq, h⟩ := Option.map_eq_some_iff.1 h
  obtain ⟨rfl, rfl⟩ := Prod.mk.inj h
  obtain ⟨hlt, hget⟩ := List.getElem?_eq_some_iff.1 hq
  obtain ⟨_, ht, -⟩ := List.findIdx?_eq_some_iff_getElem.1 hi
  rw [hget] at ht
  refine ⟨of_decide_eq_true ht, ?_⟩
  have hperm := swapRemove_perm hlt
  rwa [hget] at hperm

theorem findPending_none {ticket : U64} (h : d.findPending ticket = none) : ∀ p ∈ d.pendingJit, p.ticket ≠ ticket := by
  unfold findPending at h
  cases hi : d.pendingJit.findIdx? fun p => decide (p.ticket = ticket) with
  | none => exact fun p hp => of_decide_eq_false (List.findIdx?_eq_none_iff.1 hi p hp)
  | some i =>
    rw [hi, Option.bind_some, Option.map_eq_none_iff] at h
    obtain ⟨hlt, -, -⟩ := List.findIdx?_eq_some_iff_getElem.1 hi
    rw [List.getElem?_eq_getElem hlt] at h
    cases h

/-! ## Runs -/

/-- The builds of a page since its last unclaimed state. -/
structure Chain where
  before : Bool
  /-- The ticket of the last claim. -/
  last : U64
  /-- Whether the last claim's build landed, once it has completed. -/
  ended : Option Bool

structure Ledger where
  chains : PageKey → Option Chain
  /-- The claims whose tickets have not completed, in the order they were made. -/
  unfinished : List (U64 × List PageKey)

namespace Ledger

def empty : Ledger := ⟨fun _ => none, []⟩

/-- What a page was before its chain; a chain whose last build completed is over. -/
def chainBefore (l : Ledger) (j : JitState) (k : PageKey) : Bool :=
  match l.chains k with
  | some c => if c.ended = none then c.before else j.superblocked k
  | none => j.superblocked k

def claim (l : Ledger) (j : JitState) (ticket : U64) (keys : List PageKey) : Ledger where
  chains k := if k ∈ keys then some ⟨l.chainBefore j k, ticket, none⟩ else l.chains k
  unfinished := l.unfinished ++ [(ticket, keys)]

def complete (l : Ledger) (ticket : U64) (landed : Bool) : Ledger where
  chains k := (l.chains k).map fun c => if c.last = ticket ∧ c.ended = none then { c with ended := some landed } else c
  unfinished := l.unfinished.filter (·.1 ≠ ticket)

/-- The newest ticket that claimed a page and has not completed. -/
def newest (l : Ledger) (k : PageKey) : Option U64 := ((l.unfinished.filter (k ∈ ·.2)).getLast?).map Prod.fst

/-- A page was marked before its current chain, or the last claim on it landed. -/
def Marked (l : Ledger) (initial : PageKey → Bool) (k : PageKey) : Prop :=
  match l.chains k with
  | none => initial k = true
  | some c => c.before = true ∨ c.ended = some true

end Ledger

/-- Whether the completion of a ticket lands its compile. -/
def lands (d : Dispatcher) (m : M) (ticket : U64) (base : ℤ) (slotCount : ℕ) : Bool :=
  (d.findPending ticket).any fun s => (d.take s.1 s.2).outcome m s.2 base slotCount = .landed

/-- The runs of claims with fresh tickets and of completions, whose completions all meet `P`; other compiles come and go. -/
inductive ClaimRun (M : Type) [FullSystemJitMachine M] (P : Dispatcher → U64 → ℕ → Prop) (d₀ : Dispatcher) :
    Dispatcher → Ledger → Prop
  | start : ClaimRun M P d₀ d₀ .empty
  | claim {d : Dispatcher} {l : Ledger} {j : JitState} {ticket bootGen : U64} {r : PendingRegion} (h : ClaimRun M P d₀ d l)
      (fresh : ∀ p ∈ d.pendingJit, p.ticket ≠ ticket) (hj : d.jit.claimPendingSuperblock ticket r.aspace r.pages = some j) :
      ClaimRun M P d₀ { d with jit := j, pendingJit := d.pendingJit ++ [⟨ticket, bootGen, .region r⟩] }
        (l.claim d.jit ticket r.keys)
  | submit {d : Dispatcher} {l : Ledger} {p : PendingJit} (h : ClaimRun M P d₀ d l)
      (fresh : ∀ q ∈ d.pendingJit, q.ticket ≠ p.ticket) (hk : p.region? = none) :
      ClaimRun M P d₀ { d with pendingJit := d.pendingJit ++ [p] } l
  | complete {d d' : Dispatcher} {l : Ledger} {m m' : M} {ticket : U64} {base : ℤ} {slotCount : ℕ} (h : ClaimRun M P d₀ d l)
      (hP : P d ticket slotCount) (hc : d.completeJit m ticket base slotCount = some (m', d')) :
      ClaimRun M P d₀ d' (l.complete ticket (d.lands m ticket base slotCount))

/-- No claims yet, and no builds that could have made some. -/
structure Unclaimed (d : Dispatcher) : Prop where
  claims : ∀ k, d.jit.pendingSuperblocks k = none
  regions : ∀ p ∈ d.pendingJit, p.region? = none
  tickets : (d.pendingJit.map PendingJit.ticket).Nodup

/-- Each claim belongs to the newest ticket that made it and has not completed; once every ticket has, no claim is left and
exactly the right pages are marked. -/
structure ExactClaims (d₀ d : Dispatcher) (l : Ledger) : Prop where
  newest : ∀ k claim, d.jit.pendingSuperblocks k = some claim → l.newest k = some claim.ticket
  released : (∀ p ∈ d.pendingJit, p.region? = none) →
    ∀ k, d.jit.pendingSuperblocks k = none ∧ (d.jit.superblocked k = true ↔ l.Marked d₀.jit.superblocked k)

/-- No build that still holds a claim is answered with a number of slots other than one. -/
def OneSlot (d : Dispatcher) (ticket : U64) (slotCount : ℕ) : Prop :=
  ∀ p ∈ d.pendingJit, p.ticket = ticket → p.region?.isSome → slotCount = 1 ∨ ∀ k, ¬ d.jit.Holds ticket k

/-! ## One page -/

/-- What the claims say about a page, and the ledger with them. -/
inductive PageSound (initial : PageKey → Bool) (j : JitState) (l : Ledger) (k : PageKey) : Prop
  | unclaimed (hc : l.chains k = none) (hp : j.pendingSuperblocks k = none) (hm : j.superblocked k = initial k)
  | claimed {before : Bool} {last physical : U64} (hc : l.chains k = some ⟨before, last, none⟩)
      (hp : j.pendingSuperblocks k = some ⟨last, before, physical⟩) (hm : j.superblocked k = true) (hn : l.newest k = some last)
  | ended {before landed : Bool} {last : U64} (hc : l.chains k = some ⟨before, last, some landed⟩)
      (hp : j.pendingSuperblocks k = none) (hm : j.superblocked k = (before || landed))

variable {initial : PageKey → Bool} {j j' : JitState} {l l' : Ledger} {k : PageKey} {ticket : U64}

theorem PageSound.congr (h : PageSound initial j l k) (hp : j'.pendingSuperblocks k = j.pendingSuperblocks k)
    (hm : j'.superblocked k = j.superblocked k) (hc : l'.chains k = l.chains k)
    (hn : ∀ t, l.newest k = some t → j.Holds t k → l'.newest k = some t) : PageSound initial j' l' k := by
  cases h with
  | unclaimed c p m => exact .unclaimed (hc.trans c) (hp.trans p) (hm.trans m)
  | claimed c p m n => exact .claimed (hc.trans c) (hp.trans p) (hm.trans m) (hn _ n ⟨_, p, rfl⟩)
  | ended c p m => exact .ended (hc.trans c) (hp.trans p) (hm.trans m)

theorem PageSound.chainBefore (h : PageSound initial j l k) : l.chainBefore j k = j.prior k := by
  unfold Ledger.chainBefore JitState.prior
  cases h with
  | unclaimed c p m => rw [c, p]
  | claimed c p m n =>
    rw [c, p]
    exact if_pos rfl
  | ended c p m =>
    rw [c, p]
    exact if_neg fun hn => by cases hn

theorem PageSound.claim {r : PendingRegion} (h : PageSound initial j l k)
    (hj : j.claimPendingSuperblock ticket r.aspace r.pages = some j') : PageSound initial j' (l.claim j ticket r.keys) k := by
  obtain ⟨hout, hin⟩ := JitState.claim_spec hj
  by_cases hk : k ∈ r.keys
  · obtain ⟨physical, hp, hm⟩ := hin k hk
    have hchain : (l.claim j ticket r.keys).chains k = some ⟨j.prior k, ticket, none⟩ := by
      rw [← h.chainBefore]
      exact if_pos hk
    refine .claimed hchain hp hm ?_
    · unfold Ledger.newest Ledger.claim
      dsimp only
      rw [List.filter_append, List.filter_cons_of_pos (by exact decide_eq_true hk), List.filter_nil, List.getLast?_concat]
      rfl
  · obtain ⟨hp, hm⟩ := hout k hk
    refine h.congr hp hm (if_neg hk) fun t hn _ => ?_
    unfold Ledger.newest Ledger.claim
    dsimp only
    rw [List.filter_append, List.filter_cons_of_neg (by simpa using hk), List.filter_nil, List.append_nil]
    exact hn

theorem getLast?_filter_filter {α : Type} {l : List α} {p q : α → Bool} {a : α} (h : (l.filter p).getLast? = some a) (hq : q a = true) :
    ((l.filter q).filter p).getLast? = some a := by
  obtain ⟨xs, hxs⟩ := List.getLast?_eq_some_iff.1 h
  rw [List.filter_comm, hxs, List.filter_append, List.filter_cons_of_pos hq, List.filter_nil, List.getLast?_concat]

theorem newest_complete {landed : Bool} {t : U64} (h : l.newest k = some t) (hne : t ≠ ticket) :
    (l.complete ticket landed).newest k = some t := by
  unfold Ledger.newest at h ⊢
  obtain ⟨a, ha, rfl⟩ := Option.map_eq_some_iff.1 h
  unfold Ledger.complete
  dsimp only
  rw [getLast?_filter_filter ha (decide_eq_true hne)]
  rfl

theorem mem_of_newest {t : U64} (h : l.newest k = some t) : ∃ keys, (t, keys) ∈ l.unfinished ∧ k ∈ keys := by
  unfold Ledger.newest at h
  obtain ⟨a, ha, rfl⟩ := Option.map_eq_some_iff.1 h
  obtain ⟨hm, hk⟩ := List.mem_filter.1 (List.mem_of_getLast? ha)
  exact ⟨a.2, hm, of_decide_eq_true hk⟩

/-- The completion of a ticket leaves the pages alone that it holds no claim on. -/
theorem PageSound.complete_other {landed : Bool} (h : PageSound initial j l k) (hh : ¬ j.Holds ticket k)
    (hp : j'.pendingSuperblocks k = j.pendingSuperblocks k) (hm : j'.superblocked k = j.superblocked k) :
    PageSound initial j' (l.complete ticket landed) k := by
  have hne : ∀ t, j.Holds t k → t ≠ ticket := fun t ht he => hh (he ▸ ht)
  refine h.congr hp hm ?_ fun t hn ht => newest_complete hn (hne t ht)
  show (l.chains k).map _ = l.chains k
  cases h with
  | unclaimed c p m => rw [c]; rfl
  | claimed c p m n => rw [c, Option.map_some, if_neg fun ha => hne _ ⟨_, p, rfl⟩ ha.1]
  | ended c p m => rw [c, Option.map_some, if_neg fun ha => by cases ha.2]

/-- The completion of a ticket ends the chains of the pages it holds a claim on. -/
theorem PageSound.complete_held {aspace : U64} {pages : List (U64 × U64)} (landed : Bool) (h : PageSound initial j l k)
    (hh : j.Holds ticket k) (hk : k ∈ pages.map fun p => (aspace, p.1)) :
    PageSound initial (j.finishPendingSuperblock ticket aspace pages landed) (l.complete ticket landed) k := by
  obtain ⟨claim, hc, ht⟩ := hh
  obtain ⟨hp', hm'⟩ := JitState.finish_held landed hk hc ht
  cases h with
  | unclaimed c p m => rw [p] at hc; cases hc
  | ended c p m => rw [p] at hc; cases hc
  | @claimed before last _ c p m n =>
    obtain rfl := Option.some.inj (p.symm.trans hc)
    have hchain : (l.complete ticket landed).chains k = some ⟨before, last, some landed⟩ := by
      show (l.chains k).map _ = _
      rw [c, Option.map_some, if_pos ⟨ht, rfl⟩]
    exact .ended hchain hp' (by rw [hm', m, Bool.true_and, Bool.or_comm])

/-! ## Every run -/

/-- **The invariant**: the unfinished claims are those of the builds in the queue, and each page follows its chain. -/
structure SoundClaims (d₀ d : Dispatcher) (l : Ledger) : Prop where
  tickets : (d.pendingJit.map PendingJit.ticket).Nodup
  unfinished : ∀ t keys, (t, keys) ∈ l.unfinished ↔ ∃ p ∈ d.pendingJit, ∃ r, p.region? = some r ∧ p.ticket = t ∧ r.keys = keys
  pages : ∀ k, PageSound d₀.jit.superblocked d.jit l k

variable {d₀ : Dispatcher}

theorem SoundClaims.start (h : Unclaimed d₀) : SoundClaims d₀ d₀ .empty where
  tickets := h.tickets
  unfinished t keys := by
    refine ⟨fun hm => absurd hm List.not_mem_nil, ?_⟩
    rintro ⟨p, hp, r, hr, -⟩
    rw [h.regions p hp] at hr
    cases hr
  pages k := .unclaimed rfl (h.claims k) rfl

theorem nodup_append_ticket {p : PendingJit} (h : (d.pendingJit.map PendingJit.ticket).Nodup)
    (fresh : ∀ q ∈ d.pendingJit, q.ticket ≠ p.ticket) : ((d.pendingJit ++ [p]).map PendingJit.ticket).Nodup := by
  rw [List.map_append, List.map_cons, List.map_nil]
  refine List.nodup_append.2 ⟨h, List.nodup_singleton _, fun a ha b hb => ?_⟩
  obtain ⟨q, hq, rfl⟩ := List.mem_map.1 ha
  rw [List.mem_singleton] at hb
  exact hb ▸ fresh q hq

theorem SoundClaims.claim {bootGen : U64} {r : PendingRegion} (h : SoundClaims d₀ d l)
    (fresh : ∀ p ∈ d.pendingJit, p.ticket ≠ ticket) (hj : d.jit.claimPendingSuperblock ticket r.aspace r.pages = some j) :
    SoundClaims d₀ { d with jit := j, pendingJit := d.pendingJit ++ [⟨ticket, bootGen, .region r⟩] } (l.claim d.jit ticket r.keys) where
  tickets := nodup_append_ticket h.tickets fresh
  unfinished t keys := by
    show (t, keys) ∈ l.unfinished ++ [(ticket, r.keys)] ↔ _
    rw [List.mem_append, h.unfinished, List.mem_singleton]
    constructor
    · rintro (⟨p, hp, hr⟩ | he)
      · exact ⟨p, List.mem_append_left _ hp, hr⟩
      · obtain ⟨rfl, rfl⟩ := Prod.mk.inj he
        exact ⟨_, List.mem_append_right _ List.mem_cons_self, r, rfl, rfl, rfl⟩
    · rintro ⟨p, hp, r', hr, ht, hkeys⟩
      rcases List.mem_append.1 hp with hp | hp
      · exact Or.inl ⟨p, hp, r', hr, ht, hkeys⟩
      · rw [List.mem_singleton] at hp
        subst hp
        obtain rfl := Option.some.inj hr
        exact Or.inr (Prod.ext ht.symm hkeys.symm)
  pages k := (h.pages k).claim hj

theorem SoundClaims.submit {p : PendingJit} (h : SoundClaims d₀ d l) (fresh : ∀ q ∈ d.pendingJit, q.ticket ≠ p.ticket)
    (hk : p.region? = none) : SoundClaims d₀ { d with pendingJit := d.pendingJit ++ [p] } l where
  tickets := nodup_append_ticket h.tickets fresh
  unfinished t keys := by
    rw [h.unfinished]
    constructor
    · rintro ⟨q, hq, hr⟩
      exact ⟨q, List.mem_append_left _ hq, hr⟩
    · rintro ⟨q, hq, r, hr, hrest⟩
      rcases List.mem_append.1 hq with hq | hq
      · exact ⟨q, hq, r, hr, hrest⟩
      · rw [List.mem_singleton.1 hq, hk] at hr
        cases hr
  pages := h.pages

/-- A ticket that holds a claim is that of a build in the queue, which covers the page. -/
theorem SoundClaims.holder (h : SoundClaims d₀ d l) {k : PageKey} (hh : d.jit.Holds ticket k) :
    ∃ p ∈ d.pendingJit, ∃ r, p.region? = some r ∧ p.ticket = ticket ∧ k ∈ r.keys := by
  obtain ⟨claim, hc, rfl⟩ := hh
  cases h.pages k with
  | unclaimed c p m => rw [p] at hc; cases hc
  | ended c p m => rw [p] at hc; cases hc
  | claimed c p m n =>
    obtain rfl := Option.some.inj (p.symm.trans hc)
    obtain ⟨keys, hmem, hk⟩ := mem_of_newest n
    obtain ⟨q, hq, r, hr, ht, rfl⟩ := (h.unfinished _ _).1 hmem
    exact ⟨q, hq, r, hr, ht, hk⟩

theorem SoundClaims.complete {m m' : M} {base : ℤ} {slotCount : ℕ} (h : SoundClaims d₀ d l) (hP : d.OneSlot ticket slotCount)
    (hc : d.completeJit m ticket base slotCount = some (m', d')) :
    SoundClaims d₀ d' (l.complete ticket (d.lands m ticket base slotCount)) := by
  unfold completeJit at hc
  unfold lands
  cases hf : d.findPending ticket with
  | none =>
    rw [hf] at hc
    obtain ⟨-, rfl⟩ := Prod.mk.inj (Option.some.inj hc)
    have hnone := findPending_none hf
    refine ⟨h.tickets, fun t keys => ?_, fun k => (h.pages k).complete_other ?_ rfl rfl⟩
    · show (t, keys) ∈ l.unfinished.filter _ ↔ _
      rw [List.mem_filter, h.unfinished]
      refine ⟨And.left, fun hp => ⟨hp, ?_⟩⟩
      obtain ⟨p, hp, r, -, rfl, -⟩ := hp
      exact decide_eq_true (hnone p hp)
    · intro hh
      obtain ⟨p, hp, r, -, ht, -⟩ := h.holder hh
      exact hnone p hp ht
  | some s =>
    obtain ⟨pos, p⟩ := s
    rw [hf] at hc
    dsimp only at hc
    obtain ⟨ht, hperm⟩ := findPending_some hf
    obtain ⟨hsame, hqueue⟩ := settle_claims hc
    have hmem : p ∈ d.pendingJit := hperm.subset List.mem_cons_self
    have hnodup : ((p :: swapRemove d.pendingJit pos).map PendingJit.ticket).Nodup := (hperm.map _).nodup_iff.2 h.tickets
    rw [List.map_cons, List.nodup_cons] at hnodup
    have hrest : ∀ q, q ∈ d'.pendingJit ↔ q ∈ d.pendingJit ∧ q.ticket ≠ ticket := by
      intro q
      rw [hqueue]
      refine ⟨fun hq => ⟨hperm.subset (List.mem_cons_of_mem _ hq), fun he => ?_⟩, fun hq => ?_⟩
      · exact hnodup.1 (List.mem_map.2 ⟨q, hq, he.trans ht.symm⟩)
      · rcases List.mem_cons.1 (hperm.symm.subset hq.1) with rfl | hq'
        · exact absurd ht hq.2
        · exact hq'
    have hclaims : SameClaims (claimsAfter d.jit p ((d.take pos p).outcome m p base slotCount)) d'.jit :=
      (claimsAfter_congr (removePendingCoverage_claims d.jit p.kind) p _).trans hsame
    refine ⟨by rw [hqueue]; exact hnodup.2, fun t keys => ?_, fun k => ?_⟩
    · show (t, keys) ∈ l.unfinished.filter _ ↔ _
      rw [List.mem_filter, h.unfinished]
      constructor
      · rintro ⟨⟨q, hq, r, hr, rfl, hkeys⟩, hne⟩
        exact ⟨q, (hrest q).2 ⟨hq, of_decide_eq_true hne⟩, r, hr, rfl, hkeys⟩
      · rintro ⟨q, hq, r, hr, rfl, hkeys⟩
        obtain ⟨hq, hne⟩ := (hrest q).1 hq
        exact ⟨⟨q, hq, r, hr, rfl, hkeys⟩, decide_eq_true hne⟩
    · rw [Option.any_some]
      unfold claimsAfter at hclaims
      cases hr : p.region? with
      | none =>
        rw [hr] at hclaims
        refine (h.pages k).complete_other ?_ (congrFun hclaims.2 k) (congrFun hclaims.1 k)
        intro hh
        obtain ⟨q, hq, r, hqr, hqt, -⟩ := h.holder hh
        have hqp : q = p := List.inj_on_of_nodup_map h.tickets hq hmem (hqt.trans ht.symm)
        rw [hqp, hr] at hqr
        cases hqr
      | some r =>
        rw [hr] at hclaims
        dsimp only at hclaims
        by_cases hh : d.jit.Holds ticket k
        · have hk : k ∈ r.keys := by
            obtain ⟨q, hq, r', hqr, hqt, hk⟩ := h.holder hh
            have hqp : q = p := List.inj_on_of_nodup_map h.tickets hq hmem (hqt.trans ht.symm)
            rw [hqp, hr] at hqr
            exact Option.some.inj hqr ▸ hk
          have hone : slotCount = 1 :=
            (hP p hmem ht (by rw [hr]; rfl)).resolve_right fun hno => hno k hh
          have hslots : p.slotCount = slotCount := by
            rw [hone]
            unfold PendingJit.slotCount
            rw [PendingJit.region?_eq.1 hr]
          have hright : (d.take pos p).outcome m p base slotCount ≠ .wrongSlotCount := by
            unfold outcome
            rw [if_neg (not_not.2 hslots)]
            repeat' split
            all_goals exact fun hn => by cases hn
          rw [if_neg hright, ht] at hclaims
          have hheld := (h.pages k).complete_held (decide ((d.take pos p).outcome m p base slotCount = .landed)) hh hk
          exact hheld.congr (congrFun hclaims.2 k) (congrFun hclaims.1 k) rfl fun t hn _ => hn
        · refine (h.pages k).complete_other hh ?_ ?_
          · rw [hclaims.2]
            split
            next => rfl
            next => exact (JitState.finish_other _ (Or.inr (ht ▸ hh))).1
          · rw [hclaims.1]
            split
            next => rfl
            next => exact (JitState.finish_other _ (Or.inr (ht ▸ hh))).2

theorem SoundClaims.of_run (h₀ : Unclaimed d₀) (h : ClaimRun M OneSlot d₀ d l) : SoundClaims d₀ d l := by
  induction h with
  | start => exact .start h₀
  | claim _ fresh hj ih => exact ih.claim fresh hj
  | submit _ fresh hk ih => exact ih.submit fresh hk
  | complete _ hP hc ih => exact ih.complete hP hc

theorem SoundClaims.exact (h : SoundClaims d₀ d l) : ExactClaims d₀ d l where
  newest k claim hc := by
    cases h.pages k with
    | unclaimed c p m => rw [p] at hc; cases hc
    | ended c p m => rw [p] at hc; cases hc
    | claimed c p m n =>
      obtain rfl := Option.some.inj (p.symm.trans hc)
      exact n
  released hall k := by
    have hempty : ∀ t keys, (t, keys) ∉ l.unfinished := by
      intro t keys hm
      obtain ⟨p, hp, r, hr, -⟩ := (h.unfinished t keys).1 hm
      rw [hall p hp] at hr
      cases hr
    unfold Ledger.Marked
    cases h.pages k with
    | unclaimed c p m => rw [c, p, m]; exact ⟨rfl, Iff.rfl⟩
    | claimed c p m n =>
      obtain ⟨keys, hm, -⟩ := mem_of_newest n
      exact absurd hm (hempty _ _)
    | ended c p m =>
      rw [c, p, m]
      refine ⟨rfl, ?_⟩
      simp only [Bool.or_eq_true, Option.some.injEq]

def region4 : PendingRegion := ⟨0, 0x4000, [(0x4000, 0x80004000)], [0], []⟩

def idle : Dispatcher := .new ⟨0, false⟩

theorem idle_unclaimed : Unclaimed idle := ⟨fun _ => rfl, fun _ hp => absurd hp List.not_mem_nil, List.nodup_nil⟩

theorem claim4 : ∃ j, idle.jit.claimPendingSuperblock 1 region4.aspace region4.pages = some j :=
  Option.isSome_iff_exists.1 (by decide)

end Dispatcher
end Lish
