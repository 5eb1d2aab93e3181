import Lish.Jit.OwnedCode
/-!
# JitState — the dispatcher's state and the landing of compiled modules

What the dispatcher keeps next to the compiled code, the compilations in flight, and what the host's completion of one does.
-/
namespace Lish

structure PendingSuperblockClaim where
  ticket : U64
  prior : Bool
  physicalPage : U64
  deriving DecidableEq

structure PendingBlock where
  aspace : U64
  pc : U64
  block : JitBlock
  pages : List (U64 × U64)
  pageGenerations : List U64
  seeds : List U64
  tracePcs : List U64
  missedSuperblock : Bool

structure PendingBatch where
  cell : ℕ
  sequence : U64
  members : List PendingBlock
  pageModule : Option PageKey

structure PendingRegion where
  aspace : U64
  lead : U64
  pages : List (U64 × U64)
  pageGenerations : List U64
  entries : List U64

inductive PendingJitKind
  | block (block : PendingBlock)
  | batch (batch : PendingBatch)
  | region (region : PendingRegion)

structure PendingJit where
  ticket : U64
  bootGen : U64
  kind : PendingJitKind

def PendingJit.slotCount (p : PendingJit) : ℕ :=
  match p.kind with
  | .block _ => 1
  | .region _ => 1
  | .batch batch => if batch.pageModule.isSome then 1 else batch.members.length

inductive PageModuleDecision
  | individual
  | awaiting
  | build (prior : Option LivePageModule)
  deriving DecidableEq

inductive PageModuleFinish
  | failed
  | cancelled
  | landed (owner : JitOwnerId)

structure JitState extends OwnedCode where
  flushGen : U64
  pageEntries : HashMap PageKey (List U64)
  pageHotEntries : HashMap PageKey (List U64)
  /-- Translated traces that wait for a shared module. -/
  confirmedStage : List PendingBlock
  confirmedCoverage : HashMap (U64 × U64) ℕ
  superblocked : PageKey → Bool
  pendingSuperblocks : HashMap PageKey PendingSuperblockClaim
  sbGen : HashMap PageKey (ℕ × ℕ × U64)
  /-- Pages that wait for a build slot. -/
  sbQueue : List PageKey
  sbMissed : HashMap PageKey ℕ

namespace JitState

open OwnedCode (physicalPageOf)

def new : JitState where
  toOwnedCode := .new
  flushGen := 0
  pageEntries := .empty
  pageHotEntries := .empty
  confirmedStage := []
  confirmedCoverage := .empty
  superblocked := fun _ => false
  pendingSuperblocks := .empty
  sbGen := .empty
  sbQueue := []
  sbMissed := .empty

def clear (j : JitState) : JitState := { new with toOwnedCode := j.toOwnedCode.clear, flushGen := j.flushGen }

/-! ## Superblock claims -/

/-- What a page was before the first claim of its chain. -/
def prior (j : JitState) (k : PageKey) : Bool :=
  match j.pendingSuperblocks k with
  | some claim => claim.prior
  | none => j.superblocked k

/-- None where a page lies below guest RAM. -/
def claimPage (ticket aspace : U64) (j : JitState) (page : U64 × U64) : Option JitState :=
  let key := (aspace, page.1)
  if page.2 < RAM_BASE then none
  else
    some { j with
      pendingSuperblocks := j.pendingSuperblocks.insert key ⟨ticket, j.prior key, physicalPageOf page.2⟩
      superblocked := fun k => if k = key then true else j.superblocked k }

def claimPendingSuperblock (j : JitState) (ticket aspace : U64) (pages : List (U64 × U64)) : Option JitState :=
  pages.foldlM (claimPage ticket aspace) j

def pendingSuperblockIsCurrent (j : JitState) (ticket aspace : U64) (pages : List (U64 × U64)) : Bool :=
  pages.all fun p => (j.pendingSuperblocks (aspace, p.1)).any fun claim => claim.ticket = ticket

def finishPage (ticket aspace : U64) (landed : Bool) (j : JitState) (page : U64 × U64) : JitState :=
  let key := (aspace, page.1)
  match j.pendingSuperblocks key with
  | none => j
  | some claim =>
    if claim.ticket ≠ ticket then j
    else
      { j with
        pendingSuperblocks := j.pendingSuperblocks.remove key
        superblocked := fun k => if k = key ∧ landed = false ∧ claim.prior = false then false else j.superblocked k }

/-- Only the claims the ticket still owns are finished. -/
def finishPendingSuperblock (j : JitState) (ticket aspace : U64) (pages : List (U64 × U64)) (landed : Bool) : JitState :=
  pages.foldl (finishPage ticket aspace landed) j

/-! ## Page modules -/

def pageModulePendingIsCurrent (j : JitState) (ticket : U64) (batch : PendingBatch) : Bool :=
  match batch.pageModule with
  | none => true
  | some key =>
    match j.pageModules key with
    | some (.pending _ current _) => current = ticket
    | _ => false

def pageModuleDecision (j : JitState) (key : PageKey) (source : PageModuleSource) : PageModuleDecision :=
  match j.pageModules key with
  | none => .build none
  | some (.attempted attempted) => if attempted = source then .individual else .build none
  | some (.pending _ _ _) => .awaiting
  | some (.live live) => if live.source ≠ source then .build (some live) else .individual

def setPageModule (j : JitState) (key : PageKey) (state : PageModuleState) : JitState :=
  { j with pageModules := j.pageModules.insert key state }

def recordPageModuleFailure (j : JitState) (key : PageKey) (source : PageModuleSource) (prior : Option LivePageModule) : JitState :=
  match prior with
  | some live => j.setPageModule key (.live live)
  | none => j.setPageModule key (.attempted source)

def sortDedup (pcs : List U64) : List U64 := pcs.foldr (fun pc l => SortedSet.insert (· ≤ ·) l pc) []

/-- The owner that a landed module replaces, and the new state. -/
def finishPendingPageModule (j : JitState) (ticket : U64) (batch : PendingBatch) (finish : PageModuleFinish) :
    Option JitOwnerId × JitState :=
  match batch.pageModule with
  | none => (none, j)
  | some key =>
    match j.pageModules key with
    | some (.pending source current prior) =>
      if current ≠ ticket then (none, j)
      else
        match finish with
        | .failed => (none, j.recordPageModuleFailure key source prior)
        | .cancelled =>
          match prior with
          | some live => (none, j.setPageModule key (.live live))
          | none => (none, { j with pageModules := j.pageModules.remove key })
        | .landed owner =>
          let j := j.setPageModule key (.live ⟨source, owner, sortDedup (batch.members.map PendingBlock.pc)⟩)
          (prior.map LivePageModule.owner, { j with pageModuleOwner := j.pageModuleOwner.insert owner key })
    | _ => (none, j)

def pageOf (pc : U64) : U64 := pc &&& ~~~0xfff#64

def pageModuleOwnsCachedEntry (j : JitState) (aspace pc : U64) : Bool :=
  match (j.pageModules (aspace, pageOf pc)).bind PageModuleState.activeOwner with
  | none => false
  | some owner =>
    match j.slotAt pc with
    | none => false
    | some idx => j.slotOwner idx = some owner

/-! ## Coverage of staged and pending traces -/

def cover (coverage : HashMap (U64 × U64) ℕ) (aspace pc : U64) : HashMap (U64 × U64) ℕ :=
  coverage.insert (aspace, pc) (min ((coverage (aspace, pc)).getD 0 + 1) 65535)

def uncover (coverage : HashMap (U64 × U64) ℕ) (aspace pc : U64) : HashMap (U64 × U64) ℕ :=
  match coverage (aspace, pc) with
  | none => coverage
  | some refs => if refs ≤ 1 then coverage.remove (aspace, pc) else coverage.insert (aspace, pc) (refs - 1)

def addConfirmedCoverage (j : JitState) (block : PendingBlock) : JitState :=
  { j with confirmedCoverage := block.tracePcs.foldl (fun cov pc => cover cov block.aspace pc) j.confirmedCoverage }

def removeConfirmedCoverage (j : JitState) (block : PendingBlock) : JitState :=
  { j with confirmedCoverage := block.tracePcs.foldl (fun cov pc => uncover cov block.aspace pc) j.confirmedCoverage }

def removePendingCoverage (j : JitState) (kind : PendingJitKind) : JitState :=
  match kind with
  | .block block => j.removeConfirmedCoverage block
  | .batch batch => batch.members.foldl removeConfirmedCoverage j
  | .region _ => j

end JitState
end Lish
