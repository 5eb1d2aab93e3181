import Lish.Jit.JitState
/-!
# CompleteJit — what the host's completion of a compile does

The host answers a submitted compile with the first of its table slots, or with a failure.  The completion lands the code only
if its source is unchanged and no newer build of the same pages has taken over.
-/
namespace Lish

/-- What the dispatcher asks of the machine about pages of RAM that back compiled code. -/
class FullSystemJitMachine (M : Type) where
  codePageMarked : M → U64 → Bool
  codePageDirty : M → U64 → Bool
  codePageGeneration : M → U64 → Option U64
  /-- The page of a physical address holds compiled code from now on. -/
  codeMarkPage : M → U64 → M

open FullSystemJitMachine

instance : FullSystemJitMachine JitPageState where
  codePageMarked s page := s.pageMarked page.toNat
  codePageDirty s page := s.isDirty page.toNat
  codePageGeneration s page := s.pageGeneration page.toNat
  codeMarkPage s pa := (s.markAddress pa).2

/-- The runtime settings a landing reads. -/
structure JitSettings where
  traceKeepMin : ℕ
  sysSuperblock : Bool

/-- A region runs below a short trace and above none; a long integer trace runs above it. -/
def blockShouldReplaceRegion (current : Option (Option JitBlock)) (block : JitBlock) (keep : ℕ) : Bool :=
  !(current.join.any fun current => current.n = 0) || (!block.fp && decide (keep ≤ block.n))

namespace JitState

variable {M : Type} [FullSystemJitMachine M]

/-- A seed among the entries of its page. -/
def addSeed (aspace : U64) (entries : HashMap PageKey (List U64)) (seed : U64) : HashMap PageKey (List U64) :=
  let key := (aspace, pageOf seed)
  entries.insert key (SortedSet.insert (· ≤ ·) ((entries key).getD []) seed)

def addSeeds (s : JitSettings) (j : JitState) (block : PendingBlock) : JitState :=
  if s.sysSuperblock then { j with pageEntries := block.seeds.foldl (addSeed block.aspace) j.pageEntries } else j

def recordPages (j : JitState) (idx : ℤ) (pages : List (U64 × U64)) : JitState :=
  if 1 < pages.length then { j with regions := j.regions.insert idx pages } else j

/-- An entry in the cache, with no dispatch line. -/
def install (j : JitState) (pc : U64) (block : JitBlock) : Option JitState :=
  (j.toOwnedCode.cacheInsert pc (some block)).map fun c => { j with toOwnedCode := c.clearLineOf pc }

def stamp (j : JitState) : JitState := { j with toOwnedCode := j.toOwnedCode.nextJitUseStamp }

/-- A block at its table slot, used now. -/
def landBlock (s : JitSettings) (j : JitState) (idx : ℤ) (p : PendingBlock) : Option JitState :=
  ((j.stamp.recordPages idx p.pages).addSeeds s p).install p.pc { p.block with idx := idx, lastUsed := j.stamp.useStamp }

/-- A block that a page function should have covered. -/
def noteMissed (j : JitState) (p : PendingBlock) (previous : Option JitBlock) : JitState :=
  let key := (p.aspace, pageOf p.pc)
  if p.missedSuperblock && !(previous.any fun current => current.n = 0) then
    { j with sbMissed := j.sbMissed.insert key ((j.sbMissed key).getD 0 + 1) }
  else j

def completeBlockLanding (s : JitSettings) (m : M) (j : JitState) (idx : ℤ) (p : PendingBlock) : Option (M × JitState) :=
  if j.pageModuleOwnsCachedEntry p.aspace p.pc then some (m, j)
  else if !blockShouldReplaceRegion (j.cache p.pc) p.block s.traceKeepMin then some (m, j)
  else
    (j.landBlock s idx p).map fun j' =>
      (p.pages.foldl (fun m page => codeMarkPage m page.2) m, j'.noteMissed p (j.cache p.pc).join)

/-- One member of a batch; those of a page module share its slot and always land. -/
def landMember (s : JitSettings) (pageModule : Bool) (j : JitState) (idx : ℤ) (p : PendingBlock) : Option JitState :=
  if !pageModule && j.pageModuleOwnsCachedEntry p.aspace p.pc then some j
  else if !pageModule && !blockShouldReplaceRegion (j.cache p.pc) p.block s.traceKeepMin then some j
  else j.landBlock s idx p

/-- The result of a 32-bit signed addition that wraps around. -/
def wrapI32 (x : ℤ) : ℤ := x.bmod (2 ^ 32)

def memberSlot (pageModule : Bool) (base : ℤ) (offset : ℕ) : ℤ := if pageModule then base else wrapI32 (base + offset)

def completeBatchLanding (s : JitSettings) (j : JitState) (base : ℤ) (p : PendingBatch) : Option JitState :=
  p.members.zipIdx.foldlM (fun j m => j.landMember s p.pageModule.isSome (memberSlot p.pageModule.isSome base m.2) m.1) j

/-- One entry of a region: none where a page module or a long trace keeps its pc. -/
def landEntry (s : JitSettings) (idx : ℤ) (p : PendingRegion) (j : JitState) (e : U64) : Option JitState :=
  if j.pageModuleOwnsCachedEntry p.aspace e then some j
  else
    match p.pages.find? fun page => page.1 = pageOf e with
    | none => some j
    | some page =>
      if (j.cache e).join.any fun b => decide (b.n ≠ 0) && !b.fp && decide (s.traceKeepMin ≤ b.n) then some j
      else
        j.stamp.install e ⟨false, idx, 0, page.2 + (e &&& 0xfff), j.stamp.useStamp⟩

def completeRegionLanding (s : JitSettings) (j : JitState) (idx : ℤ) (p : PendingRegion) : Option JitState :=
  let j := j.recordPages idx p.pages
  p.entries.foldlM (landEntry s idx p) { j with regionExits := j.regionExits.insert idx ⟨p.aspace, p.lead, p.pages, p.entries⟩ }

end JitState

/-! ## The dispatcher -/

/-- The host could not register a module for lack of room. -/
def JIT_REGISTER_CAPACITY : ℤ := -2

def MAX_PENDING_JIT : ℕ := 4

def MAX_JIT_ISSUES_PER_RUN : ℕ := 1

structure Dispatcher where
  jit : JitState
  pendingJit : List PendingJit
  nextJitTicket : U64
  bootGen : U64
  jitIssuesThisRun : ℕ
  jitCapacityBlocked : Bool
  jitThreshold : ℕ
  settings : JitSettings
  /-- For each cell of the batch base pool, the sequence number of its last batch and that batch's first slot. -/
  batchCellSequence : ℕ → U64
  batchBasePool : ℕ → U32

namespace Dispatcher

/-- A dispatcher that has done nothing yet. -/
def new (settings : JitSettings) : Dispatcher where
  jit := .new
  pendingJit := []
  nextJitTicket := 1
  bootGen := 0
  jitIssuesThisRun := 0
  jitCapacityBlocked := false
  jitThreshold := 64
  settings := settings
  batchCellSequence := fun _ => 0
  batchBasePool := fun _ => 0

variable {M : Type} [FullSystemJitMachine M]

def fullSystemJitIssueAllowed (d : Dispatcher) : Bool :=
  !d.jitCapacityBlocked && decide (d.pendingJit.length < MAX_PENDING_JIT) && decide (d.jitIssuesThisRun < MAX_JIT_ISSUES_PER_RUN)

/-- The ticket of a compile handed to the host. -/
def submitPendingJit (d : Dispatcher) (kind : PendingJitKind) : Option (U64 × Dispatcher) :=
  if !d.fullSystemJitIssueAllowed then none
  else some (d.nextJitTicket, { d with
    nextJitTicket := d.nextJitTicket + 1
    pendingJit := d.pendingJit ++ [⟨d.nextJitTicket, d.bootGen, kind⟩]
    jitIssuesThisRun := d.jitIssuesThisRun + 1 })

/-- A list without its element at a place, which its last element takes. -/
def swapRemove {α : Type} (l : List α) (pos : ℕ) : List α :=
  match l.getLast? with
  | none => []
  | some last => (l.set pos last).dropLast

/-- The slots of a module that is not adopted. -/
def dropSlot (base : ℤ) (c : OwnedCode) (offset : ℕ) : OwnedCode :=
  let idx := if base + offset < 2 ^ 31 then base + offset else -1
  if 0 ≤ idx then (c.registerTableSlot idx).retireTableSlot idx false else c

def dropSlots (j : JitState) (base : ℤ) (slotCount : ℕ) : JitState :=
  { j with toOwnedCode := (List.range slotCount).foldl (dropSlot base) j.toOwnedCode }

/-- Whether a page changed since a compile of it was issued. -/
def pageStale (m : M) (page : (U64 × U64) × U64) : Bool :=
  let p := OwnedCode.physicalPageOf page.1.2
  !codePageMarked m p || codePageDirty m p || decide (codePageGeneration m p ≠ some page.2)

def blockStale (m : M) (block : PendingBlock) : Bool := (block.pages.zip block.pageGenerations).any (pageStale m)

def sourceStale (d : Dispatcher) (m : M) (p : PendingJit) : Bool :=
  decide (p.bootGen = d.bootGen) &&
    match p.kind with
    | .block block => blockStale m block
    | .batch batch => batch.members.any (blockStale m)
    | .region region => (region.pages.zip region.pageGenerations).any (pageStale m)

def isCurrent (d : Dispatcher) (p : PendingJit) : Bool :=
  decide (p.bootGen = d.bootGen) &&
    match p.kind with
    | .region region => d.jit.pendingSuperblockIsCurrent p.ticket region.aspace region.pages
    | .batch batch => d.jit.pageModulePendingIsCurrent p.ticket batch
    | .block _ => true

/-- How a compile ends. -/
inductive Outcome
  | wrongSlotCount
  | superseded
  | capacity
  | failed
  | stale
  | landed
  deriving DecidableEq

def outcome (d : Dispatcher) (m : M) (p : PendingJit) (base : ℤ) (slotCount : ℕ) : Outcome :=
  if p.slotCount ≠ slotCount then .wrongSlotCount
  else if !d.isCurrent p then .superseded
  else if base = JIT_REGISTER_CAPACITY then .capacity
  else if base < 0 then .failed
  else if d.sourceStale m p then .stale
  else .landed

/-- A compile that does not land gives up its claims. -/
def releaseRegion (j : JitState) (p : PendingJit) : JitState :=
  match p.kind with
  | .region region => j.finishPendingSuperblock p.ticket region.aspace region.pages false
  | _ => j

def finishBatch (j : JitState) (p : PendingJit) (finish : PageModuleFinish) : JitState :=
  match p.kind with
  | .batch batch => (j.finishPendingPageModule p.ticket batch finish).2
  | _ => j

/-- The coldest owner goes, and no compile is issued until the host returns. -/
def handleJitCapacity (d : Dispatcher) : Option Dispatcher :=
  d.jit.toOwnedCode.evictColdOwner.map fun c => { d with jit := { d.jit with toOwnedCode := c }, jitCapacityBlocked := true }

def slotsFrom (base : ℤ) (slotCount : ℕ) : List ℤ := (List.range slotCount).map fun offset => JitState.wrapI32 (base + offset)

def retireUnreferenced (j : JitState) (owner : JitOwnerId) : JitState :=
  { j with toOwnedCode := j.toOwnedCode.retireUnreferencedSlots owner }

/-- The batch's first slot, for the links between its members. -/
def publishBase (d : Dispatcher) (base : ℤ) (batch : PendingBatch) : Dispatcher :=
  if batch.pageModule.isNone ∧ d.batchCellSequence batch.cell = batch.sequence then
    { d with batchBasePool := fun c => if c = batch.cell then BitVec.ofInt 32 base else d.batchBasePool c }
  else d

/-- The module that a landed page module replaces goes. -/
def retirePrior (j : JitState) (prior : Option JitOwnerId) (owner : JitOwnerId) : Option JitState :=
  match prior with
  | none => some j
  | some prior => if prior = owner then some j else (j.toOwnedCode.retireOwner prior false).map fun c => { j with toOwnedCode := c }

def landBatch (d : Dispatcher) (owner : JitOwnerId) (base : ℤ) (batch : PendingBatch) : Option Dispatcher := do
  let finished := d.jit.finishPendingPageModule owner batch (.landed owner)
  let j ← finished.2.completeBatchLanding d.settings base batch
  let j ← retirePrior j finished.1 owner
  some (publishBase { d with jit := j } base batch)

def land (d : Dispatcher) (m : M) (p : PendingJit) (base : ℤ) : Option (M × Dispatcher) :=
  match p.kind with
  | .region region =>
    ((d.jit.finishPendingSuperblock p.ticket region.aspace region.pages true).completeRegionLanding d.settings base region).map
      fun j => (m, { d with jit := j })
  | .block block => (d.jit.completeBlockLanding d.settings m base block).map fun s => (s.1, { d with jit := s.2 })
  | .batch batch => (d.landBatch p.ticket base batch).map fun d => (m, d)

/-- A compile that the dispatcher still waits for, taken out of the queue. -/
def settle (d : Dispatcher) (m : M) (p : PendingJit) (base : ℤ) (slotCount : ℕ) : Option (M × Dispatcher) :=
  match d.outcome m p base slotCount with
  | .wrongSlotCount => some (m, { d with jit := dropSlots (finishBatch d.jit p .failed) base slotCount })
  | .superseded => some (m, { d with jit := dropSlots (finishBatch (releaseRegion d.jit p) p .cancelled) base slotCount })
  | .capacity => (handleJitCapacity { d with jit := finishBatch (releaseRegion d.jit p) p .cancelled }).map fun d => (m, d)
  | .failed => some (m, { d with jit := finishBatch (releaseRegion d.jit p) p .failed })
  | .stale => do
    let c ← d.jit.toOwnedCode.trackOwner p.ticket (slotsFrom base slotCount)
    let j := finishBatch (releaseRegion { d.jit with toOwnedCode := c } p) p .cancelled
    some (m, { d with jit := retireUnreferenced j p.ticket })
  | .landed => do
    let c ← d.jit.toOwnedCode.trackOwner p.ticket (slotsFrom base slotCount)
    let s ← land { d with jit := { d.jit with toOwnedCode := c } } m p base
    some (s.1, { s.2 with jit := retireUnreferenced s.2.jit p.ticket })

/-- The first compile in the queue with a ticket. -/
def findPending (d : Dispatcher) (ticket : U64) : Option (ℕ × PendingJit) :=
  (d.pendingJit.findIdx? fun p => p.ticket = ticket).bind fun pos => (d.pendingJit[pos]?).map fun p => (pos, p)

/-- The dispatcher without a compile that it waited for. -/
def take (d : Dispatcher) (pos : ℕ) (p : PendingJit) : Dispatcher :=
  { d with pendingJit := swapRemove d.pendingJit pos, jit := d.jit.removePendingCoverage p.kind }

/-- The host's answer: the first slot of the compiled module, or a negative number. -/
def completeJit (d : Dispatcher) (m : M) (ticket : U64) (base : ℤ) (slotCount : ℕ) : Option (M × Dispatcher) :=
  match d.findPending ticket with
  | none => some (m, { d with jit := dropSlots d.jit base slotCount })
  | some (pos, p) => settle (d.take pos p) m p base slotCount

end Dispatcher
end Lish
