import Lish.Jit.CompleteJit
/-!
# DispatcherSteps — what the dispatcher does to the compiled code

Everything between two completions: invalidation of dirty pages, dispatch, demotion, tier-up and the compiles it issues, and
the host's switches.  What the machine and the translators answer is a parameter of each step.
-/
namespace Lish

namespace OwnedCode

/-! ## Dropping entries -/

def dropCached (c : OwnedCode) (pc : U64) : Option OwnedCode := (c.cacheRemove pc).map fun c => c.clearLineOf pc

/-- A page module goes as a whole, other code entry by entry. -/
def dropUnmapped (c : OwnedCode) (pc : U64) (idx : ℤ) : Option OwnedCode := do
  let s ← c.retirePageModuleForSlot idx
  if s.1 then some s.2 else (s.2.cacheRemove pc).map fun c => c.clearLine pc

/-- The slow path of a dispatch: the line is refilled where the code's pages still map where they did. -/
def resolve (c : OwnedCode) (pc : U64) (mapped : Bool) (gen : U32) : Option OwnedCode :=
  match (c.cache pc).join with
  | none => some c
  | some block =>
    if mapped then some { c with dispatch := fun s => if s = dslot pc then c.taggedLine pc block gen else c.dispatch s }
    else c.dropUnmapped pc block.idx

/-- An entry that is to be compiled once more, with its observed successor. -/
def extendInline (c : OwnedCode) (pc : U64) : Option OwnedCode := (c.cacheRemove pc).map fun c => c.clearLine pc

/-- An entry that keeps missing the TLB is to be compiled once more, with refills. -/
def dropBailing (c : OwnedCode) (pc : U64) : Option OwnedCode :=
  match (c.cache pc).join with
  | none => c.dropCached pc
  | some block => do
    let s ← c.retirePageModuleForSlot block.idx
    if s.1 then some s.2 else s.2.dropCached pc

def demoteEntry (idx : ℤ) (c : OwnedCode) (e : U64) : Option OwnedCode :=
  if (c.cache e).join.any fun b => b.idx = idx then c.dropCached e else some c

def demoteEntries (c : OwnedCode) (idx : ℤ) (entries : List U64) : Option OwnedCode :=
  (entries.foldlM (demoteEntry idx) { c with regionExits := c.regionExits.remove idx }).map fun c =>
    { c with regions := c.regions.remove idx, extQueue := c.extQueue.filter (· ≠ idx) }

/-- The guest reaches a pc, and its compiled function is called. -/
def Calls (c : OwnedCode) (pc : U64) : Prop :=
  pc.getLsbD 0 = false ∧
    ((c.dispatch (dslot pc)).pc = pc ∧ 0 ≤ (c.dispatch (dslot pc)).idx ∨ ∃ block, (c.cache pc).join = some block ∧ 0 ≤ block.idx)

end OwnedCode

def SB_RECOMPILE_CAP : ℕ := 16

namespace JitState

open OwnedCode (physicalPageOf)

/-! ## Dirty pages -/

def pageDirty (ppage physical : U64) : Bool := decide (RAM_BASE ≤ physical) && decide (physicalPageOf physical = ppage)

def dropStaged (j : JitState) (ppage : U64) : JitState :=
  let dirty := fun block : PendingBlock => block.pages.any fun page => pageDirty ppage page.2
  { (j.confirmedStage.filter dirty).foldl removeConfirmedCoverage j with
    confirmedStage := j.confirmedStage.filter fun block => !dirty block }

/-- A build over a physical page is pending or live under a key. -/
def tracks (j : JitState) (ppage : U64) (key : PageKey) : Bool :=
  (j.pendingSuperblocks key).any (fun claim => claim.physicalPage = ppage) ||
    (j.pageModules key).any fun state => state.source.physicalPage = ppage

/-- What the walk over the dirty pages has found. -/
structure Drain where
  jit : JitState
  pendingPages : PageKey → Bool
  cachedPages : U64 → Bool

def drainPage (s : Drain) (ppage : U64) : Option Drain :=
  let j := s.jit.dropStaged ppage
  let pcs := (j.pageBlocks ppage).getD []
  (pcs.foldlM OwnedCode.dropCached { j.toOwnedCode with pageBlocks := j.pageBlocks.remove ppage }).map fun c =>
    ⟨{ j with toOwnedCode := c }, fun k => s.pendingPages k || s.jit.tracks ppage k,
      fun v => s.cachedPages v || pcs.any fun pc => pageOf pc = v⟩

/-- The owners of the code that is live on some pages. -/
def ActiveOwners (j : JitState) (exact : PageKey → Bool) (owners : List JitOwnerId) : Prop :=
  ∀ o, o ∈ owners ↔ ∃ k, exact k = true ∧ (j.pageModules k).bind PageModuleState.activeOwner = some o

def invalidateSuperblockState (j : JitState) (exact : PageKey → Bool) (broad : U64 → Bool) (owners : List JitOwnerId) :
    Option JitState :=
  let keep := fun k : PageKey => !exact k && !broad k.2
  (owners.foldlM (fun c o => OwnedCode.retireOwner c o false) j.toOwnedCode).map fun c =>
    { j with
      toOwnedCode := { c with pageModules := c.pageModules.retain fun k _ => !exact k }
      pageEntries := j.pageEntries.retain fun k _ => keep k
      pageHotEntries := j.pageHotEntries.retain fun k _ => !exact k && (!broad k.2 || (j.pageModules k).isSome)
      superblocked := fun k => j.superblocked k && keep k
      pendingSuperblocks := j.pendingSuperblocks.retain fun k _ => keep k
      sbGen := j.sbGen.retain fun k _ => keep k }

/-- The state after an address-space switch: too many spaces are forgotten at once. -/
def switchSpace (j : JitState) (gen : U64) (entriesFull hotFull : Bool) : JitState :=
  let j := { j with flushGen := gen }
  let j := if entriesFull then
      { j with pageEntries := .empty, superblocked := fun _ => false, pendingSuperblocks := .empty, sbGen := .empty }
    else j
  if hotFull then
    { j with
      pageHotEntries := .empty
      pageModules := j.pageModules.retain fun _ state =>
        match state with
        | .attempted _ => false
        | .pending _ _ _ => true
        | .live _ => true }
  else j

/-! ## Regions -/

def spendAllowance (aspace : U64) (j : JitState) (page : U64 × U64) : JitState :=
  { j with
    sbGen := j.sbGen.insert (aspace, page.1) (2 ^ 31 - 1, SB_RECOMPILE_CAP, 0)
    sbMissed := j.sbMissed.remove (aspace, page.1) }

/-- The entries of a region that does not hold execution go back to individual blocks. -/
def demoteRegion (j : JitState) (idx : ℤ) : Option JitState :=
  match j.regionExits idx with
  | none => some j
  | some r => (j.toOwnedCode.demoteEntries idx r.entries).map fun c => r.pages.foldl (spendAllowance r.aspace) { j with toOwnedCode := c }

def recordPageHotEntry (j : JitState) (aspace pc : U64) : JitState :=
  { j with pageHotEntries := addSeed aspace j.pageHotEntries pc }

/-- A pc that has just become warm in an address space. -/
def recordWarm (j : JitState) (warm : Option U64) (pc : U64) : JitState :=
  match warm with
  | some aspace => j.recordPageHotEntry aspace pc
  | none => j

/-- An entry of the interpreter's hot counters, counted once. -/
def countEntry (j : JitState) (pc : U64) (interp : ℕ) : JitState :=
  { j with
    interpHotTag := fun s => if s = OwnedCode.dslot pc then (pc >>> 1).setWidth 32 else j.interpHotTag s
    interpHot := fun s => if s = OwnedCode.dslot pc then interp else j.interpHot s }

end JitState

/-- The members of a page's module are entries of that page, and there is one at least. -/
def PendingBatch.OfPage (b : PendingBatch) (key : PageKey) : Prop :=
  b.members ≠ [] ∧ ∀ p ∈ b.members, p.aspace = key.1 ∧ JitState.pageOf p.pc = key.2 ∧ ∃ pa, p.pages = [(key.2, pa)]

/-- A page module is built from entries of its page. -/
def PendingJit.Proper (p : PendingJit) : Prop := ∀ b key, p.kind = .batch b → b.pageModule = some key → b.OfPage key

namespace Dispatcher

variable {M : Type} [FullSystemJitMachine M]

/-! ## Issuing compiles -/

/-- A pc hot enough to be compiled, and not tried yet. -/
def Tiered (d : Dispatcher) (pc : U64) : Prop := d.jit.cache pc = none ∧ d.jitThreshold ≤ (d.jit.hot pc).getD 0

/-- The pc of an interpreted stretch, counted. -/
def countPc (d : Dispatcher) (pc : U64) : Dispatcher :=
  { d with jit := { d.jit with hot := d.jit.hot.insert pc (((d.jit.hot pc).getD 0 + 1) % 2 ^ 32) } }

/-- A compile of a region, with its claims and the start of its lead page's cooldown. -/
def issueRegion (d : Dispatcher) (r : PendingRegion) (gen : ℕ × ℕ × U64) : Option Dispatcher := do
  let s ← d.submitPendingJit (.region r)
  let j ← s.2.jit.claimPendingSuperblock s.1 r.aspace r.pages
  some { s.2 with jit := { j with
    sbMissed := fun k => if k ∈ r.pages.map (fun page => (r.aspace, page.1)) then none else j.sbMissed k
    sbGen := j.sbGen.insert (r.aspace, r.lead) gen } }

/-- A compile of a page module; none where the page cannot be translated. -/
def issuePageModule (d : Dispatcher) (key : PageKey) (source : PageModuleSource) (batch : Option PendingBatch) : Dispatcher :=
  match d.jit.pageModuleDecision key source with
  | .individual => d
  | .awaiting => d
  | .build prior =>
    match batch with
    | none => { d with jit := d.jit.recordPageModuleFailure key source prior }
    | some batch =>
      match d.submitPendingJit (.batch { batch with pageModule := some key }) with
      | none => d
      | some s => { s.2 with jit := s.2.jit.setPageModule key (.pending source s.1 prior) }

/-- A block that cannot be translated. -/
def blacklist (d : Dispatcher) (pc pa : U64) : Option Dispatcher :=
  (d.jit.toOwnedCode.cacheInsert pc (some ⟨false, -1, 0, pa, 0⟩)).map fun c => { d with jit := { d.jit with toOwnedCode := c } }

def stage (d : Dispatcher) (block : PendingBlock) : Dispatcher :=
  let j := d.jit.addConfirmedCoverage block
  { d with jit := { j with confirmedStage := j.confirmedStage ++ [block] } }

/-- The first staged traces, in one module. -/
def submitConfirmedStage (d : Dispatcher) (target cell : ℕ) (sequence : U64) : Option Dispatcher :=
  if d.jit.confirmedStage.length < target then none
  else
    (d.submitPendingJit (.batch ⟨cell, sequence, d.jit.confirmedStage.take target, none⟩)).map fun s =>
      { s.2 with
        jit := { s.2.jit with confirmedStage := d.jit.confirmedStage.drop target }
        batchCellSequence := fun c => if c = cell then sequence else d.batchCellSequence c }

/-! ## The host's switches -/

def JIT_ON_THRESHOLD : ℕ := 64

def U32_MAX : ℕ := 2 ^ 32 - 1

def jitSetEnabled (d : Dispatcher) (on : Bool) : Dispatcher :=
  if on then { d with jitThreshold := JIT_ON_THRESHOLD } else { d with jitThreshold := U32_MAX, jit := d.jit.clear }

def jitSetThreshold (d : Dispatcher) (threshold : ℕ) : Dispatcher := { d with jitThreshold := max threshold 1 }

/-- A boot: the code and every compile in flight are forgotten. -/
def resetFullSystemJit (d : Dispatcher) : Dispatcher :=
  { d with bootGen := d.bootGen + 1, pendingJit := [], jit := d.jit.clear, jitCapacityBlocked := false }

def setCode (d : Dispatcher) (c : OwnedCode) : Dispatcher := { d with jit := { d.jit with toOwnedCode := c } }

/-! ## Steps -/

/-- What happens next. -/
inductive Action
  | beginRun
  | switchSpace
  | drain
  | touch
  | resolve
  | extendInline
  | dropBailing
  | demote
  | queueExtension
  | extend
  | queuePage
  | buildQueued
  | count (pc : U64)
  | build
  | recordEntry
  | pageModule
  | block
  | batch
  | stage
  | submitStage
  | blacklist
  | observe
  | complete (ticket : U64) (base : ℤ) (slotCount : ℕ)
  | enable
  | disable
  | threshold
  | reset
  deriving DecidableEq

/-- A region build is issued, or not. -/
inductive Builds (d : Dispatcher) : Dispatcher → Prop
  | none : Builds d d
  | issue {d' : Dispatcher} (r : PendingRegion) (gen : ℕ × ℕ × U64) (hr : r.pages ≠ []) (h : d.issueRegion r gen = some d') : Builds d d'

/-- A step of the dispatcher, on a machine in a state of its own. -/
inductive Step (m : M) (d : Dispatcher) : Action → Dispatcher → Prop
  | beginRun : Step m d .beginRun { d with jitCapacityBlocked := false, jitIssuesThisRun := 0 }
  | switchSpace (gen : U64) (entriesFull hotFull : Bool) :
      Step m d .switchSpace { d with jit := d.jit.switchSpace gen entriesFull hotFull }
  | drain {dirty : List U64} {s : JitState.Drain} {owners : List JitOwnerId} {j : JitState}
      (hd : dirty.foldlM JitState.drainPage ⟨d.jit, fun _ => false, fun _ => false⟩ = some s)
      (ho : s.jit.ActiveOwners s.pendingPages owners) (hj : s.jit.invalidateSuperblockState s.pendingPages s.cachedPages owners = some j) :
      Step m d .drain { d with jit := j }
  | touch (pc : U64) : Step m d .touch (d.setCode (d.jit.toOwnedCode.touch pc))
  | resolve {pc : U64} {mapped : Bool} {gen : U32} {c : OwnedCode} (h : d.jit.toOwnedCode.resolve pc mapped gen = some c) :
      Step m d .resolve (d.setCode c)
  | extendInline {pc : U64} {c : OwnedCode} (h : d.jit.toOwnedCode.extendInline pc = some c) : Step m d .extendInline (d.setCode c)
  | dropBailing {pc : U64} {c : OwnedCode} (h : d.jit.toOwnedCode.dropBailing pc = some c) : Step m d .dropBailing (d.setCode c)
  | demote {idx : ℤ} {j : JitState} (h : d.jit.demoteRegion idx = some j) : Step m d .demote { d with jit := j }
  | queueExtension {idx : ℤ} (h : (d.jit.regionExits idx).isSome) :
      Step m d .queueExtension (d.setCode { d.jit.toOwnedCode with extQueue := d.jit.extQueue ++ [idx] })
  /-- A queued extension is taken; its region stops sampling if a larger one is built. -/
  | extend {d' : Dispatcher} {idx : ℤ} {queue : List ℤ} (hidx : idx ∈ d.jit.extQueue) (hq : queue.Sublist d.jit.extQueue) (sampling : Bool)
      (h : Builds (d.setCode { d.jit.toOwnedCode with
        extQueue := queue, regionExits := if sampling then d.jit.regionExits else d.jit.regionExits.remove idx }) d') :
      Step m d .extend d'
  | queuePage {pc : U64} (ht : d.Tiered pc) (key : PageKey) :
      Step m d .queuePage { d with jit := { d.jit with sbQueue := d.jit.sbQueue ++ [key] } }
  | buildQueued {d' : Dispatcher} {key : PageKey} (hk : key ∈ d.jit.sbQueue)
      (h : Builds { d with jit := { d.jit with sbQueue := d.jit.sbQueue.erase key } } d') : Step m d .buildQueued d'
  | count (pc : U64) (hc : d.jit.cache pc = none) : Step m d (.count pc) (d.countPc pc)
  | build {d' : Dispatcher} {pc : U64} (ht : d.Tiered pc) (h : Builds d d') : Step m d .build d'
  | recordEntry {pc : U64} (ht : d.Tiered pc) (aspace : U64) (hot : Bool) :
      Step m d .recordEntry { d with jit := if hot then d.jit.recordPageHotEntry aspace pc
        else { d.jit with pageEntries := JitState.addSeed aspace d.jit.pageEntries pc } }
  | pageModule {pc : U64} (ht : d.Tiered pc) (key : PageKey) (source : PageModuleSource) (batch : Option PendingBatch)
      (hb : ∀ b ∈ batch, b.OfPage key) : Step m d .pageModule (d.issuePageModule key source batch)
  | block {s : U64 × Dispatcher} {p : PendingBlock} (ht : d.Tiered p.pc) (h : d.submitPendingJit (.block p) = some s) :
      Step m d .block s.2
  | batch {s : U64 × Dispatcher} {pc : U64} {p : PendingBatch} (ht : d.Tiered pc) (hp : p.pageModule = none)
      (h : d.submitPendingJit (.batch p) = some s) :
      Step m d .batch { s.2 with batchCellSequence := fun c => if c = p.cell then p.sequence else d.batchCellSequence c }
  | stage {p : PendingBlock} (ht : d.Tiered p.pc) : Step m d .stage (d.stage p)
  | submitStage {d' : Dispatcher} {target cell : ℕ} {sequence : U64} (ht : 2 ≤ target)
      (h : d.submitConfirmedStage target cell sequence = some d') : Step m d .submitStage d'
  | blacklist {d' : Dispatcher} {pc pa : U64} (ht : d.Tiered pc) (h : d.blacklist pc pa = some d') : Step m d .blacklist d'
  /-- The interpreter passes a pc; it may become hot while tier-up is on. -/
  | observe (pc : U64) (interp : ℕ) (warm : Option U64) (tiered : Bool) (ht : d.jitThreshold ≠ U32_MAX) :
      Step m d .observe { d with jit := { (d.jit.countEntry pc interp).recordWarm warm pc with
        hot := if tiered then d.jit.hot.insert pc d.jitThreshold else d.jit.hot } }
  | complete {d' : Dispatcher} {m' : M} {ticket : U64} {base : ℤ} {slotCount : ℕ}
      (h : d.completeJit m ticket base slotCount = some (m', d')) : Step m d (.complete ticket base slotCount) d'
  | enable : Step m d .enable (d.jitSetEnabled true)
  | disable : Step m d .disable (d.jitSetEnabled false)
  | threshold (t : ℕ) : Step m d .threshold (d.jitSetThreshold t)
  | reset : Step m d .reset d.resetFullSystemJit

/-- The states of the runs from a first one whose steps all meet `P`. -/
inductive Run (P : M → Dispatcher → Action → Prop) (d₀ : Dispatcher) : Dispatcher → Prop
  | start : Run P d₀ d₀
  | step {m : M} {d d' : Dispatcher} {a : Action} (h : Run P d₀ d) (hP : P m d a) (hs : Step m d a d') : Run P d₀ d'

/-- The states the dispatcher reaches from its first one. -/
def Reach (M : Type) [FullSystemJitMachine M] (d : Dispatcher) : Prop :=
  ∃ settings, Run (fun (_ : M) _ _ => True) (Dispatcher.new settings) d

end Dispatcher
end Lish
