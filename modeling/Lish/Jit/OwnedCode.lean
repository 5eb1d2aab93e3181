import Lish.Core.Arch
import Lish.System.Pages
import Lish.Prog.HashMap
/-!
# OwnedCode — compiled code and its owners

The part of the dispatcher's state that says which compiled function runs at a pc, which module owns its table slot, and in
which order cold modules go.
-/
namespace Lish

abbrev JitOwnerId := U64

/-- An address space and a virtual page of it. -/
abbrev PageKey := U64 × U64

instance : LawfulBEq PageKey := inferInstance

def NO_PC : U64 := BitVec.allOnes 64

def DISPATCH_BITS : ℕ := 18

def DISPATCH_SIZE : ℕ := 2 ^ DISPATCH_BITS

structure JitBlock where
  /-- The trace touches the FP file. -/
  fp : Bool
  /-- The function-table index; negative for code that cannot be translated. -/
  idx : ℤ
  /-- Guest instructions it retires; 0 for a region. -/
  n : ℕ
  /-- The physical address of the code. -/
  pa : U64
  lastUsed : U64
  deriving DecidableEq

/-- A line of the direct-mapped dispatch cache, its two tag bits apart. -/
structure DispatchLine where
  pc : U64
  idx : ℤ
  region : Bool
  pageModule : Bool
  gen : U32
  deriving DecidableEq

structure PageModuleSource where
  physicalPage : U64
  generation : U64
  tlbFill : Bool
  deriving DecidableEq

structure LivePageModule where
  source : PageModuleSource
  owner : JitOwnerId
  entries : List U64
  deriving DecidableEq

inductive PageModuleState
  | attempted (source : PageModuleSource)
  | pending (source : PageModuleSource) (ticket : U64) (prior : Option LivePageModule)
  | live (code : LivePageModule)
  deriving DecidableEq

namespace PageModuleState

def source : PageModuleState → PageModuleSource
  | attempted source => source
  | pending source _ _ => source
  | live code => code.source

def activeOwner : PageModuleState → Option JitOwnerId
  | attempted _ => none
  | pending _ _ prior => prior.map LivePageModule.owner
  | live code => some code.owner

end PageModuleState

/-- The live exit profile of a region function: what it was built from. -/
structure RegionExits where
  aspace : U64
  lead : U64
  pages : List (U64 × U64)
  entries : List U64

structure OwnedCode where
  /-- The compiled block of a pc; `some none` where it is known not to be translatable. -/
  cache : HashMap U64 (Option JitBlock)
  /-- The number of cache entries with an index. -/
  slotRefs : HashMap ℤ ℕ
  ownerSlots : HashMap JitOwnerId (List ℤ)
  slotOwner : HashMap ℤ JitOwnerId
  ownerEntries : HashMap JitOwnerId (List U64)
  ownerRecency : HashMap JitOwnerId U64
  /-- The recency stamps and their owners, the coldest first. -/
  coldOwners : List (U64 × JitOwnerId)
  pageModuleOwner : HashMap JitOwnerId PageKey
  pageModules : HashMap PageKey PageModuleState
  hot : HashMap U64 ℕ
  dispatch : ℕ → DispatchLine
  entryFilter : ℕ → Bool
  interpHot : ℕ → ℕ
  interpHotTag : ℕ → U32
  /-- The pcs of the cache entries whose code lies in a physical page. -/
  pageBlocks : HashMap U64 (List U64)
  /-- The virtual and physical pages of code that spans several. -/
  regions : HashMap ℤ (List (U64 × U64))
  regionExits : HashMap ℤ RegionExits
  extQueue : List ℤ
  /-- The table slots registered and not retired. -/
  liveSlots : ℤ → Bool
  /-- For each slot, the retirements handed to the host: whether each was an eviction. -/
  retired : ℤ → List Bool
  useStamp : U64

namespace OwnedCode

def new : OwnedCode where
  cache := .empty
  slotRefs := .empty
  ownerSlots := .empty
  slotOwner := .empty
  ownerEntries := .empty
  ownerRecency := .empty
  coldOwners := []
  pageModuleOwner := .empty
  pageModules := .empty
  hot := .empty
  dispatch := fun _ => ⟨NO_PC, 0, false, false, 0⟩
  entryFilter := fun _ => false
  interpHot := fun _ => 0
  interpHotTag := fun _ => 0
  pageBlocks := .empty
  regions := .empty
  regionExits := .empty
  extQueue := []
  liveSlots := fun _ => false
  retired := fun _ => []
  useStamp := 0

/-! ## Table slots -/

def nextJitUseStamp (c : OwnedCode) : OwnedCode := { c with useStamp := c.useStamp + 1 }

def registerTableSlot (c : OwnedCode) (idx : ℤ) : OwnedCode :=
  if idx < 0 then c else { c with liveSlots := fun i => if i = idx then true else c.liveSlots i }

def retireTableSlot (c : OwnedCode) (idx : ℤ) (evicted : Bool) : OwnedCode :=
  if idx < 0 then c
  else if c.liveSlots idx then
    { c with
      liveSlots := fun i => if i = idx then false else c.liveSlots i
      retired := fun i => if i = idx then c.retired i ++ [evicted] else c.retired i }
  else c

def dslot (pc : U64) : ℕ := (pc >>> 1).toNat % DISPATCH_SIZE

/-- The line of a pc, emptied. -/
def clearLine (c : OwnedCode) (pc : U64) : OwnedCode :=
  { c with dispatch := fun s => if s = dslot pc then { c.dispatch s with pc := NO_PC } else c.dispatch s }

def clearLineOf (c : OwnedCode) (pc : U64) : OwnedCode := if (c.dispatch (dslot pc)).pc = pc then c.clearLine pc else c

/-! ## Owners -/

/-- The order of the recency index: by stamp, then by owner. -/
def ColdLe (a b : U64 × JitOwnerId) : Prop := a.1 < b.1 ∨ a.1 = b.1 ∧ a.2 ≤ b.2

instance : DecidableRel ColdLe := fun a b => inferInstanceAs (Decidable (a.1 < b.1 ∨ a.1 = b.1 ∧ a.2 ≤ b.2))

def updateOwnerRecency (c : OwnedCode) (owner : JitOwnerId) (stamp : U64) : OwnedCode :=
  if (c.ownerRecency owner).any fun current => decide (stamp ≤ current) then c
  else
    let cold := match c.ownerRecency owner with
      | some previous => c.coldOwners.erase (previous, owner)
      | none => c.coldOwners
    { c with
      ownerRecency := c.ownerRecency.insert owner stamp
      coldOwners := SortedSet.insert ColdLe cold (stamp, owner) }

def addOwnerEntry (c : OwnedCode) (owner : JitOwnerId) (pc : U64) : OwnedCode :=
  let entries := (c.ownerEntries owner).getD []
  { c with ownerEntries := c.ownerEntries.insert owner (if pc ∈ entries then entries else entries ++ [pc]) }

/-- A list under a key without an element; the key goes with its last. -/
def dropFrom {κ α : Type} [DecidableEq κ] [DecidableEq α] (m : HashMap κ (List α)) (k : κ) (a : α) : HashMap κ (List α) :=
  match m k with
  | none => m
  | some l => if l.filter (· ≠ a) = [] then m.remove k else m.insert k (l.filter (· ≠ a))

def removeOwnerEntry (c : OwnedCode) (owner : JitOwnerId) (pc : U64) : OwnedCode :=
  { c with ownerEntries := dropFrom c.ownerEntries owner pc }

/-- The state of a page without an owner that is gone. -/
def withoutOwner (modules : HashMap PageKey PageModuleState) (key : PageKey) (owner : JitOwnerId) :
    HashMap PageKey PageModuleState :=
  match modules key with
  | some (.live live) => if live.owner = owner then modules.remove key else modules
  | some (.pending source ticket (some live)) =>
    if live.owner = owner then modules.insert key (.pending source ticket none) else modules
  | _ => modules

def forgetOwner (c : OwnedCode) (owner : JitOwnerId) : OwnedCode :=
  { c with
    ownerSlots := c.ownerSlots.remove owner
    ownerEntries := c.ownerEntries.remove owner
    ownerRecency := c.ownerRecency.remove owner
    coldOwners := match c.ownerRecency owner with
      | some stamp => c.coldOwners.erase (stamp, owner)
      | none => c.coldOwners
    pageModuleOwner := c.pageModuleOwner.remove owner
    pageModules := match c.pageModuleOwner owner with
      | some key => withoutOwner c.pageModules key owner
      | none => c.pageModules }

/-- One slot of a new owner; none where another owner has it. -/
def trackSlot (owner : JitOwnerId) (c : OwnedCode) (idx : ℤ) : Option OwnedCode :=
  if (c.slotOwner idx).isSome then none
  else some { c.registerTableSlot idx with slotOwner := c.slotOwner.insert idx owner }

/-- None where the owner is already there, has no slots or takes one of another. -/
def trackOwner (c : OwnedCode) (owner : JitOwnerId) (slots : List ℤ) : Option OwnedCode :=
  let slots := slots.filter (0 ≤ ·)
  if slots = [] ∨ (c.ownerSlots owner).isSome then none
  else do
    let c ← slots.foldlM (trackSlot owner) c
    let c := { c with ownerSlots := c.ownerSlots.insert owner slots }.nextJitUseStamp
    some (c.updateOwnerRecency owner c.useStamp)

def retireOwnedSlot (c : OwnedCode) (idx : ℤ) (evicted : Bool) : OwnedCode :=
  match c.slotOwner idx with
  | none => c
  | some owner =>
    let c := { c with slotOwner := c.slotOwner.remove idx }
    let c := match c.ownerSlots owner with
      | none => c
      | some slots =>
        let c := { c with ownerSlots := c.ownerSlots.insert owner (slots.filter (· ≠ idx)) }
        if slots.filter (· ≠ idx) = [] then c.forgetOwner owner else c
    { c with
      regions := c.regions.remove idx
      regionExits := c.regionExits.remove idx
      extQueue := c.extQueue.filter (· ≠ idx) }.retireTableSlot idx evicted

def releaseSlot (c : OwnedCode) (idx : ℤ) (evicted : Bool) : OwnedCode :=
  match c.slotRefs idx with
  | none => c
  | some refs =>
    if refs - 1 ≠ 0 then { c with slotRefs := c.slotRefs.insert idx (refs - 1) }
    else { c with slotRefs := c.slotRefs.remove idx }.retireOwnedSlot idx evicted

def retireUnreferencedSlot (evicted : Bool) (c : OwnedCode) (idx : ℤ) : OwnedCode :=
  if c.slotRefs idx = none then c.retireOwnedSlot idx evicted else c

def retireUnreferencedSlots (c : OwnedCode) (owner : JitOwnerId) : OwnedCode :=
  ((c.ownerSlots owner).getD []).foldl (retireUnreferencedSlot false) c

/-! ## Cache entries -/

def physicalPageOf (pa : U64) : U64 := (pa - RAM_BASE) >>> 12

def blockPhysicalPages (c : OwnedCode) (block : JitBlock) : List U64 :=
  match c.regions block.idx with
  | some pages => pages.map fun p => physicalPageOf p.2
  | none => if RAM_BASE ≤ block.pa then [physicalPageOf block.pa] else []

def indexPage (pc : U64) (blocks : HashMap U64 (List U64)) (page : U64) : HashMap U64 (List U64) :=
  let pcs := (blocks page).getD []
  blocks.insert page (if pc ∈ pcs then pcs else pcs ++ [pc])

def indexBlock (c : OwnedCode) (pc : U64) (block : JitBlock) : OwnedCode :=
  { c with pageBlocks := (c.blockPhysicalPages block).foldl (indexPage pc) c.pageBlocks }

def unindexBlock (c : OwnedCode) (pc : U64) (block : JitBlock) : OwnedCode :=
  { c with pageBlocks := (c.blockPhysicalPages block).foldl (fun blocks page => dropFrom blocks page pc) c.pageBlocks }

/-- The table slot of an entry. -/
def entrySlot (entry : Option JitBlock) : Option ℤ :=
  match entry with
  | some block => if 0 ≤ block.idx then some block.idx else none
  | none => none

/-- The table slot of the entry at a pc. -/
def slotAt (c : OwnedCode) (pc : U64) : Option ℤ := (c.cache pc).bind entrySlot

/-- The owner of an entry's slot; none where it should have one and does not. -/
def ownerOf (c : OwnedCode) (slot : Option ℤ) : Option (Option JitOwnerId) :=
  match slot with
  | none => some none
  | some idx => (c.slotOwner idx).map some

def moveEntry (c : OwnedCode) (pc : U64) (oldOwner newOwner : Option JitOwnerId) : OwnedCode :=
  if oldOwner = newOwner then c
  else
    let c := match oldOwner with
      | some owner => c.removeOwnerEntry owner pc
      | none => c
    match newOwner with
    | some owner => c.addOwnerEntry owner pc
    | none => c

def moveRef (c : OwnedCode) (oldIdx newIdx : Option ℤ) : OwnedCode :=
  if oldIdx = newIdx then c
  else
    let c := match newIdx with
      | some idx => { c with slotRefs := c.slotRefs.insert idx ((c.slotRefs idx).getD 0 + 1) }
      | none => c
    match oldIdx with
    | some idx => c.releaseSlot idx false
    | none => c

/-- None where a slot has no owner. -/
def cacheInsert (c : OwnedCode) (pc : U64) (entry : Option JitBlock) : Option OwnedCode := do
  let c := if (entrySlot entry).isSome then { c with entryFilter := fun s => if s = dslot pc then true else c.entryFilter s } else c
  let previous := (c.cache pc).join
  let oldIdx := entrySlot previous
  let newIdx := entrySlot entry
  let oldOwner ← c.ownerOf oldIdx
  let newOwner ← c.ownerOf newIdx
  let c := { c with cache := c.cache.insert pc entry }
  let c := match previous with
    | some block => c.unindexBlock pc block
    | none => c
  let c := match entry with
    | some block => c.indexBlock pc block
    | none => c
  let c := c.moveEntry pc oldOwner newOwner
  let c := match newOwner, entry with
    | some owner, some block => c.updateOwnerRecency owner block.lastUsed
    | _, _ => c
  some (c.moveRef oldIdx newIdx)

/-- None where the slot has no owner. -/
def cacheRemoveWithReason (c : OwnedCode) (pc : U64) (evicted : Bool) : Option OwnedCode :=
  match (c.cache pc).join with
  | none => some { c with cache := c.cache.remove pc }
  | some block =>
    let c := { c with cache := c.cache.remove pc }.unindexBlock pc block
    if 0 ≤ block.idx then do
      let owner ← c.slotOwner block.idx
      some ((c.removeOwnerEntry owner pc).releaseSlot block.idx evicted)
    else some c

def cacheRemove (c : OwnedCode) (pc : U64) : Option OwnedCode := c.cacheRemoveWithReason pc false

def touch (c : OwnedCode) (pc : U64) : OwnedCode :=
  let c := c.nextJitUseStamp
  match (c.cache pc).join with
  | none => c
  | some block =>
    let c := { c with cache := c.cache.insert pc (some { block with lastUsed := c.useStamp }) }
    match c.slotOwner block.idx with
    | some owner => c.updateOwnerRecency owner c.useStamp
    | none => c

def coolEvictedEntry (c : OwnedCode) (pc : U64) : OwnedCode :=
  { c with
    hot := c.hot.remove pc
    interpHot := fun s =>
      if s = dslot pc ∧ c.interpHotTag s = (pc >>> 1).setWidth 32 then 0 else c.interpHot s }

/-! ## Retiring a module -/

def isPageModuleSlot (c : OwnedCode) (idx : ℤ) : Bool := (c.slotOwner idx).any fun owner => (c.pageModuleOwner owner).isSome

/-- The index of a block's dispatch line, with its tags. -/
def taggedLine (c : OwnedCode) (pc : U64) (block : JitBlock) (gen : U32) : DispatchLine :=
  ⟨pc, block.idx, decide (block.n = 0 ∧ 0 ≤ block.idx), decide (0 ≤ block.idx) && c.isPageModuleSlot block.idx, gen⟩

def retireEntry (evicted : Bool) (c : OwnedCode) (pc : U64) : Option OwnedCode :=
  ((if evicted then c.coolEvictedEntry pc else c).clearLineOf pc).cacheRemoveWithReason pc evicted

def retireOwner (c : OwnedCode) (owner : JitOwnerId) (evicted : Bool) : Option OwnedCode := do
  let slots := (c.ownerSlots owner).getD []
  let pcs := (c.ownerEntries owner).getD []
  let c ← pcs.foldlM (retireEntry evicted) { c with ownerEntries := c.ownerEntries.remove owner }
  -- an export can be unreferenced because a newer landing won the cache race
  let c := slots.foldl (retireUnreferencedSlot evicted) c
  some (if slots = [] then c.forgetOwner owner else c)

/-- Whether a page module was retired. -/
def retirePageModuleForSlot (c : OwnedCode) (idx : ℤ) : Option (Bool × OwnedCode) :=
  match c.slotOwner idx with
  | none => some (false, c)
  | some owner =>
    if (c.pageModuleOwner owner).isNone then some (false, c)
    else (c.retireOwner owner false).map fun c => (true, c)

def evictColdOwner (c : OwnedCode) : Option OwnedCode :=
  match c.coldOwners with
  | [] => some c
  | (_, owner) :: _ => c.retireOwner owner true

/-- Every owned slot is retired, and everything is forgotten. -/
def clear (c : OwnedCode) : OwnedCode :=
  { new with
    dispatch := fun s => { c.dispatch s with pc := NO_PC }
    liveSlots := fun i => c.liveSlots i && !((c.slotOwner i).isSome && decide (0 ≤ i))
    retired := fun i =>
      if (c.slotOwner i).isSome ∧ 0 ≤ i ∧ c.liveSlots i then c.retired i ++ [false] else c.retired i
    useStamp := c.useStamp }

end OwnedCode
end Lish
