import Lish.Prog.FreeRuns
import Lish.Prog.OrderedMap
/-!
# JitCodeStore — compiled functions in the shared table

The host's store of compiled WebAssembly functions: its slots of the function table, their owners, reservations for modules
that compile asynchronously, and deferred retirement.
-/
namespace Lish

/-- A WebAssembly function, as the host knows it. -/
abbrev JsFunction := ℕ

/-- The exports of an instance that are functions, by name. -/
abbrev JsInstance := String → Option JsFunction

inductive JsError
  | typeError (message : String)
  | rangeError (message : String)
  /-- The table refuses a value, or to grow. -/
  | table
  deriving DecidableEq, Repr

def MAX_SAFE_INTEGER : ℕ := 2 ^ 53 - 1

/-! ## The function table -/

/-- What the host's table refuses during an operation. -/
structure TableHost where
  set : ℕ → Option JsFunction → Bool
  grow : Bool

/-- A `WebAssembly.Table`: its length, and its entries. -/
structure FunctionTable where
  length : ℕ
  get : ℕ → Option JsFunction

namespace FunctionTable

def set (t : FunctionTable) (host : TableHost) (i : ℕ) (v : Option JsFunction) : Option FunctionTable :=
  if i < t.length ∧ host.set i v = false then some { t with get := fun j => if j = i then v else t.get j } else none

/-- The new entries are null. -/
def grow (t : FunctionTable) (n : ℕ) : FunctionTable :=
  ⟨t.length + n, fun i => if i < t.length then t.get i else none⟩

end FunctionTable

/-! ## The store -/

structure JitLimits where
  maxModules : ℕ
  maxSlots : ℕ
  maxBytes : ℕ
  growSlots : ℕ
  modules_pos : 0 < maxModules
  slots_pos : 0 < maxSlots
  bytes_pos : 0 < maxBytes
  grow_pos : 0 < growSlots

/-- A live module. -/
structure JitOwner where
  bytes : ℕ
  evicted : Bool
  slots : List ℕ

/-- Capacity and slots reserved for one asynchronous module. -/
structure Reservation where
  id : ℕ
  generation : ℕ
  base : ℕ
  slotCount : ℕ
  byteLength : ℕ

def Reservation.span (r : Reservation) : Span := ⟨r.base, r.slotCount⟩

structure JitStats where
  peakModules : ℕ
  peakSlots : ℕ
  peakBytes : ℕ
  peakPendingModules : ℕ
  peakPendingSlots : ℕ
  peakPendingBytes : ℕ
  peakCommittedModules : ℕ
  peakCommittedSlots : ℕ
  peakCommittedBytes : ℕ
  emittedBytes : ℕ
  registeredModules : ℕ
  retiredModules : ℕ
  retiredSlots : ℕ
  evictedModules : ℕ
  evictedSlots : ℕ
  capacityRejects : ℕ
  registrationFailures : ℕ

structure JitCodeStore where
  limits : JitLimits
  table : FunctionTable
  base : ℕ
  next : ℕ
  free : List Span
  owners : OrderedMap ℕ JitOwner
  slotOwners : OrderedMap ℕ ℕ
  /-- Slots queued for cleanup, and why. -/
  retirements : OrderedMap ℕ ℕ
  /-- By the reservation's identity. -/
  reservations : OrderedMap ℕ Reservation
  nextOwner : ℕ
  nextReservation : ℕ
  generation : ℕ
  liveSlots : ℕ
  liveBytes : ℕ
  pendingSlots : ℕ
  pendingBytes : ℕ
  stats : JitStats
  destroyed : Bool

namespace JitCodeStore

open FreeRuns

def new (table : FunctionTable) (limits : JitLimits) : JitCodeStore where
  limits := limits
  table := table
  base := table.length
  next := table.length
  free := []
  owners := .empty
  slotOwners := .empty
  retirements := .empty
  reservations := .empty
  nextOwner := 1
  nextReservation := 1
  generation := 0
  liveSlots := 0
  liveBytes := 0
  pendingSlots := 0
  pendingBytes := 0
  stats := ⟨0, 0, 0, 0, 0, 0, 0, 0, 0, 0, 0, 0, 0, 0, 0, 0, 0⟩
  destroyed := false

/-! ### Peaks -/

def recordCommittedPeaks (s : JitCodeStore) : JitCodeStore :=
  { s with stats := { s.stats with
      peakCommittedModules := max s.stats.peakCommittedModules (s.owners.size + s.reservations.size)
      peakCommittedSlots := max s.stats.peakCommittedSlots (s.liveSlots + s.pendingSlots)
      peakCommittedBytes := max s.stats.peakCommittedBytes (s.liveBytes + s.pendingBytes) } }

def recordLivePeaks (s : JitCodeStore) : JitCodeStore :=
  recordCommittedPeaks { s with stats := { s.stats with
      peakModules := max s.stats.peakModules s.owners.size
      peakSlots := max s.stats.peakSlots s.liveSlots
      peakBytes := max s.stats.peakBytes s.liveBytes } }

def recordPendingPeaks (s : JitCodeStore) : JitCodeStore :=
  recordCommittedPeaks { s with stats := { s.stats with
      peakPendingModules := max s.stats.peakPendingModules s.reservations.size
      peakPendingSlots := max s.stats.peakPendingSlots s.pendingSlots
      peakPendingBytes := max s.stats.peakPendingBytes s.pendingBytes } }

def capacityReject (s : JitCodeStore) : JitCodeStore :=
  { s with stats := { s.stats with capacityRejects := s.stats.capacityRejects + 1 } }

def registrationFailure (s : JitCodeStore) : JitCodeStore :=
  { s with stats := { s.stats with registrationFailures := s.stats.registrationFailures + 1 } }

/-! ### Allocation -/

def hasRun (s : JitCodeStore) (length : ℕ) : Bool :=
  s.free.any (fun run => decide (run.len ≥ length)) || decide (s.next + length ≤ s.base + s.limits.maxSlots)

def canRegister (s : JitCodeStore) (slotCount byteLength : ℕ) : Bool :=
  !s.destroyed && decide (slotCount ≤ MAX_SAFE_INTEGER) && decide (slotCount > 0) && decide (byteLength ≤ MAX_SAFE_INTEGER) &&
    decide (s.owners.size + s.reservations.size < s.limits.maxModules) &&
    decide (s.liveSlots + s.pendingSlots + slotCount ≤ s.limits.maxSlots) &&
    decide (s.liveBytes + s.pendingBytes + byteLength ≤ s.limits.maxBytes) && s.hasRun slotCount

def allocate (s : JitCodeStore) (host : TableHost) (length : ℕ) : Except JsError ℕ × JitCodeStore :=
  match take length s.free with
  | some (base, free) => (.ok base, { s with free := free })
  | none =>
    let required := s.next + length
    if required > s.table.length then
      let maximum := s.base + s.limits.maxSlots
      let growth := min (max s.limits.growSlots (required - s.table.length)) (maximum - s.table.length)
      if growth = 0 then (.error (.rangeError "JIT table capacity exhausted"), s)
      else if host.grow then (.error .table, s)
      else (.ok s.next, { s with table := s.table.grow growth, next := required })
    else (.ok s.next, { s with next := required })

def releaseRun (s : JitCodeStore) (start length : ℕ) : JitCodeStore := { s with free := give s.free start length }

/-! ### Installation -/

def getFunctions (s : JitCodeStore) (exports : JsInstance) (exportNames : List String) :
    Except JsError (List JsFunction) × JitCodeStore :=
  match exportNames.mapM exports with
  | some functions => (.ok functions, s)
  | none => (.error (.typeError "JIT module has a missing function export"), s.registrationFailure)

/-- Sets the functions into consecutive slots: whether all were taken, and the slots that were. -/
def installLoop (host : TableHost) (ownerId : ℕ) : ℕ → List JsFunction → List ℕ → JitCodeStore → Bool × List ℕ × JitCodeStore
  | _, [], slots, s => (true, slots, s)
  | slot, f :: fs, slots, s =>
    match s.table.set host slot (some f) with
    | none => (false, slots, s)
    | some table =>
      installLoop host ownerId (slot + 1) fs (slots ++ [slot])
        { s with table := table, slotOwners := s.slotOwners.set slot ownerId }

def rollbackLoop (host : TableHost) : List ℕ → JitCodeStore → Bool × JitCodeStore
  | [], s => (true, s)
  | slot :: slots, s =>
    match s.table.set host slot none with
    | none => (false, s)
    | some table => rollbackLoop host slots { s with table := table, slotOwners := s.slotOwners.delete slot }

def install (s : JitCodeStore) (host : TableHost) (base : ℕ) (functions : List JsFunction) (byteLength : ℕ) :
    Except JsError ℤ × JitCodeStore :=
  let ownerId := s.nextOwner
  match installLoop host ownerId base functions [] { s with nextOwner := s.nextOwner + 1 } with
  | (true, slots, s) =>
    (.ok base, recordLivePeaks { s with
        owners := s.owners.set ownerId ⟨byteLength, false, slots⟩
        liveSlots := s.liveSlots + functions.length
        liveBytes := s.liveBytes + byteLength
        stats := { s.stats with
          emittedBytes := s.stats.emittedBytes + byteLength
          registeredModules := s.stats.registeredModules + 1 } })
  | (false, slots, s) =>
    match rollbackLoop host slots s with
    | (false, s) => (.error .table, s)
    | (true, s) => (.error .table, (s.releaseRun base functions.length).registrationFailure)

def register (s : JitCodeStore) (host : TableHost) (exports : JsInstance) (exportNames : List String) (byteLength : ℕ) :
    Except JsError ℤ × JitCodeStore :=
  if !s.canRegister exportNames.length byteLength then (.ok (-2), s.capacityReject)
  else
    match s.getFunctions exports exportNames with
    | (.error e, s) => (.error e, s)
    | (.ok functions, s) =>
      match s.allocate host functions.length with
      | (.error e, s) => (.error e, s)
      | (.ok base, s) => s.install host base functions byteLength

/-! ### Reservations -/

def reserve (s : JitCodeStore) (host : TableHost) (slotCount byteLength : ℕ) : Except JsError (Option Reservation) × JitCodeStore :=
  if !s.canRegister slotCount byteLength then (.ok none, s.capacityReject)
  else
    match s.allocate host slotCount with
    | (.error e, s) => (.error e, s)
    | (.ok base, s) =>
      let reservation : Reservation := ⟨s.nextReservation, s.generation, base, slotCount, byteLength⟩
      (.ok (some reservation), recordPendingPeaks { s with
          nextReservation := s.nextReservation + 1
          reservations := s.reservations.set reservation.id reservation
          pendingSlots := s.pendingSlots + slotCount
          pendingBytes := s.pendingBytes + byteLength })

def consumeReservation (s : JitCodeStore) (r : Reservation) : JitCodeStore :=
  { s with
    reservations := s.reservations.delete r.id
    pendingSlots := s.pendingSlots - r.slotCount
    pendingBytes := s.pendingBytes - r.byteLength }

def releaseReservation (s : JitCodeStore) (id : ℕ) : Bool × JitCodeStore :=
  match s.reservations.get? id with
  | none => (false, s)
  | some active => (true, (s.consumeReservation active).releaseRun active.base active.slotCount)

def registerReserved (s : JitCodeStore) (host : TableHost) (id : ℕ) (exports : JsInstance) (exportNames : List String) :
    Except JsError ℤ × JitCodeStore :=
  match s.reservations.get? id with
  | none => (.error (.typeError "JIT reservation is not active"), s)
  | some active =>
    if active.generation ≠ s.generation then (.ok (-1), (s.releaseReservation id).2)
    else if exportNames.length ≠ active.slotCount then
      (.error (.rangeError "JIT reservation slot count does not match its exports"), (s.registrationFailure.releaseReservation id).2)
    else
      match s.getFunctions exports exportNames with
      | (.error e, s) => (.error e, (s.releaseReservation id).2)
      | (.ok functions, s) =>
        match (s.consumeReservation active).install host active.base functions active.byteLength with
        | (.error e, s) => (.error e, (s.releaseReservation id).2)
        | (.ok idx, s) => (.ok idx, s)

/-! ### Retirement -/

/-- Queues a slot for cleanup. -/
def retire (s : JitCodeStore) (slot reason : ℕ) : JitCodeStore :=
  if !s.slotOwners.has slot then s
  else { s with retirements := s.retirements.set slot (max ((s.retirements.get? slot).getD 0) reason) }

/-- One slot leaves its owner; the last one takes the owner with it. -/
def dropSlot (s : JitCodeStore) (slot reason ownerId : ℕ) (owner : JitOwner) : JitCodeStore :=
  let slots := owner.slots.erase slot
  let evicted := owner.evicted || reason == 1
  let s := { s with
    owners := s.owners.set ownerId { owner with slots := slots, evicted := evicted }
    liveSlots := s.liveSlots - 1
    stats := { s.stats with
      retiredSlots := s.stats.retiredSlots + 1
      evictedSlots := s.stats.evictedSlots + if reason = 1 then 1 else 0 } }
  if slots = [] then
    { s with
      owners := s.owners.delete ownerId
      liveBytes := s.liveBytes - owner.bytes
      stats := { s.stats with
        retiredModules := s.stats.retiredModules + 1
        evictedModules := s.stats.evictedModules + if evicted then 1 else 0 } }
  else s

/-- Clears queued slots, until the table refuses: the slots cleared. -/
def flushLoop (host : TableHost) : List (ℕ × ℕ) → List ℕ → JitCodeStore → Except JsError (List ℕ) × JitCodeStore
  | [], released, s => (.ok released, s)
  | (slot, reason) :: rest, released, s =>
    match s.slotOwners.get? slot with
    | none => flushLoop host rest released s
    | some ownerId =>
      match s.table.set host slot none with
      | none => (.error .table, s)
      | some table =>
        let s := { s with table := table, slotOwners := s.slotOwners.delete slot }
        match s.owners.get? ownerId with
        | none => (.error (.typeError "Cannot read properties of undefined"), s)
        | some owner => flushLoop host rest (released ++ [slot]) (s.dropSlot slot reason ownerId owner)

/-- Gives back a run that may still grow, then the rest. -/
def releaseRuns (s : JitCodeStore) (start length : ℕ) : List ℕ → JitCodeStore
  | [] => s.releaseRun start length
  | slot :: slots =>
    if slot = start + length then s.releaseRuns start (length + 1) slots
    else (s.releaseRun start length).releaseRuns slot 1 slots

def flushRetired (s : JitCodeStore) (host : TableHost) : Except JsError Unit × JitCodeStore :=
  if s.retirements.size = 0 then (.ok (), s)
  else
    let slots := s.retirements.entries.mergeSort fun a b => decide (a.1 ≤ b.1)
    match flushLoop host slots [] { s with retirements := .empty } with
    | (.error e, s) => (.error e, s)
    | (.ok [], s) => (.ok (), s)
    | (.ok (slot :: released), s) => (.ok (), s.releaseRuns slot 1 released)

/-- Queues every live slot. -/
def retireAll (s : JitCodeStore) : JitCodeStore :=
  { s with retirements := s.slotOwners.keys.foldl (fun m slot => m.set slot 0) s.retirements }

def clear (s : JitCodeStore) (host : TableHost) : Except JsError Unit × JitCodeStore :=
  if s.destroyed then (.ok (), s) else ({ s with generation := s.generation + 1 }.retireAll).flushRetired host

def destroy (s : JitCodeStore) (host : TableHost) : Except JsError Unit × JitCodeStore :=
  if s.destroyed then (.ok (), s)
  else
    match ({ s with destroyed := true, generation := s.generation + 1 }.retireAll).flushRetired host with
    | (.error e, s) => (.error e, s)
    | (.ok (), s) => (.ok (), s.reservations.keys.foldl (fun s id => (s.releaseReservation id).2) s)

/-! ### Completions -/

/-- A compilation that has ended: its result, and what the host and the guest's side do about it. -/
structure Completion where
  slotCount : ℕ
  /-- An instance, or a failure. -/
  result : Option JsInstance
  reservation : Option ℕ
  /-- The machine it was for still exists. -/
  alive : Bool
  install : TableHost
  flush : TableHost
  /-- The slots retired while ownership is handed over, and why. -/
  retired : List (ℕ × ℕ)
  /-- The handover returned; else it threw. -/
  returned : Bool

def exportNames (slotCount : ℕ) : List String :=
  if slotCount = 1 then ["run"] else (List.range slotCount).map fun index => "r" ++ toString index

/-- The place of the module, or -1. -/
def completedIndex (s : JitCodeStore) (c : Completion) : ℤ × JitCodeStore :=
  match c.result, c.reservation with
  | none, _ => (-1, s)
  | some _, none => (-1, s)
  | some exports, some id =>
    match s.registerReserved c.install id exports (exportNames c.slotCount) with
    | (.ok idx, s) => (idx, s)
    | (.error _, s) => (-1, s)

/-- Hands the module over; a module that was not taken is queued for cleanup. -/
def handOver (s : JitCodeStore) (c : Completion) (idx : ℤ) : JitCodeStore :=
  let s := c.retired.foldl (fun s (slot, reason) => s.retire slot reason) s
  if c.returned then s else if idx ≥ 0 then s.retire idx.toNat 0 else s

def completeAsyncJit (s : JitCodeStore) (c : Completion) : JitCodeStore :=
  let s :=
    if !c.alive || s.destroyed then s
    else (((s.completedIndex c).2.handOver c (s.completedIndex c).1).flushRetired c.flush).2
  match c.reservation with
  | none => s
  | some id => (s.releaseReservation id).2

end JitCodeStore
end Lish
