import Lish.Prog.Loop
import Lish.System.VirtMachine
/-!
# Slices — the interpreter loops

The machine is run in slices: devices are polled and clocks synchronized, then an interpreter runs in chunks until the budget
is used or something stops it.  The interpreter fetches each instruction, or runs over cached blocks; either may be watched by
a dispatcher that stops it before code it has compiled.
-/
namespace Lish

inductive InterpreterStop
  | cpu (r : StopReason)
  | compiled
  deriving DecidableEq

/-- Result of one slice; idle: the hart waits in WFI and no deterministic timer can be advanced. -/
structure RunSliceOutcome where
  retired : U64
  idle : Bool
  deriving DecidableEq

/-- An interpreter, over the state of the predicate or dispatcher that watches it. -/
inductive Interpreter (S : Type)
  /-- Fetch and step; stop at a pc the predicate, if any, accepts. -/
  | legacy (compiled : Option (S → U64 → Bool × S))
  /-- Cached blocks; `contains` is a lookahead, `observe` is called for a pc that execution reaches. -/
  | cached (contains : S → U64 → Bool) (observe : S → U64 → Bool × S) (stopCapable : Bool)

variable {S : Type}

/-! ## Single stepping -/

/-- What the single-stepping loop works on. -/
structure Stepping (S : Type) where
  hart : Machine VirtBus
  watch : S

/-- One turn of `run_cpu_until`, from a first instruction count. -/
def stepUntil (host : Option HostFp) (compiled : S → U64 → Bool × S) (start maxInsns : U64) (l : Stepping S) :
    Option (Turn (Stepping S) (InterpreterStop × Stepping S)) :=
  if l.hart.cpu.insnCount - start < maxInsns then
    match l.hart.run host 1 with
    | (.budget, hart) =>
      let (stop, watch) := compiled l.watch hart.cpu.pc
      some (if stop then .done (.compiled, ⟨hart, watch⟩) else .next ⟨hart, watch⟩)
    | (stop, hart) => some (.done (.cpu stop, ⟨hart, l.watch⟩))
  else some (.done (.cpu .budget, l))

/-- Run, or stop after the first instruction whose successor the predicate accepts. -/
def runCpuUntil (host : Option HostFp) (fuel : ℕ) (compiled : Option (S → U64 → Bool × S)) (maxInsns : U64)
    (l : Stepping S) : Option (InterpreterStop × Stepping S) :=
  match compiled with
  | none =>
    let (stop, hart) := l.hart.run host maxInsns.toNat
    some (.cpu stop, { l with hart := hart })
  | some compiled => Loop.run (stepUntil host compiled l.hart.cpu.insnCount maxInsns) fuel l

/-! ## Cached blocks -/

/-- What the loop over cached blocks works on. -/
structure Blocks (S : Type) where
  hart : Machine VirtBus
  cache : CodePageCache
  watch : S
  stalledTraps : U64
  firstBlock : Bool

def saturatingSucc (n : U64) : U64 := if n = BitVec.allOnes 64 then n else n + 1

/-- One instruction without the cache. -/
def runUncachedOne (host : Option HostFp) (l : Blocks S) : Turn (Blocks S) (InterpreterStop × Blocks S) :=
  let before := l.hart.cpu.insnCount
  let (stop, hart) := l.hart.run host 1
  let l := { l with hart := hart, stalledTraps := if hart.cpu.insnCount = before then saturatingSucc l.stalledTraps else 0 }
  if stop = .budget then .next l else .done (.cpu stop, l)

/-- The decoded block at the pc; none if it has to be fetched. -/
def blockAt (l : Blocks S) : Option (List DecodedInsn) × Blocks S :=
  let pc := l.hart.cpu.pc
  match l.hart.jitProbeFetch pc with
  | (none, hart) => (none, { l with hart := hart })
  | (some physical, hart) =>
    let ram := hart.bus.ram.flat
    if physical &&& 0xfff ≠ pc &&& 0xfff ∨ (ram.offset (physical &&& ~~~0xfff) 0x1000).isNone then (none, { l with hart := hart })
    else
      let (block, cache) := l.cache.block ram physical hart.cpu.icacheGen
      (block, { l with hart := hart, cache := cache })

/-- The part of a block before a compiled successor. -/
def untilCompiled (contains : U64 → Bool) : U64 → List DecodedInsn → List DecodedInsn
  | _, [] => []
  | pc, d :: rest =>
    if contains (pc + d.byteLen) then [d] else d :: untilCompiled contains (pc + d.byteLen) rest

/-- Run over a block, and count the traps that retire nothing. -/
def runBlock (host : Option HostFp) (block : List DecodedInsn) (l : Blocks S) : Turn (Blocks S) (InterpreterStop × Blocks S) :=
  let before := l.hart.cpu.insnCount
  match l.hart.runDecoded host block with
  | (.stop .budget, hart) => .next { l with hart := hart, stalledTraps := 0 }
  | (.stop stop, hart) => .done (.cpu stop, { l with hart := hart })
  | (.trapped, hart) =>
    .next { l with hart := hart, stalledTraps := if hart.cpu.insnCount = before then saturatingSucc l.stalledTraps else 0 }

/-- The dispatcher sees every block but the first. -/
def observeBlock (observe : S → U64 → Bool × S) (l : Blocks S) : Bool × Blocks S :=
  if l.firstBlock then (false, { l with firstBlock := false })
  else
    let (stop, watch) := observe l.watch l.hart.cpu.pc
    (stop, { l with watch := watch })

/-- One turn of `run_cached_cpu`, from a first instruction count. -/
def blockTurn (host : Option HostFp) (contains : S → U64 → Bool) (observe : S → U64 → Bool × S) (stopCapable : Bool)
    (start maxInsns : U64) (l : Blocks S) : Option (Turn (Blocks S) (InterpreterStop × Blocks S)) :=
  match observeBlock observe l with
  | (true, l) => some (.done (.compiled, l))
  | (false, l) =>
    let retired := l.hart.cpu.insnCount - start
    if retired ≥ maxInsns ∨ l.stalledTraps ≥ maxInsns then some (.done (.cpu .budget, l))
    else
      let pc := l.hart.cpu.pc
      match blockAt l with
      | (none, l) => some (runUncachedOne host l)
      | (some block, l) =>
        let block := block.take (maxInsns - retired).toNat
        some (runBlock host (if stopCapable then untilCompiled (contains l.watch) pc block else block) l)

def runCachedCpu (host : Option HostFp) (fuel : ℕ) (contains : S → U64 → Bool) (observe : S → U64 → Bool × S)
    (stopCapable : Bool) (maxInsns : U64) (hart : Machine VirtBus) (cache : CodePageCache) (watch : S) :
    Option (InterpreterStop × Blocks S) :=
  Loop.run (blockTurn host contains observe stopCapable hart.cpu.insnCount maxInsns) fuel ⟨hart, cache, watch, 0, true⟩

/-! ## Slices -/

namespace Interpreter

/-- Run a chunk. -/
def run (host : Option HostFp) (fuel : ℕ) (maxInsns : U64) (m : VirtMachine) (watch : S) :
    Interpreter S → Option (InterpreterStop × VirtMachine × S)
  | legacy compiled =>
    (runCpuUntil host fuel compiled maxInsns ⟨m.hart, watch⟩).map fun (stop, l) => (stop, { m with hart := l.hart }, l.watch)
  | cached contains observe stopCapable =>
    (runCachedCpu host fuel contains observe stopCapable maxInsns m.hart m.codeCache watch).map fun (stop, l) =>
      (stop, { m with hart := l.hart, codeCache := l.cache }, l.watch)

def shouldStop (watch : S) (pc : U64) : Interpreter S → Bool × S
  | legacy (some compiled) => compiled watch pc
  | legacy none => (false, watch)
  | cached _ observe _ => observe watch pc

def needsPeriodicSync : Interpreter S → Bool
  | legacy compiled => compiled.isSome
  | cached _ _ stopCapable => stopCapable

end Interpreter

/-- What the loop of a slice works on. -/
structure Slice (S : Type) where
  machine : VirtMachine
  watch : S
  remaining : U64
  stop : InterpreterStop

namespace VirtMachine

def hasExternalDisk (m : VirtMachine) : Bool :=
  m.hart.bus.virtio.any fun d => match d.backend with
    | .externalBlock _ _ => true
    | _ => false

/-- The instructions to run before clocks and devices are looked at again. -/
def chunk (m : VirtMachine) (backend : Interpreter S) (remaining : U64) : U64 :=
  if (backend.needsPeriodicSync || m.hasExternalDisk) ∧ INTERPRETER_SYNC_INTERVAL ≤ remaining then INTERPRETER_SYNC_INTERVAL
  else remaining

/-- A call of the supervisor's guest that the host services. -/
def afterEcall (backend : Interpreter S) (l : Slice S) : Turn (Slice S) (Slice S) :=
  let m := l.machine.serviceSbi
  if m.unsupportedSbi.isSome then .done { l with machine := { m with powerOff := true } }
  else if m.powerOff then .done { l with machine := m }
  else
    let (stop, watch) := backend.shouldStop l.watch m.hart.cpu.pc
    if stop then .done { l with machine := m, watch := watch, stop := .compiled }
    else .next { l with machine := m, watch := watch }

/-- A chunk that used its budget. -/
def afterBudget (backend : Interpreter S) (retired : U64) (l : Slice S) : Turn (Slice S) (Slice S) :=
  let m := l.machine.syncDevices
  let l := { l with machine := m }
  if m.pendingBlockRequest.isSome then .done l
  else if retired = 0 then .done l
  else if !backend.needsPeriodicSync && !m.hasExternalDisk then .done l
  else .next l

/-- One turn of the loop of a slice. -/
def sliceTurn (host : Option HostFp) (fuel : ℕ) (backend : Interpreter S) (l : Slice S) : Option (Turn (Slice S) (Slice S)) :=
  if l.remaining = 0 ∨ l.machine.powerOff then some (.done l)
  else
    let before := l.machine.hart.cpu.insnCount
    (backend.run host fuel (l.machine.chunk backend l.remaining) l.machine l.watch).map fun (stop, m, watch) =>
      let retired := m.hart.cpu.insnCount - before
      let remaining := if retired ≤ l.remaining then l.remaining - retired else 0
      let l : Slice S := ⟨m, watch, remaining, stop⟩
      if stop = .cpu .ecall ∧ m.hart.bus.directSbi then afterEcall backend l
      else if stop = .cpu .budget ∧ remaining ≠ 0 then afterBudget backend retired l
      else .done l

/-- Fast-forward to the next deadline, or idle. -/
def sleep (m : VirtMachine) : VirtMachine × Bool :=
  let next := m.hart.bus.mtimecmp
  if m.realtimeTicks.isNone ∧ next ≠ BitVec.allOnes 64 ∧ next > m.hart.bus.mtime then
    ({ m with idleTicks := m.idleTicks + (next - m.hart.bus.mtime) }, false)
  else (m, true)

/-- The end of a slice. -/
def finishSlice (start : U64) (l : Slice S) : RunSliceOutcome × VirtMachine × S :=
  let (m, idle) := if l.stop = .cpu .wfi then l.machine.sleep else (l.machine, false)
  let m := m.syncDevices
  (⟨m.hart.cpu.insnCount - start, idle⟩, { m with powerOff := m.powerOff || m.hart.bus.powerOff }, l.watch)

/-- The machine when the loop of a slice starts. -/
def startSlice (m : VirtMachine) : VirtMachine := (m.mapBus VirtBus.pollVirtio).syncDevices

/-- Run a slice; none if a loop takes more than `fuel` turns. -/
def runSliceBackend (host : Option HostFp) (fuel : ℕ) (backend : Interpreter S) (maxInsns : U64) (m : VirtMachine) (watch : S) :
    Option (RunSliceOutcome × VirtMachine × S) :=
  let start := m.hart.cpu.insnCount
  let m := m.startSlice
  if m.pendingBlockRequest.isSome then some (⟨0, false⟩, m, watch)
  else (Loop.run (sliceTurn host fuel backend) fuel ⟨m, watch, maxInsns, .cpu .budget⟩).map (finishSlice start)

end VirtMachine
end Lish
