import Lish.System.ExternalBlock
/-!
# HostDisk — the host loop and its disk operations

The class that embeds a machine: `start`, `stop`, `reset` and `destroy`, the tick that runs slices, and the disk operation a
tick awaits.  A method runs to its next await without interruption; what it awaits is queued, and a yield to the host lets
every microtask run first.  The requests left with the host are numbered across boots, beside the state.
-/
namespace Lish

/-- The guest's disk: the device in the Wasm module, and the memory it reaches. -/
abbrev GuestDisk := VirtioDev × Dma

namespace GuestDisk

/-- One thing that a running guest does to its disk: stores to memory, register writes, polls and notifies. -/
inductive GuestStep : GuestDisk → GuestDisk → Prop
  | memory {d : VirtioDev} {m m' : Dma} (hm : Dma.SameRam m m') : GuestStep (d, m) (d, m')
  | write (d : VirtioDev) (m : Dma) (offset : U64) (val : U32) : GuestStep (d, m) ((d.write offset val).2, m)
  | process {d d' : VirtioDev} {m m' : Dma} (fuel qi : ℕ) (hp : d.process fuel qi m = some (d', m')) :
      GuestStep (d, m) (d', m')

def pending (s : GuestDisk) : Option PendingBlockRequest := s.1.pendingBlockRequest

/-- A slice runs the guest; while a request waits for the host, it runs the other devices only. -/
inductive GuestSlice : GuestDisk → GuestDisk → Prop
  | waits {d : VirtioDev} {m m' : Dma} (hp : d.pendingBlockRequest.isSome) (hm : Dma.SameRam m m') : GuestSlice (d, m) (d, m')
  | runs {s s' : GuestDisk} (hp : s.pending = none) (h : Relation.ReflTransGen GuestStep s s') : GuestSlice s s'

/-- `virt_disk_complete` completes the request that is pending, whichever it is. -/
def virtDiskComplete (s : GuestDisk) (data : List U8) (ok : Bool) : Bool × GuestDisk :=
  match s.pending with
  | none => (false, s)
  | some r => s.1.completeBlockRequest r.id data ok s.2

/-- The disk of a machine that has just been assembled. -/
def fresh (size : U64) (m : Dma) : GuestDisk := (.new (.externalBlock size none), m)

end GuestDisk

/-- A disk operation in flight: the tick that awaits it, and the number of the request it was issued for. -/
structure DiskOperation where
  id : ℕ
  generation : ℕ
  request : ℕ
  deriving DecidableEq

/-- What is left of an async method when what it awaits has settled. -/
inductive Continuation
  /-- `reset`, its `stop` done. -/
  | reset
  /-- `reset`, the new machine assembled. -/
  | restart
  /-- `destroy`, its `stop` done. -/
  | destroy
  deriving DecidableEq

inductive Microtask
  /-- A tick whose disk operation has settled. -/
  | tick (op generation : ℕ) (ok : Bool)
  | method (k : Continuation)
  deriving DecidableEq

structure RV64 where
  running : Bool
  destroyed : Bool
  generation : ℕ
  diskOperation : Option ℕ
  disk : GuestDisk
  /-- Ticks yielded to the host, by generation. -/
  yielded : List ℕ
  /-- The generation of the tick whose slice is running. -/
  slicing : Option ℕ
  flight : List DiskOperation
  /-- Disk operations that have settled, and whether they resolved. -/
  settled : List (ℕ × Bool)
  /-- Methods that await a disk operation. -/
  waiting : List (ℕ × Continuation)
  microtasks : List Microtask
  /-- How many requests have been left with the host. -/
  issued : ℕ
  /-- The request of each disk operation, in the order they are begun. -/
  serviced : List ℕ
  /-- The request of each operation that completed one, and the request it completed. -/
  completed : List (ℕ × ℕ)

namespace RV64

open GuestDisk

/-- A machine assembled and not started. -/
def create (size : U64) (m : Dma) : RV64 where
  running := false
  destroyed := false
  generation := 0
  diskOperation := none
  disk := .fresh size m
  yielded := []
  slicing := none
  flight := []
  settled := []
  waiting := []
  microtasks := []
  issued := 0
  serviced := []
  completed := []

/-! ## Methods -/

def start (v : RV64) : RV64 :=
  if v.running then v
  else { v with running := true, generation := v.generation + 1, yielded := v.yielded ++ [v.generation + 1] }

/-- `stop` up to its await; a network failure does the same. -/
def halt (v : RV64) : RV64 := if v.running then { v with running := false, generation := v.generation + 1 } else v

/-- Suspend a method until the disk operation has settled; a method that awaits a rejected one is rejected. -/
def await (v : RV64) (k : Continuation) : RV64 :=
  match v.diskOperation with
  | none => { v with microtasks := v.microtasks ++ [.method k] }
  | some op =>
    match v.settled.lookup op with
    | none => { v with waiting := v.waiting ++ [(op, k)] }
    | some true => { v with microtasks := v.microtasks ++ [.method k] }
    | some false => v

/-- Assemble a machine in place of the old one. -/
def assemble (v : RV64) (size : U64) (m : Dma) : RV64 := { v with disk := .fresh size m }

/-- `reset` stops a running machine first; a stopped one is assembled at once. -/
def reset (v : RV64) (size : U64) (m : Dma) : RV64 := if v.running then v.halt.await .reset else v.assemble size m

def destroy (v : RV64) : RV64 := if v.destroyed then v else v.halt.await .destroy

/-- The rest of a method. -/
def resume (v : RV64) (size : U64) (m : Dma) (k : Continuation) : RV64 :=
  match k with
  | .reset => if v.destroyed then v else { v.assemble size m with microtasks := v.microtasks ++ [.method .restart] }
  | .restart => if v.destroyed then v else v.start
  | .destroy => { v with destroyed := true, generation := v.generation + 1 }

/-! ## The tick -/

/-- A tick that is no longer current returns; another one runs a slice. -/
def enter (v : RV64) (g : ℕ) : RV64 := if !v.running || g ≠ v.generation then v else { v with slicing := some g }

/-- Issue a disk operation for the request that is pending. -/
def serviceDisk (v : RV64) (g : ℕ) : RV64 :=
  { v with
    flight := v.flight ++ [⟨v.serviced.length, g, v.issued⟩]
    diskOperation := some v.serviced.length
    serviced := v.serviced ++ [v.issued] }

/-- The guest's disk after a slice; a request that the slice leaves pending is a new one, unless it was pending before. -/
def sliced (v : RV64) (s : GuestDisk) : RV64 :=
  { v with
    disk := s
    slicing := none
    issued := if v.disk.pending.isNone && s.pending.isSome then v.issued + 1 else v.issued }

/-- The tick after its slice, which has thrown or returned whether the machine has powered off. -/
def leave (v : RV64) (g : ℕ) (s : GuestDisk) (poweredOff : Option Bool) : RV64 :=
  match poweredOff with
  | none => { v.sliced s with running := false }
  | some off =>
    if s.pending.isSome then (v.sliced s).serviceDisk g
    else if off then { v.sliced s with running := false }
    else { v.sliced s with yielded := v.yielded ++ [g] }

/-- A disk operation takes its result to the guest, and settles; what awaits it goes on, or is rejected with it. -/
def settle (v : RV64) (op : DiskOperation) (rest : List DiskOperation) (data : List U8) (ok : Bool) : RV64 :=
  let (done, s) := v.disk.virtDiskComplete data ok
  let woken := (v.waiting.filter fun w => w.1 == op.id).map fun w => Microtask.method w.2
  { v with
    disk := s
    flight := rest
    settled := v.settled ++ [(op.id, done)]
    waiting := v.waiting.filter fun w => w.1 != op.id
    microtasks := v.microtasks ++ .tick op.id op.generation done :: if done then woken else []
    completed := if done then v.completed ++ [(op.request, v.issued)] else v.completed }

/-- The tick after its disk operation. -/
def resumeTick (v : RV64) (op g : ℕ) (ok : Bool) : RV64 :=
  let v := if v.diskOperation = some op then { v with diskOperation := none } else v
  if !ok then { v with running := false }
  else if !v.running || g ≠ v.generation then v
  else { v with yielded := v.yielded ++ [g] }

def runMicrotask (v : RV64) (size : U64) (m : Dma) : Microtask → RV64
  | .tick op g ok => v.resumeTick op g ok
  | .method k => v.resume size m k

/-! ## Interleavings -/

/-- What happens next. -/
inductive Action
  | start
  | stop
  | reset
  | destroy
  | networkFailure
  | input
  | enter
  | leave
  | result
  | microtask

/-- Calls come at any time, from listeners during a slice too; ticks only when no microtask is left. -/
inductive Step (size : U64) (v : RV64) : Action → RV64 → Prop
  | start (hd : v.destroyed = false) : Step size v .start v.start
  | stop (hd : v.destroyed = false) : Step size v .stop v.halt
  | reset (hd : v.destroyed = false) (m : Dma) : Step size v .reset (v.reset size m)
  | destroy : Step size v .destroy v.destroy
  | networkFailure : Step size v .networkFailure v.halt
  /-- Console and network input reach the guest through its memory. -/
  | input {m : Dma} (hs : v.slicing = none) (hm : Dma.SameRam v.disk.2 m) : Step size v .input { v with disk := (v.disk.1, m) }
  | enter {a b : List ℕ} {g : ℕ} (hs : v.slicing = none) (hm : v.microtasks = []) (hy : v.yielded = a ++ g :: b) :
      Step size v .enter (enter { v with yielded := a ++ b } g)
  | leave {g : ℕ} {s : GuestDisk} (hs : v.slicing = some g) (h : GuestSlice v.disk s) (poweredOff : Option Bool) :
      Step size v .leave (v.leave g s poweredOff)
  | result {a b : List DiskOperation} {op : DiskOperation} (hs : v.slicing = none) (hf : v.flight = a ++ op :: b) (data : List U8)
      (ok : Bool) : Step size v .result (v.settle op (a ++ b) data ok)
  | microtask {a b : List Microtask} {t : Microtask} (hs : v.slicing = none) (ht : v.microtasks = a ++ t :: b) (m : Dma) :
      Step size v .microtask (runMicrotask { v with microtasks := a ++ b } size m t)

/-- The states of the runs whose steps all meet `P`. -/
inductive Reach (size : U64) (P : RV64 → Action → Prop) : RV64 → Prop
  | create (m : Dma) : Reach size P (create size m)
  | step {v v' : RV64} {a : Action} (h : Reach size P v) (hP : P v a) (hs : Step size v a v') : Reach size P v'

/-- Each request has one disk operation at most, which completes that request and no other, once at most. -/
structure ExactDisk (v : RV64) : Prop where
  once : v.serviced.Nodup
  own : ∀ c ∈ v.completed, c.1 = c.2
  completedOnce : (v.completed.map Prod.snd).Nodup

/-- No slice is running, and no disk operation is in flight. -/
def Quiet (v : RV64) : Prop := v.slicing = none ∧ v.flight = []

/-- Calls made while the disk is quiet: a stopped machine is started only then, and a reset comes from outside a slice, of a
stopped machine only when no operation is in flight. -/
def Awaits (v : RV64) : Action → Prop
  | .start => v.running = false → v.Quiet
  | .reset => v.slicing = none ∧ (v.running = false → v.flight = [])
  | _ => True

end RV64
end Lish
