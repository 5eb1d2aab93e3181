import Lish.Jit.TraceEmit
/-!
# Translate — the compiler of traces

A trace is walked twice: first for the registers it touches, then for its code.  Both walks follow forward jumps, calls, returns
whose target is known, branches in the direction that is hot and indirect jumps to the target that was seen last.
-/
namespace Lish

open Wasm Code

/-- Instructions of a trace at most. -/
def MAX_TRACE : ℕ := 256

/-- A longer trace asks for its fuel before it starts. -/
def FUEL_GUARD_MIN : ℕ := 48

/-- Where emitted code finds the registers and the cells of the emulator, in a layout without guest memory and floating-point
registers: the blocks of such a layout end at loads, stores and floating-point instructions. -/
structure TraceLayout where
  xBase : U32
  pcAddr : U32
  retiredAddr : U32
  /-- 0: no fuel is asked for. -/
  fuelAddr : U32
  dispatchBase : U32
  dispatchMask : U32
  mapGenAddr : U32

/-- Who takes over where no function of the module does. -/
inductive ExitFallback
  | host
  | router (idx : U32)

structure TranslationConfig where
  link : U64 → Option U32
  directFuncBase : U32
  validateDirectLink : Bool
  fallback : ExitFallback
  traceLevel : ℕ
  followDirectJumps : Bool
  directConditionalEdges : Bool
  stopAtLinkedEntry : Bool

/-! ## Facts -/

/-- What is known of a register along a trace: nothing, a value set by the trace itself, or one reloaded from the stack. -/
inductive Known
  | no
  | proven (v : U64)
  | predicted (v : U64)
  deriving DecidableEq

/-- The value of a fact. -/
def Known.value? : Known → Option U64
  | no => none
  | proven v => some v
  | predicted v => some v

structure TraceFacts where
  known : Fin 32 → Known
  /-- The displacement of the stack pointer from the start of the trace, while it is constant. -/
  spDelta : Option U64
  /-- Stack slots by displacement. -/
  slots : List (U64 × Known)

namespace TraceFacts

def new : TraceFacts := ⟨fun _ => .no, some 0, []⟩

/-- The slot that a load through the stack pointer reads. -/
def loaded (f : TraceFacts) (insn : U32) : Option Known :=
  if opcode insn = 0x03 ∧ funct3 insn = 3 ∧ rs1 insn = 2 then
    f.spDelta.bind fun dl => (f.slots.reverse.find? fun slot => slot.1 = dl + immI insn).map Prod.snd
  else none

/-- A store through the stack pointer records its register, or forgets the slot. -/
def recordStore (f : TraceFacts) (insn : U32) : TraceFacts :=
  if opcode insn = 0x23 ∧ funct3 insn = 3 ∧ rs1 insn = 2 then
    match f.spDelta with
    | some dl =>
      let key := dl + immS insn
      let kept := f.slots.filter fun slot => slot.1 ≠ key
      let v := f.known (rs2 insn)
      { f with slots := if v ≠ .no then kept ++ [(key, v)] else kept }
    | none => f
  else f

/-- What is known of the register that an instruction writes. -/
def result (insn : U32) (pc : U64) (loaded : Option Known) : Known :=
  match opcode insn with
  | 0x37 => .proven (immU insn)
  | 0x17 => .proven (pc + immU insn)
  -- an aliasing store can have changed the slot
  | 0x03 => ((loaded.bind Known.value?).map Known.predicted).getD .no
  | _ => .no

/-- Every write of a register lands in rd, and the displacement outlives constant steps of the stack pointer only. -/
def clobber (f : TraceFacts) (insn : U32) (pc : U64) (loaded : Option Known) : TraceFacts :=
  let d := rd insn
  if d = 0 then f
  else
    let f := { f with known := Function.update f.known d (result insn pc loaded) }
    if d ≠ 2 then f
    else if opcode insn = 0x13 ∧ funct3 insn = 0 ∧ rs1 insn = 2 then { f with spDelta := f.spDelta.map fun dl => dl + immI insn }
    else { f with spDelta := none, slots := [] }

def step (f : TraceFacts) (insn : U32) (pc : U64) : TraceFacts := (f.recordStore insn).clobber insn pc (f.loaded insn)

/-- A followed jump leaves its link in rd. -/
def link (f : TraceFacts) (d : Fin 32) (next : U64) : TraceFacts :=
  if d ≠ 0 then { f with known := Function.update f.known d (.proven next) } else f

end TraceFacts

/-! ## Decisions -/

section

variable (w : CodeWindow) (hot : U64 → Bool) (next : U64 → Option U64) (cfg : TranslationConfig)

/-- Inside the window. -/
def CodeWindow.bounded (t : U64) : Bool := decide (w.base ≤ t ∧ t < w.base + BitVec.ofNat 64 w.code.length)

/-- Forward jumps are followed, and calls in either direction. -/
def followsJal (d : Fin 32) (target pc : U64) : Bool :=
  if d = 0 then cfg.followDirectJumps && decide (pc < target) && w.bounded target
  else decide (2 ≤ cfg.traceLevel) && decide (target ≠ pc) && w.bounded target

/-- The target of a return through a register with a fact. -/
def returnTarget (f : TraceFacts) (insn : U32) (pc : U64) : Option U64 :=
  if rd insn = 0 ∧ 3 ≤ cfg.traceLevel then
    ((f.known (rs1 insn)).value?.map fun v => (v + immI insn) &&& ~~~1).filter fun t => decide (t ≠ pc) && w.bounded t
  else none

/-- The target that the indirect jump of a segment was seen to take. -/
def cachedTarget (segEntry pc : U64) : Option U64 :=
  if 3 ≤ cfg.traceLevel then (next segEntry).filter fun t => decide (t ≠ pc) && w.bounded t else none

/-- The taken arm is followed when it is hot and the other one is not. -/
def followsTaken (target pc nextPc : U64) : Bool := w.bounded target && decide (pc < target) && hot target && !hot nextPc

/-- The trace stops before an entry that another function has. -/
def stopsAt (n : ℕ) (pc : U64) : Bool := decide (n ≠ 0) && cfg.stopAtLinkedEntry && (cfg.link pc).isSome

def branchFunct3 (f3 : ℕ) : Bool := f3 = 0 ∨ f3 = 1 ∨ f3 = 4 ∨ f3 = 5 ∨ f3 = 6 ∨ f3 = 7

/-- How a walk goes on after an instruction. -/
inductive Pace (α β : Type)
  | go (a : α)
  | stop (b : β)

/-! ## The first walk -/

/-- The registers that the trace reads and writes. -/
structure Scan where
  read : U32
  write : U32
  pc : U64
  n : ℕ
  facts : TraceFacts
  segEntry : U64

def mark (m : U32) (r : Fin 32) : U32 := if r = 0 then m else m ||| ((1 : U32) <<< r.val)

namespace Scan

def reads (s : Scan) (r : Fin 32) : Scan := { s with read := mark s.read r }
def writes (s : Scan) (r : Fin 32) : Scan := { s with write := mark s.write r }
def moves (s : Scan) (facts : TraceFacts) (pc : U64) : Scan := { s with facts, pc, n := s.n + 1 }

/-- A segment of the trace starts. -/
def enters (s : Scan) (target : U64) : Scan := { s with segEntry := target }

/-- The shared tail of the instructions inside the trace. -/
def passes (s : Scan) (insn : U32) (nextPc : U64) : Scan := s.moves (s.facts.step insn s.pc) nextPc

end Scan

def scanInsn (insn : U32) (ilen : U64) (s : Scan) : Pace Scan Scan :=
  let nextPc := s.pc + ilen
  let d := rd insn
  match opcode insn with
  | 0x37 => .go ((s.writes d).passes insn nextPc)
  | 0x17 => .go ((s.writes d).passes insn nextPc)
  | 0x13 => .go (((s.reads (rs1 insn)).writes d).passes insn nextPc)
  | 0x33 =>
    if aluHandled 0x33 (funct7 insn) (funct3 insn) then
      .go ((((s.reads (rs1 insn)).reads (rs2 insn)).writes d).passes insn nextPc)
    else .stop s
  | 0x1b =>
    if funct3 insn = 0 ∨ funct3 insn = 1 ∨ funct3 insn = 5 then .go (((s.reads (rs1 insn)).writes d).passes insn nextPc)
    else .stop s
  | 0x3b =>
    if aluHandled 0x3b (funct7 insn) (funct3 insn) then
      .go ((((s.reads (rs1 insn)).reads (rs2 insn)).writes d).passes insn nextPc)
    else .stop s
  | 0x6f =>
    let target := s.pc + immJ insn
    let s := s.writes d
    if followsJal w cfg d target s.pc then .go (s.moves ((s.facts.step insn s.pc).link d nextPc) target) else .stop s
  | 0x67 =>
    if funct3 insn ≠ 0 then .stop s
    else
      match returnTarget w cfg s.facts insn s.pc with
      | some t =>
        let s := match s.facts.known (rs1 insn) with
          | .predicted _ => s.reads (rs1 insn) -- the guard reads it
          | _ => s
        .go (s.moves (s.facts.step insn s.pc) t)
      | none =>
        let s := (s.reads (rs1 insn)).writes d
        match cachedTarget w next cfg s.segEntry s.pc with
        | some t => .go ((s.moves ((s.facts.step insn s.pc).link d nextPc) t).enters t)
        | none => .stop s
  | 0x63 =>
    if branchFunct3 (funct3 insn) then
      let target := s.pc + immB insn
      let s := (s.reads (rs1 insn)).reads (rs2 insn)
      if cfg.traceLevel = 0 then .stop s
      else .go (s.moves s.facts (if followsTaken w hot target s.pc nextPc then target else nextPc))
    else .stop s
  | _ => .stop s

/-- The walk over at most so many more instructions. -/
def scanLoop : ℕ → Scan → Scan
  | 0, s => s
  | k + 1, s =>
    if stopsAt cfg s.n s.pc then s
    else
      match w.fetch s.pc with
      | none => s
      | some (insn, ilen) =>
        match scanInsn w hot next cfg insn ilen s with
        | .go s => scanLoop k s
        | .stop s => s

def scanRegs (startPc : U64) : Scan := scanLoop w hot next cfg MAX_TRACE ⟨0, 0, startPc, 0, .new, startPc⟩

end

/-! ## Leaving a trace -/

namespace TraceLayout

variable (lay : TraceLayout)

def setPcConst (pc : U64) : List Code := [i32Const 0, i64Const pc, i64Store (lay.pcAddr.setWidth 64)]

/-- The count is cumulative over the functions of a chain. -/
def setRetired (n : ℕ) : List Code :=
  [i32Const 0, i32Const 0, i64Load (lay.retiredAddr.setWidth 64), i64Const (BitVec.ofNat 64 n), bin .add,
    i64Store (lay.retiredAddr.setWidth 64)]

/-- No fuel left in the grant: return. -/
def fuelCheck : List Code :=
  [i32Const 0, i64Load (lay.retiredAddr.setWidth 64), i32Const 0, i64Load (lay.fuelAddr.setWidth 64), cmp64 .geU, ifThen [ret]]

/-- The dispatch line of an address. -/
def line (target : U64) : U64 := lay.dispatchBase.setWidth 64 + (((target >>> 1) &&& lay.dispatchMask.setWidth 64) <<< 4)

def emitDirectLink (target : U64) (func : U32) : List Code :=
  [i32Const 0, i64Load (lay.line target), i64Const target, cmp64 .ne, ifThen [ret],
    -- verified under the current address-space generation?
    i32Const 0, i32Load (lay.line target + 12), i32Const 0, i32Load (lay.mapGenAddr.setWidth 64), bin32 .ne, ifThen [ret]] ++
    lay.fuelCheck ++ [localGet 0, returnCall func]

def emitPageLink (func : U32) : List Code := lay.fuelCheck ++ [localGet 0, returnCall func]

end TraceLayout

def emitRoutedExit (cfg : TranslationConfig) : List Code :=
  match cfg.fallback with
  | .host => []
  | .router idx => [localGet 0, returnCall idx]

def emitFixedExit (lay : TraceLayout) (cfg : TranslationConfig) (target : U64) : List Code :=
  match cfg.link target with
  | some member =>
    let func := cfg.directFuncBase + member
    if cfg.validateDirectLink then lay.emitDirectLink target func else lay.emitPageLink func
  | none => emitRoutedExit cfg

/-- The registers of a mask, in order. -/
def maskRegs (m : U32) : List (Fin 32) := (List.finRange 32).filter fun r => m &&& ((1 : U32) <<< r.val) ≠ 0

/-- The registers written so far go back to the state of the hart. -/
def Ctx.flushWrites (c : Ctx) (writeMask : U32) : List Code :=
  (maskRegs (writeMask &&& c.defined)).flatMap fun r =>
    if c.regLocal r ≠ 0 then [i32Const 0, localGet (c.regLocal r), i64Store (c.xOffset r)] else []

/-! ## The second walk -/

/-- A trace under construction. -/
structure Trace where
  ctx : Ctx
  code : List Code
  pc : U64
  n : ℕ
  facts : TraceFacts
  segEntry : U64
  lo : U64
  hi : U64
  seeds : List U64
  tracePcs : List U64

namespace Trace

def emit (t : Trace) (code : List Code) : Trace := { t with code := t.code ++ code }
def moves (t : Trace) (facts : TraceFacts) (pc : U64) : Trace := { t with facts, pc, n := t.n + 1 }

def enters (t : Trace) (target : U64) : Trace := { t with segEntry := target }

def seed (t : Trace) (target : U64) : Trace :=
  if decide (t.seeds.length < 48) && !t.seeds.contains target then { t with seeds := t.seeds ++ [target] } else t

/-- `if store_pre(d) { value; store_post(d) }`. -/
def assign (t : Trace) (d : Fin 32) (value : List Code) : Trace := { t with ctx := (t.ctx.assign d value).1 }.emit
    (t.ctx.assign d value).2

end Trace

/-- A finished block: its instruction stream and locals, the guest code it is from, and what the host seeds discovery with. -/
structure TraceBlock where
  wasm : List U8
  len : U64
  nInsns : ℕ
  span : U64 × U64
  locals : U32 × U32
  tracePcs : List U64
  seeds : List U64

section

variable (w : CodeWindow) (startPc : U64) (lay : TraceLayout) (hot : U64 → Bool) (next : U64 → Option U64)
  (cfg : TranslationConfig) (writeMask : U32)

/-- The target of an indirect jump, into SCR. -/
def emitTarget (c : Ctx) (insn : U32) : List Code :=
  c.pushRegCode (rs1 insn) ++ [i64Const (immI insn), bin .add, i64Const (~~~1), bin .and, localSet scr]

/-- Publish the target in SCR and leave. -/
def leaveAtTarget (c : Ctx) (n : ℕ) : List Code :=
  [i32Const 0, localGet scr, i64Store (lay.pcAddr.setWidth 64)] ++ c.flushWrites writeMask ++ lay.setRetired (n + 1) ++
    emitRoutedExit cfg

/-- Leave unless SCR is the target that the trace goes on at. -/
def targetGuard (c : Ctx) (n : ℕ) (t : U64) : List Code :=
  [localGet scr, i64Const t, cmp64 .ne, ifThen (leaveAtTarget lay cfg writeMask c n ++ [ret])]

/-- The comparison of a branch, and its inverse. -/
def branchCmp (f3 : ℕ) : CmpOp × CmpOp :=
  match f3 with
  | 0 => (.eq, .ne)
  | 1 => (.ne, .eq)
  | 4 => (.ltS, .geS)
  | 5 => (.geS, .ltS)
  | 6 => (.ltU, .geU)
  | _ => (.geU, .ltU)

/-- `a.min(b)` and `a.max(b)`. -/
def lower (a b : U64) : U64 := if b < a then b else a

def upper (a b : U64) : U64 := if a < b then b else a

/-- `a.saturating_sub(b)`. -/
def saturatingSub (a b : U64) : U64 := if b ≤ a then a - b else 0

/-- The instruction at the pc belongs to the trace from here on, whether it is translated or not. -/
def Trace.takes (t : Trace) (nextPc : U64) : Trace :=
  { t with tracePcs := t.tracePcs ++ [t.pc], lo := lower t.lo t.pc, hi := upper t.hi nextPc }

/-- A jump is followed, or ends the trace with a constant pc. -/
def translateJal (insn : U32) (nextPc : U64) (t : Trace) : Pace Trace (Trace × Option U64) :=
  let d := rd insn
  let target := t.pc + immJ insn
  let t := t.assign d [i64Const nextPc]
  if followsJal w cfg d target t.pc then .go (t.moves ((t.facts.step insn t.pc).link d nextPc) target)
  else
    let t := t.seed target
    .stop (t.emit (t.ctx.flushWrites writeMask ++ lay.setPcConst target ++ lay.setRetired (t.n + 1) ++ emitFixedExit lay cfg target),
      some nextPc)

/-- An indirect jump is followed where its target is known, under a guard where it is only likely, or ends the trace. -/
def translateJalr (insn : U32) (nextPc : U64) (t : Trace) : Pace Trace (Trace × Option U64) :=
  match returnTarget w cfg t.facts insn t.pc with
  | some target =>
    let t := match t.facts.known (rs1 insn) with
      | .predicted _ => t.emit (emitTarget t.ctx insn ++ targetGuard lay cfg writeMask t.ctx t.n target)
      | _ => t
    .go (t.moves (t.facts.step insn t.pc) target)
  | none =>
    -- the target first: rd may be rs1
    let t := (t.emit (emitTarget t.ctx insn)).assign (rd insn) [i64Const nextPc]
    match cachedTarget w next cfg t.segEntry t.pc with
    | some target =>
      let t := (t.emit (targetGuard lay cfg writeMask t.ctx t.n target)).seed target
      .go ((t.moves ((t.facts.step insn t.pc).link (rd insn) nextPc) target).enters target)
    | none => .stop (t.emit (leaveAtTarget lay cfg writeMask t.ctx t.n), some nextPc)

/-- A branch ends the trace with two exits, is followed one way with an exit the other way, or ends the trace with the pc it
selects. -/
def translateBranch (insn : U32) (nextPc : U64) (t : Trace) : Pace Trace (Trace × Option U64) :=
  let target := t.pc + immB insn
  let ops := branchCmp (funct3 insn)
  let operands := t.ctx.pushRegCode (rs1 insn) ++ t.ctx.pushRegCode (rs2 insn)
  let flush := t.ctx.flushWrites writeMask
  let retired := lay.setRetired (t.n + 1)
  if cfg.directConditionalEdges then
    let t := (t.seed target).seed nextPc
    .stop (t.emit (operands ++ [cmp64 ops.1] ++ flush ++ retired ++
      [ifElse (lay.setPcConst target ++ emitFixedExit lay cfg target) (lay.setPcConst nextPc ++ emitFixedExit lay cfg nextPc)]),
      some nextPc)
  else if 1 ≤ cfg.traceLevel then
    let follow := followsTaken w hot target t.pc nextPc
    let exitPc := if follow then nextPc else target
    let t := (t.seed exitPc).emit (operands ++ [cmp64 (if follow then ops.2 else ops.1),
      ifThen (lay.setPcConst exitPc ++ flush ++ retired ++ emitFixedExit lay cfg exitPc ++ [ret])])
    .go (t.moves t.facts (if follow then target else nextPc))
  else
    .stop (t.emit (operands ++ [cmp64 ops.1, ifElse (lay.setPcConst target) (lay.setPcConst nextPc)] ++ flush ++ retired ++
      emitRoutedExit cfg), some nextPc)

/-- A trace that has taken up an instruction goes on, breaks off before it, or ends with it and the address after it. -/
def translateInsn (insn : U32) (ilen : U64) (t : Trace) : Pace Trace (Trace × Option U64) :=
  let nextPc := t.pc + ilen
  let t := t.takes nextPc
  match t.ctx.emitSimple insn t.pc with
  | some (ctx, code) => .go (({ t with ctx }.emit code).moves (t.facts.step insn t.pc) nextPc)
  | none =>
    match opcode insn with
    | 0x6f => translateJal w lay cfg writeMask insn nextPc t
    | 0x67 => if funct3 insn ≠ 0 then .stop (t, none) else translateJalr w lay next cfg writeMask insn nextPc t
    | 0x63 => if branchFunct3 (funct3 insn) then translateBranch w lay hot cfg writeMask insn nextPc t else .stop (t, none)
    | _ => .stop (t, none)

/-- The walk over at most so many more instructions, and the address after the last one where the trace has ended with it. -/
def translateLoop : ℕ → Trace → Trace × Option U64
  | 0, t => (t, none)
  | k + 1, t =>
    if stopsAt cfg t.n t.pc then (t, none)
    else
      match w.fetch t.pc with
      | none => (t, none)
      | some (insn, ilen) =>
        match translateInsn w lay hot next cfg writeMask insn ilen t with
        | .go t => translateLoop k t
        | .stop end_ => end_

/-- The block that a trace ends in. -/
def Trace.finish (t : Trace) (locals : U32 × U32) (len : U64) (n : ℕ) : TraceBlock :=
  ⟨(emitAll ⟨[]⟩ t.code).code, len, n, (t.lo, t.hi), locals, t.tracePcs, t.seeds⟩

/-- The registers that the function starts with in locals. -/
def loadRegs (c : Ctx) (load : U32) : List Code :=
  (maskRegs load).flatMap fun r => [i32Const 0, i64Load (c.xOffset r), localSet (c.regLocal r)]

/-- A long trace runs only if the grant covers it. -/
def fuelGuard (n : ℕ) : List Code :=
  if FUEL_GUARD_MIN < n ∧ lay.fuelAddr ≠ 0 then
    [i32Const 0, i64Load (lay.fuelAddr.setWidth 64), i64Const (BitVec.ofNat 64 n), cmp64 .ltU, ifThen [ret]]
  else []

/-- The registers that have locals. -/
def Scan.touched (scan : Scan) : U32 := (scan.read &&& ~~~1) ||| (scan.write &&& ~~~1)

/-- Its locals: of 64 bits the scratch locals and the registers, and two of 32 bits. -/
def Scan.locals (scan : Scan) : U32 × U32 := (nI64Locals + (regLocals scan.touched).2, 2)

/-- The second walk starts behind the prologue; `definedTrack` loads only what the trace reads, and flushes only what it has
written. -/
def Trace.start (scan : Scan) (definedTrack : Bool) : Trace :=
  let c := Ctx.build lay.xBase scan.read scan.write (if definedTrack then scan.read &&& ~~~1 else BitVec.allOnes 32)
  let load := if definedTrack then scan.read &&& scan.touched &&& ~~~1 else scan.touched
  ⟨c, loadRegs c load ++ fuelGuard lay scan.n, startPc, 0, .new, startPc, startPc, startPc, [], []⟩

/-- The trace path of the translator. -/
def translateTrace (definedTrack : Bool) : Option TraceBlock :=
  let scan := scanRegs w hot next cfg startPc
  match translateLoop w lay hot next cfg scan.write MAX_TRACE (.start startPc lay scan definedTrack) with
  | (t, some nextPc) => some (t.finish scan.locals (saturatingSub nextPc startPc) (t.n + 1))
  | (t, none) =>
    if t.n = 0 then none
    else
      let t := t.emit (t.ctx.flushWrites scan.write ++ lay.setPcConst t.pc ++ lay.setRetired t.n ++ emitFixedExit lay cfg t.pc)
      some (t.finish scan.locals (saturatingSub t.pc startPc) t.n)

end

end Lish
