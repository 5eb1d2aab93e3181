import Lish.Prog.RingQueue
import Lish.Prog.FairQueue
import Lish.Core.Arch
/-!
# SlirpBridge — the bridge between a session and libslirp

Three parties share the bridge: the poll thread, which runs libslirp; the session's serial queue, which runs one callback at a
time; and the callers of forward commands.  A step is one critical section, or one callback.
-/
namespace Lish

abbrev EthernetFrame := List U8

def LISH_MAX_FRAME_SIZE : ℕ := 1600

def LISH_DEFAULT_QUEUE_CAPACITY : U32 := 256#32

/-- Positions in the queues of frames are 32-bit words. -/
def FRAME_INDEX_LIMIT : ℕ := 2 ^ 32

/-- How many frames a queue has room for. -/
def frameCapacity (queueCapacity : U32) : ℕ :=
  if queueCapacity = 0#32 then LISH_DEFAULT_QUEUE_CAPACITY.toNat else queueCapacity.toNat

/-- What the poll thread does for a caller. -/
inductive ForwardCommand
  | addForward (udp : Bool) (hostAddress : U32) (hostPort : U16) (guestAddress : U32) (guestPort : U16)
  | removeForward (udp : Bool) (hostAddress : U32) (hostPort : U16)
  | addUnixForward (path : List U8) (guestAddress : U32) (guestPort : U16)
  deriving DecidableEq

/-- The one slot for commands, empty where there is none.  Its owner is the call that filled it. -/
structure CommandSlot where
  command : Option ForwardCommand
  complete : Bool
  result : ℤ
  owner : ℕ
  deriving DecidableEq

def CommandSlot.empty : CommandSlot := ⟨none, false, 0, 0⟩

/-- A call of `execute_forward_command`. -/
inductive ForwardCall
  | waiting (command : ForwardCommand)
  | placed (command : ForwardCommand)
  | returned (command : ForwardCommand) (result : ℤ)
  deriving DecidableEq

def ForwardCall.command : ForwardCall → ForwardCommand
  | .waiting command | .placed command | .returned command _ => command

/-- Where the poll thread is. -/
inductive PollAt
  | processInput
  | slirpInput
  | processCommand
  | executing (call : ℕ) (command : ForwardCommand)
  | executed (call : ℕ) (result : ℤ)
  | polling
  deriving DecidableEq

/-- The poll thread is in a call of libslirp, which may send a packet at any time. -/
def PollAt.inSlirp : PollAt → Bool
  | .slirpInput | .executing _ _ | .polling => true
  | _ => false

/-- How far `send_packet` is. -/
inductive SendPacket
  | waiting (frame : EthernetFrame)
  | outputReady
  deriving DecidableEq

/-- A callback of the session queue. -/
inductive QueueCallback
  | drain
  | processed (ok : Bool)
  | sent (ok : Bool)
  | accept
  | ready (promoted : Bool)
  | stop
  deriving DecidableEq

/-- The callback ends a send. -/
def QueueCallback.isCompletion : QueueCallback → Bool
  | .processed _ | .sent _ => true
  | _ => false

/-- How far the session is with a message from the guest. -/
inductive Inbound
  | connecting
  | starting
  | receiving
  | arrived (frame : EthernetFrame)
  | retrying (frame : EthernetFrame)
  deriving DecidableEq

structure SlirpBridge where
  input : RingQueue EthernetFrame
  output : RingQueue EthernetFrame
  slot : CommandSlot
  calls : ℕ → Option ForwardCall
  nextCall : ℕ
  poll : PollAt
  packet : Option SendPacket
  /-- The callbacks that the session queue is still to run. -/
  callbacks : List QueueCallback
  /-- The session's initializer, which the queue runs first, is over, and its callback is installed. -/
  created : Bool
  inbound : Inbound
  sending : Bool
  /-- A frame is with the connection. -/
  inFlight : Bool
  stopped : Bool
  /-- What the queue of guest frames took, and what libslirp was given of it. -/
  inputAccepted : List EthernetFrame
  delivered : List EthernetFrame
  /-- What the queue of host frames took, and what the connection was given of it. -/
  outputAccepted : List EthernetFrame
  sent : List EthernetFrame
  /-- What the poll thread has executed: for which call, what and with which result. -/
  executed : List (ℕ × ForwardCommand × ℤ)

namespace SlirpBridge

/-- A bridge at its creation, by an initializer that is about to add a forward. -/
def new (queueCapacity : U32) (forward : ForwardCommand) : SlirpBridge where
  input := .empty [] (frameCapacity queueCapacity)
  output := .empty [] (frameCapacity queueCapacity)
  slot := .empty
  calls := fun call => if call = 0 then some (.waiting forward) else none
  nextCall := 1
  poll := .processInput
  packet := none
  callbacks := []
  created := false
  inbound := .connecting
  sending := false
  inFlight := false
  stopped := false
  inputAccepted := []
  delivered := []
  outputAccepted := []
  sent := []
  executed := []

def push (r : RingQueue EthernetFrame) (frame : EthernetFrame) : Option (RingQueue EthernetFrame) := r.push FRAME_INDEX_LIMIT frame

def pop (r : RingQueue EthernetFrame) : Option (EthernetFrame × RingQueue EthernetFrame) := r.pop FRAME_INDEX_LIMIT

def setCall (s : SlirpBridge) (call : ℕ) (state : ForwardCall) : SlirpBridge :=
  { s with calls := fun i => if i = call then some state else s.calls i }

/-! ## The session queue -/

/-- The next frame goes to the connection, unless one is on its way. -/
def sendNextFrame (s : SlirpBridge) : SlirpBridge :=
  if s.stopped || s.sending then s
  else
    match pop s.output with
    | none => s
    | some (frame, output) =>
      if LISH_MAX_FRAME_SIZE < frame.length then { s with stopped := true }
      else { s with output := output, sending := true, inFlight := true, sent := s.sent ++ [frame] }

/-- A frame from the guest goes to the queue, now or a moment later. -/
def acceptOrRetry (s : SlirpBridge) (frame : EthernetFrame) : SlirpBridge :=
  match push s.input frame with
  | some input => { s with input := input, inbound := .receiving, inputAccepted := s.inputAccepted ++ [frame] }
  | none => { s with inbound := .retrying frame }

def run (s : SlirpBridge) : QueueCallback → SlirpBridge
  | .drain => s.sendNextFrame
  | .processed ok => { s with callbacks := s.callbacks ++ [.sent ok] }
  | .sent true => { s with sending := false }.sendNextFrame
  | .sent false => { s with sending := false, stopped := true }
  | .accept =>
    match s.inbound with
    | .arrived frame => s.acceptOrRetry frame
    | _ => s
  | .ready true => { s with inbound := .receiving }
  | .ready false => { s with stopped := true }
  | .stop => { s with stopped := true }

/-! ## Steps -/

/-- Who goes on. -/
inductive Party
  | poll
  | outputReady
  | queue
  | connection
  | send
  | caller (call : ℕ)
  deriving DecidableEq

/-- A step of a bridge that is not stopped. -/
inductive Step (s : SlirpBridge) : Party → SlirpBridge → Prop
  | takeInput {frame : EthernetFrame} {input : RingQueue EthernetFrame} (hpoll : s.poll = .processInput) (h :
      pop s.input = some (frame, input)) :
      Step s .poll { s with input := input, poll := .slirpInput, delivered := s.delivered ++ [frame] }
  | noInput (hpoll : s.poll = .processInput) (h : pop s.input = none) : Step s .poll { s with poll := .processCommand }
  | slirpInput (hpoll : s.poll = .slirpInput) (hpacket : s.packet = none) : Step s .poll { s with poll := .processInput }
  | takeCommand {command : ForwardCommand} (hpoll : s.poll = .processCommand) (h : s.slot.command = some command)
      (hc : s.slot.complete = false) : Step s .poll { s with poll := .executing s.slot.owner command }
  | noCommand (hpoll : s.poll = .processCommand) (h : s.slot.command = none ∨ s.slot.complete = true) :
      Step s .poll { s with poll := .polling }
  /-- libslirp answers as it likes. -/
  | execute {call : ℕ} {command : ForwardCommand} (result : ℤ) (hpoll : s.poll = .executing call command) (hpacket :
      s.packet = none) :
      Step s .poll { s with poll := .executed call result, executed := s.executed ++ [(call, command, result)] }
  | publish {call : ℕ} {result : ℤ} (hpoll : s.poll = .executed call result) :
      Step s .poll { s with poll := .polling, slot := { s.slot with result := result, complete := true } }
  | polled (hpoll : s.poll = .polling) (hpacket : s.packet = none) : Step s .poll { s with poll := .processInput }
  | sendPacket {frame : EthernetFrame} (hpoll : s.poll.inSlirp = true) (hpacket : s.packet = none)
      (hsize : 0 < frame.length ∧ frame.length ≤ LISH_MAX_FRAME_SIZE) : Step s .poll { s with packet := some (.waiting frame) }
  /-- There is room for the packet; the queue is told of the first one only. -/
  | pushOutput {frame : EthernetFrame} {output : RingQueue EthernetFrame} (hpacket : s.packet = some (.waiting frame))
      (h : push s.output frame = some output) :
      Step s .poll { s with
        output := output
        packet := if s.output.count = 0 then some .outputReady else none
        outputAccepted := s.outputAccepted ++ [frame] }
  | outputReady (hpacket : s.packet = some .outputReady) :
      Step s .outputReady { s with packet := none, callbacks := s.callbacks ++ [.drain] }
  | call (command : ForwardCommand) :
      Step s (.caller s.nextCall) { s.setCall s.nextCall (.waiting command) with nextCall := s.nextCall + 1 }
  | place {call : ℕ} {command : ForwardCommand} (hcall : s.calls call = some (.waiting command)) (h : s.slot.command = none) :
      Step s (.caller call) { s.setCall call (.placed command) with slot := ⟨some command, false, 0, call⟩ }
  | takeResult {call : ℕ} {command : ForwardCommand} (hcall : s.calls call = some (.placed command)) (h : s.slot.complete = true) :
      Step s (.caller call) { s.setCall call (.returned command s.slot.result) with slot := .empty }
  /-- The initializer goes on once its forward is added. -/
  | create {command : ForwardCommand} {result : ℤ} (hcreated : s.created = false) (hcall :
      s.calls 0 = some (.returned command result)) :
      Step s .queue (if result = 0 then { s with created := true } else { s with stopped := true })
  | run {callback : QueueCallback} {rest : List QueueCallback} (hcreated : s.created = true) (h : s.callbacks = callback :: rest) :
      Step s .queue ({ s with callbacks := rest }.run callback)
  | connect (promoted : Bool) (hcreated : s.created = true) (h : s.inbound = .connecting) :
      Step s .connection { s with inbound := .starting, callbacks := s.callbacks ++ [.ready promoted] }
  | receive {frame : EthernetFrame} (h : s.inbound = .receiving) (hsize : 0 < frame.length ∧ frame.length ≤ LISH_MAX_FRAME_SIZE) :
      Step s .connection { s with inbound := .arrived frame, callbacks := s.callbacks ++ [.accept] }
  | retry {frame : EthernetFrame} (h : s.inbound = .retrying frame) :
      Step s .connection { s with inbound := .arrived frame, callbacks := s.callbacks ++ [.accept] }
  | complete (ok : Bool) (h : s.inFlight = true) :
      Step s .send { s with inFlight := false, callbacks := s.callbacks ++ [.processed ok] }
  /-- The connection failed, or the server stops. -/
  | stop : Step s .connection { s with callbacks := s.callbacks ++ [.stop] }

/-- The states of the runs until a stop. -/
inductive Reach (s₀ : SlirpBridge) : SlirpBridge → Prop
  | start : Reach s₀ s₀
  | step {s s' : SlirpBridge} {p : Party} (h : Reach s₀ s) (hs : s.stopped = false) (hstep : s.Step p s') : Reach s₀ s'

/-! ## Frames -/

/-- No frame is lost, moved or doubled, and one send at most is on its way. -/
structure Frames (s : SlirpBridge) : Prop where
  input : s.input.Proper FRAME_INDEX_LIMIT
  output : s.output.Proper FRAME_INDEX_LIMIT
  inward : s.inputAccepted = s.delivered ++ s.input.contents
  outward : s.outputAccepted = s.sent ++ s.output.contents
  sizes : ∀ frame ∈ s.output.contents, frame.length ≤ LISH_MAX_FRAME_SIZE
  packet : ∀ frame, s.packet = some (.waiting frame) → frame.length ≤ LISH_MAX_FRAME_SIZE
  flight : s.inFlight.toNat + s.callbacks.countP QueueCallback.isCompletion = s.sending.toNat

/-- Where frames wait for the session, a callback is to fetch one, a send is on its way, or the poll thread is about to call. -/
def Woken (s : SlirpBridge) : Prop :=
  s.stopped = false → s.output.contents ≠ [] → .drain ∈ s.callbacks ∨ s.sending = true ∨ s.packet = some .outputReady

variable {s s' : SlirpBridge} {p : Party}

theorem frameCapacity_pos (queueCapacity : U32) : 0 < frameCapacity queueCapacity := by
  unfold frameCapacity
  split
  · decide
  · rename_i hne
    exact Nat.pos_of_ne_zero fun hz => hne (BitVec.eq_of_toNat_eq hz)

theorem frameCapacity_le {queueCapacity : U32} (hroom : queueCapacity.toNat ≤ 2 ^ 31) :
    2 * frameCapacity queueCapacity ≤ FRAME_INDEX_LIMIT := by
  unfold frameCapacity FRAME_INDEX_LIMIT
  split
  · decide
  · omega

theorem frames_new {queueCapacity : U32} (hroom : queueCapacity.toNat ≤ 2 ^ 31) (forward : ForwardCommand) :
    Frames (new queueCapacity forward) where
  input := RingQueue.proper_empty [] (frameCapacity_pos queueCapacity) (frameCapacity_le hroom)
  output := RingQueue.proper_empty [] (frameCapacity_pos queueCapacity) (frameCapacity_le hroom)
  inward := rfl
  outward := rfl
  sizes _ hf := absurd hf List.not_mem_nil
  packet _ hp := by cases hp
  flight := rfl

/-- The session fetches a frame, or finds none, or is busy with another. -/
theorem Frames.sendNextFrame (h : Frames s) : Frames s.sendNextFrame ∧ Woken s.sendNextFrame := by
  unfold SlirpBridge.sendNextFrame
  split
  · rename_i hbusy
    refine ⟨h, fun hstop _ => ?_⟩
    rw [hstop, Bool.false_or] at hbusy
    exact .inr (.inl hbusy)
  · rename_i hbusy
    rw [Bool.not_eq_true, Bool.or_eq_false_iff] at hbusy
    split
    · rename_i hnone
      exact ⟨h, fun _ hne => absurd (RingQueue.pop_none hnone) hne⟩
    · rename_i frame output hpop
      obtain ⟨hproper, hcontents⟩ := RingQueue.pop_some h.output hpop
      have hsizes := h.sizes
      have hout := h.outward
      have hflight := h.flight
      rw [hcontents] at hsizes hout
      rw [hbusy.2, Bool.toNat_false, Nat.add_eq_zero_iff] at hflight
      rw [if_neg (Nat.not_lt.2 (hsizes frame List.mem_cons_self))]
      refine ⟨⟨h.input, hproper, h.inward, ?_, fun f hf => hsizes f (List.mem_cons_of_mem _ hf), h.packet, ?_⟩,
        fun _ _ => .inr (.inl rfl)⟩
      · rw [List.append_assoc]
        exact hout
      · rw [hflight.2]
        rfl

/-- A frame of the guest goes to the end of its queue, or waits. -/
theorem Frames.acceptOrRetry (h : Frames s) (frame : EthernetFrame) : Frames (s.acceptOrRetry frame) := by
  unfold SlirpBridge.acceptOrRetry
  split
  · rename_i input hpush
    obtain ⟨hproper, hcontents⟩ := RingQueue.push_some h.input hpush
    refine ⟨hproper, h.output, ?_, h.outward, h.sizes, h.packet, h.flight⟩
    rw [hcontents, h.inward, List.append_assoc]
  · exact ⟨h.input, h.output, h.inward, h.outward, h.sizes, h.packet, h.flight⟩

theorem acceptOrRetry_woken {frame : EthernetFrame} (hw : Woken s) : Woken (s.acceptOrRetry frame) := by
  unfold SlirpBridge.acceptOrRetry
  split <;> exact hw

/-- **A callback** keeps the frames, and leaves someone on the way. -/
theorem Frames.run (h : Frames s) (hw : Woken s) {callback : QueueCallback} {rest : List QueueCallback}
    (hs : s.callbacks = callback :: rest) :
    Frames ({ s with callbacks := rest }.run callback) ∧ Woken ({ s with callbacks := rest }.run callback) := by
  have hflight := h.flight
  rw [hs, List.countP_cons] at hflight
  -- what is left where the callback ends no send and is no drain
  have hrest : callback.isCompletion = false → Frames { s with callbacks := rest } := fun hc => by
    refine ⟨h.input, h.output, h.inward, h.outward, h.sizes, h.packet, ?_⟩
    rw [hc, if_neg Bool.false_ne_true] at hflight
    exact hflight
  have hwoken : callback ≠ .drain → Woken { s with callbacks := rest } := fun hd hstop hne => by
    refine (hw hstop hne).imp_left fun hmem => ?_
    rw [hs] at hmem
    exact (List.mem_cons.1 hmem).resolve_left fun he => hd he.symm
  cases callback with
  | drain => exact (hrest rfl).sendNextFrame
  | processed ok =>
    refine ⟨⟨h.input, h.output, h.inward, h.outward, h.sizes, h.packet, ?_⟩, fun hstop hne => ?_⟩
    · show s.inFlight.toNat + (rest ++ [QueueCallback.sent ok]).countP QueueCallback.isCompletion = s.sending.toNat
      rw [List.countP_append]
      exact hflight
    · exact (hwoken (fun he => by cases he) hstop hne).imp_left fun hmem => List.mem_append_left _ hmem
  | sent ok =>
    have hone : s.inFlight.toNat + rest.countP QueueCallback.isCompletion = 0 := by
      have hle : s.sending.toNat ≤ 1 := Bool.toNat_le _
      have hc : (QueueCallback.sent ok).isCompletion = true := rfl
      rw [hc, if_pos rfl] at hflight
      omega
    have hfree : Frames { s with callbacks := rest, sending := false } :=
      ⟨h.input, h.output, h.inward, h.outward, h.sizes, h.packet, hone⟩
    cases ok with
    | true => exact hfree.sendNextFrame
    | false => exact ⟨⟨h.input, h.output, h.inward, h.outward, h.sizes, h.packet, hone⟩, fun hstop => by cases hstop⟩
  | accept =>
    have hr := hrest rfl
    have hv := hwoken fun he => by cases he
    unfold SlirpBridge.run
    dsimp only
    split
    · exact ⟨hr.acceptOrRetry _, acceptOrRetry_woken hv⟩
    · exact ⟨hr, hv⟩
  | ready promoted =>
    have hr := hrest rfl
    have hv := hwoken fun he => by cases he
    cases promoted with
    | true => exact ⟨⟨hr.input, hr.output, hr.inward, hr.outward, hr.sizes, hr.packet, hr.flight⟩, hv⟩
    | false => exact ⟨⟨hr.input, hr.output, hr.inward, hr.outward, hr.sizes, hr.packet, hr.flight⟩, fun hstop => by cases hstop⟩
  | stop =>
    have hr := hrest rfl
    exact ⟨⟨hr.input, hr.output, hr.inward, hr.outward, hr.sizes, hr.packet, hr.flight⟩, fun hstop => by cases hstop⟩

/-- A callback more, of no send. -/
theorem Frames.enqueue (h : Frames s) {callback : QueueCallback} (hc : callback.isCompletion = false) :
    s.inFlight.toNat + (s.callbacks ++ [callback]).countP QueueCallback.isCompletion = s.sending.toNat := by
  rw [List.countP_append, List.countP_singleton, hc, if_neg Bool.false_ne_true]
  exact h.flight

theorem Woken.enqueue (hw : Woken s) {callback : QueueCallback} (hstop : s.stopped = false) (hne : s.output.contents ≠ []) :
    .drain ∈ s.callbacks ++ [callback] ∨ s.sending = true ∨ s.packet = some .outputReady :=
  (hw hstop hne).imp_left fun hmem => List.mem_append_left _ hmem

/-- **Every step** keeps the frames, and leaves someone on the way. -/
theorem Step.frames (hs : s.Step p s') (h : Frames s) (hw : Woken s) : Frames s' ∧ Woken s' := by
  cases hs with
  | takeInput hpoll hpop =>
    obtain ⟨hproper, hcontents⟩ := RingQueue.pop_some h.input hpop
    refine ⟨⟨hproper, h.output, ?_, h.outward, h.sizes, h.packet, h.flight⟩, hw⟩
    rw [List.append_assoc, h.inward, hcontents]
    rfl
  | noInput _ _ | slirpInput _ _ | takeCommand _ _ _ | noCommand _ _ | execute _ _ _ | publish _ | polled _ _ | call _ | place _ _
  | takeResult _ _ =>
    -- none of these is about frames for the session
    exact ⟨⟨h.input, h.output, h.inward, h.outward, h.sizes, h.packet, h.flight⟩, hw⟩
  | sendPacket hpoll hpacket hsize =>
    refine ⟨⟨h.input, h.output, h.inward, h.outward, h.sizes, fun f hf => ?_, h.flight⟩, fun hstop hne => ?_⟩
    · cases hf
      exact hsize.2
    · refine (hw hstop hne).imp_right (Or.imp_right fun hready => ?_)
      rw [hpacket] at hready
      cases hready
  | @pushOutput frame output hpacket hpush =>
    obtain ⟨hproper, hcontents⟩ := RingQueue.push_some h.output hpush
    refine ⟨⟨h.input, hproper, h.inward, ?_, fun f hf => ?_, fun f hf => ?_, h.flight⟩, fun hstop _ => ?_⟩
    · rw [hcontents, h.outward, List.append_assoc]
    · rw [hcontents] at hf
      rcases List.mem_append.1 hf with hf | hf
      · exact h.sizes f hf
      · rw [List.mem_singleton.1 hf]
        exact h.packet frame hpacket
    · dsimp only at hf
      split at hf
      · cases hf
      · cases hf
    · dsimp only
      split
      · exact .inr (.inr rfl)
      · rename_i hcount
        refine (hw hstop fun hnil => hcount (RingQueue.contents_eq_nil.1 hnil)).imp_right (Or.imp_right fun hready => ?_)
        rw [hpacket] at hready
        cases hready
  | outputReady hpacket =>
    refine ⟨⟨h.input, h.output, h.inward, h.outward, h.sizes, fun f hf => (by cases hf), h.enqueue rfl⟩, fun _ _ => .inl ?_⟩
    exact List.mem_append_right _ (List.mem_singleton_self _)
  | create hcreated hcall =>
    split
    · exact ⟨⟨h.input, h.output, h.inward, h.outward, h.sizes, h.packet, h.flight⟩, hw⟩
    · exact ⟨⟨h.input, h.output, h.inward, h.outward, h.sizes, h.packet, h.flight⟩, fun hstop => by cases hstop⟩
  | run hcreated hc => exact h.run hw hc
  | connect _ _ _ | receive _ _ | retry _ | stop =>
    exact ⟨⟨h.input, h.output, h.inward, h.outward, h.sizes, h.packet, h.enqueue rfl⟩, fun hstop hne => hw.enqueue hstop hne⟩
  | complete ok hflight =>
    refine ⟨⟨h.input, h.output, h.inward, h.outward, h.sizes, h.packet, ?_⟩, fun hstop hne => hw.enqueue hstop hne⟩
    have hone := h.flight
    dsimp only
    rw [hflight] at hone
    rw [List.countP_append, ← hone, Nat.add_comm true.toNat]
    exact Nat.zero_add _

end SlirpBridge
end Lish
