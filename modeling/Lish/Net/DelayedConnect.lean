import Lish.Net.ConnectRequest
/-!
# DelayedConnect — a tunnel of the delayed-connect proxy

A guest's session: its request is answered at once, its payload kept until the target is resolved, and the upstream
connection opened only then.  Time, sockets and the network are the events of a session.
-/
namespace Lish

/-- The proxy's limits; it is not built with others. -/
structure DelayedConnectProxyConfiguration where
  allowedPorts : List ℕ
  maximumHeaderBytes : ℕ
  maximumBufferedBytes : ℕ
  ports : allowedPorts ≠ []
  header : 0 < maximumHeaderBytes
  buffered : 0 < maximumBufferedBytes

/-- The limits that a proxy has by default. -/
def DelayedConnectProxyConfiguration.standard : DelayedConnectProxyConfiguration where
  allowedPorts := [443]
  maximumHeaderBytes := 16 * 1024
  maximumBufferedBytes := 64 * 1024
  ports := List.cons_ne_nil _ _
  header := Nat.zero_lt_succ _
  buffered := Nat.zero_lt_succ _

namespace Tunnel

inductive Phase
  | readingRequest
  | armed
  | connecting
  | tunneling
  | closed
  deriving DecidableEq

def readSize : ℕ := 16 * 1024

end Tunnel

structure Tunnel where
  guestReadSource : Bool
  guestReadSuspended : Bool
  guestWriteSource : Bool
  phase : Tunnel.Phase
  requestBuffer : List U8
  guestOutput : List U8
  upstreamOutput : List U8
  target : Option ConnectTarget
  resolvedAddresses : Option (List String)
  nextAddressIndex : ℕ
  /-- The connection in use, by the generation it was opened in. -/
  upstream : Option ℕ
  upstreamSendPending : Bool
  upstreamReceivePending : Bool
  guestInputComplete : Bool
  upstreamInputComplete : Bool
  upstreamOutputComplete : Bool
  guestOutputComplete : Bool
  receivedTunnelPayload : Bool
  closeAfterGuestOutput : Bool
  connectGeneration : ℕ
  /-- The resolver is at work. -/
  resolving : Bool
  /-- The timers that have not run out. -/
  requestTimer : Bool
  prePayloadTimer : Bool
  /-- The most bytes that the receive under way may give. -/
  receiveCapacity : ℕ
  /-- Every byte received from the guest. -/
  guestReceived : List U8
  /-- Every byte that the guest's socket took. -/
  guestWritten : List U8
  /-- Every byte handed to the connection opened last. -/
  upstreamSent : List U8
  /-- Every byte received from upstream. -/
  upstreamReceived : List U8
  /-- The response heads given to the guest. -/
  answers : List (List U8)

/-- How far the guest's socket takes what is written now, and whether it fails then or blocks. -/
structure GuestSocket where
  room : ℕ
  broken : Bool

namespace Tunnel

/-- A session that has begun to read the request. -/
def start : Tunnel where
  guestReadSource := true
  guestReadSuspended := false
  guestWriteSource := false
  phase := .readingRequest
  requestBuffer := []
  guestOutput := []
  upstreamOutput := []
  target := none
  resolvedAddresses := none
  nextAddressIndex := 0
  upstream := none
  upstreamSendPending := false
  upstreamReceivePending := false
  guestInputComplete := false
  upstreamInputComplete := false
  upstreamOutputComplete := false
  guestOutputComplete := false
  receivedTunnelPayload := false
  closeAfterGuestOutput := false
  connectGeneration := 0
  resolving := false
  requestTimer := true
  prePayloadTimer := false
  receiveCapacity := 0
  guestReceived := []
  guestWritten := []
  upstreamSent := []
  upstreamReceived := []
  answers := []

variable (cfg : DelayedConnectProxyConfiguration)

/-! ## Reading from the guest -/

def suspendGuestRead (t : Tunnel) : Tunnel := { t with guestReadSuspended := t.guestReadSuspended || t.guestReadSource }

def resumeGuestReadIfPossible (t : Tunnel) : Tunnel :=
  { t with
    guestReadSuspended :=
      t.guestReadSuspended && !(t.guestReadSource && decide (t.upstreamOutput.length < cfg.maximumBufferedBytes)) }

def cancelGuestRead (t : Tunnel) : Tunnel :=
  { t with guestReadSource := false, guestReadSuspended := t.guestReadSuspended && !t.guestReadSource }

def stop (t : Tunnel) : Tunnel :=
  if t.phase = .closed then t
  else
    { t.cancelGuestRead with
      phase := .closed
      connectGeneration := t.connectGeneration + 1
      upstream := none
      guestWriteSource := false }

/-! ## Writing to the guest -/

def finishIfComplete (t : Tunnel) : Tunnel :=
  if t.guestInputComplete && t.upstreamInputComplete && !t.upstreamSendPending && decide (t.guestOutput = []) then t.stop else t

/-- The guest's socket is shut down once everything from upstream is written. -/
def completeGuestOutputWhenDrained (t : Tunnel) : Tunnel :=
  if t.upstreamInputComplete && decide (t.guestOutput = []) && !t.guestOutputComplete then
    { t with guestOutputComplete := true }.finishIfComplete
  else t

/-- Bytes are asked for while there is room for them. -/
def receiveUpstream (t : Tunnel) : Tunnel :=
  if t.phase = .tunneling ∧ !t.upstreamReceivePending ∧ !t.upstreamInputComplete ∧
      t.guestOutput.length < cfg.maximumBufferedBytes ∧ t.upstream.isSome then
    { t with
      upstreamReceivePending := true
      receiveCapacity := min readSize (cfg.maximumBufferedBytes - t.guestOutput.length) }
  else t

/-- The session once nothing is left to write. -/
def guestDrained (t : Tunnel) : Tunnel :=
  let t := { t with guestWriteSource := false }
  if t.closeAfterGuestOutput then t.stop
  else (if t.upstreamInputComplete then t.completeGuestOutputWhenDrained else t).receiveUpstream cfg

def flushGuestOutput (socket : GuestSocket) (t : Tunnel) : Tunnel :=
  if t.phase = .closed then t
  else
    let t := { t with
      guestWritten := t.guestWritten ++ t.guestOutput.take socket.room
      guestOutput := t.guestOutput.drop socket.room }
    if t.guestOutput = [] then t.guestDrained cfg
    else if socket.broken then t.stop
    else { t with guestWriteSource := true }

def enqueueGuest (socket : GuestSocket) (data : List U8) (t : Tunnel) : Tunnel :=
  if t.phase = .closed then t else { t with guestOutput := t.guestOutput ++ data }.flushGuestOutput cfg socket

/-- A response head for the guest. -/
def answer (socket : GuestSocket) (head : List U8) (t : Tunnel) : Tunnel :=
  { t with answers := t.answers ++ [head] }.enqueueGuest cfg socket head

def established : List U8 := asciiBytes "HTTP/1.1 200 Connection Established\r\n\r\n"

def rejection (status : ℕ) (reason : String) : List U8 :=
  asciiBytes ("HTTP/1.1 " ++ toString status ++ " " ++ reason ++ "\r\nConnection: close\r\n\r\n")

def respondAndClose (socket : GuestSocket) (status : ℕ) (reason : String) (t : Tunnel) : Tunnel :=
  { t.suspendGuestRead with closeAfterGuestOutput := true }.answer cfg socket (rejection status reason)

def closeAfterPendingGuestOutput (t : Tunnel) : Tunnel :=
  let t := { t.suspendGuestRead with closeAfterGuestOutput := true }
  if t.guestOutput = [] then t.stop else t

/-! ## Upstream -/

/-- Everything buffered goes to the connection in one send; after the guest's end of stream, the end of the stream does. -/
def sendUpstream (t : Tunnel) : Tunnel :=
  if t.phase = .tunneling ∧ !t.upstreamSendPending ∧ t.upstream.isSome then
    if t.upstreamOutput = [] then
      let t := t.resumeGuestReadIfPossible cfg
      if t.guestInputComplete ∧ !t.upstreamOutputComplete then
        { t with upstreamOutputComplete := true, upstreamSendPending := true }
      else t
    else
      { t with
        upstreamSent := t.upstreamSent ++ t.upstreamOutput
        upstreamOutput := []
        upstreamSendPending := true }.resumeGuestReadIfPossible cfg
  else t

/-- The addresses of the target that have not been tried. -/
def addressesLeft (t : Tunnel) : ℕ := (t.resolvedAddresses.getD []).length - t.nextAddressIndex

def connectNextAddress (t : Tunnel) : Tunnel :=
  if t.phase = .connecting ∧ 0 < t.addressesLeft ∧ t.target.isSome then
    { t with
      nextAddressIndex := t.nextAddressIndex + 1
      upstream := some (t.connectGeneration + 1)
      connectGeneration := t.connectGeneration + 1
      upstreamSent := [] }
  else t.closeAfterPendingGuestOutput

def maybeConnect (t : Tunnel) : Tunnel :=
  if t.phase = .armed ∧ t.receivedTunnelPayload ∧ t.resolvedAddresses.isSome then { t with phase := .connecting }.connectNextAddress
  else t

def bufferForUpstream (data : List U8) (t : Tunnel) : Tunnel :=
  if data = [] then t
  else
    let t := { t with receivedTunnelPayload := true }
    if cfg.maximumBufferedBytes < t.upstreamOutput.length + data.length then t.stop
    else
      let t := { t with upstreamOutput := t.upstreamOutput ++ data }
      let t := if t.upstreamOutput.length = cfg.maximumBufferedBytes then t.suspendGuestRead else t
      if t.phase = .armed then t.maybeConnect
      else if t.phase = .tunneling then t.sendUpstream cfg
      else t

/-! ## The guest's bytes -/

/-- A tunnel to a target, which the resolver looks up. -/
def arm (target : ConnectTarget) (t : Tunnel) : Tunnel :=
  { t with target := some target, phase := .armed, resolving := true, prePayloadTimer := true }

/-- A request head, and the payload that came with it. -/
def requestRead (socket : GuestSocket) (header payload : List U8) (t : Tunnel) : Tunnel :=
  let t := { t with requestBuffer := [] }
  match ConnectRequestParser.parse header cfg.allowedPorts with
  | .ok target => ((t.arm target).answer cfg socket established).bufferForUpstream cfg payload
  | .error e => t.respondAndClose cfg socket e.status e.reason

/-- The bytes of the request so far; no more of them are read than its head may have. -/
def readRequest (socket : GuestSocket) (t : Tunnel) : Tunnel :=
  match splitHead t.requestBuffer with
  | none =>
    if cfg.maximumHeaderBytes < t.requestBuffer.length then
      t.respondAndClose cfg socket 431 "Request Header Fields Too Large"
    else t
  | some (header, payload) =>
    if cfg.maximumHeaderBytes < header.length + headEnd.length then
      t.respondAndClose cfg socket 431 "Request Header Fields Too Large"
    else t.requestRead cfg socket header payload

def processGuestData (socket : GuestSocket) (data : List U8) (t : Tunnel) : Tunnel :=
  let t := { t with guestReceived := t.guestReceived ++ data }
  match t.phase with
  | .readingRequest => { t with requestBuffer := t.requestBuffer ++ data }.readRequest cfg socket
  | .armed => t.bufferForUpstream cfg data
  | .connecting => t.bufferForUpstream cfg data
  | .tunneling => t.bufferForUpstream cfg data
  | .closed => t

/-- The most bytes that are read from the guest at once. -/
def readCapacity (t : Tunnel) : ℕ :=
  match t.phase with
  | .readingRequest => readSize
  | .armed => min readSize (cfg.maximumBufferedBytes - t.upstreamOutput.length)
  | .connecting => min readSize (cfg.maximumBufferedBytes - t.upstreamOutput.length)
  | .tunneling => min readSize (cfg.maximumBufferedBytes - t.upstreamOutput.length)
  | .closed => 0

def handleGuestInputComplete (t : Tunnel) : Tunnel :=
  let t := { t with guestInputComplete := true }.cancelGuestRead
  match t.phase with
  | .readingRequest => t.stop
  | .armed => t.stop
  | .connecting => t
  | .tunneling => t.sendUpstream cfg
  | .closed => t

/-! ## The network's answers -/

def resolved (result : Option (List String)) (t : Tunnel) : Tunnel :=
  let t := { t with resolving := false }
  if t.phase = .armed then
    match result with
    | some addresses => { t with resolvedAddresses := some addresses }.maybeConnect
    | none => t.closeAfterPendingGuestOutput
  else t

def connectionReady (t : Tunnel) : Tunnel := ({ t with phase := .tunneling }.sendUpstream cfg).receiveUpstream cfg

/-- The connection in use has failed, or is cancelled by the system. -/
def connectionLost (t : Tunnel) : Tunnel := { t with upstream := none }.connectNextAddress

def connectTimedOut (generation : ℕ) (t : Tunnel) : Tunnel :=
  if t.phase = .connecting ∧ t.connectGeneration = generation ∧ t.upstream = some generation then t.connectionLost else t

/-- A send is done: what came in between goes next, and nothing after the end of the stream. -/
def sendProcessed (failed : Bool) (t : Tunnel) : Tunnel :=
  let t := { t with upstreamSendPending := false }
  if failed then t.stop
  else if t.upstreamOutputComplete then t.finishIfComplete
  else t.sendUpstream cfg

def received (socket : GuestSocket) (data : List U8) (ended : Bool) (t : Tunnel) : Tunnel :=
  let t := { t with upstreamReceivePending := false, upstreamReceived := t.upstreamReceived ++ data }
  if data ≠ [] ∧ cfg.maximumBufferedBytes < t.guestOutput.length + data.length then t.stop
  else
    let t := if data = [] then t else t.enqueueGuest cfg socket data
    if ended then { t with upstreamInputComplete := true }.completeGuestOutputWhenDrained else t.receiveUpstream cfg

/-! ## Timers -/

def prePayloadTimedOut (t : Tunnel) : Tunnel :=
  let t := { t with prePayloadTimer := false }
  if t.phase = .armed ∧ !t.receivedTunnelPayload then t.closeAfterPendingGuestOutput else t

def requestTimedOut (socket : GuestSocket) (t : Tunnel) : Tunnel :=
  let t := { t with requestTimer := false }
  if t.phase = .readingRequest then t.respondAndClose cfg socket 408 "Request Timeout" else t

/-! ## Events -/

inductive Event
  | guestData (socket : GuestSocket) (data : List U8)
  /-- The read loop finds the buffer full. -/
  | guestFull
  | guestEof
  | guestReadFailed
  | guestWritable (socket : GuestSocket)
  | resolved (result : Option (List String))
  | ready
  | lost
  | connectTimeout (generation : ℕ)
  | sendProcessed (failed : Bool)
  /-- A receive is done; it is the last where the stream has ended or failed. -/
  | received (socket : GuestSocket) (data : List U8) (ended failed : Bool)
  | prePayloadTimeout
  | requestTimeout (socket : GuestSocket)
  | proxyStop

/-- The guest's descriptor is read now. -/
def Reads (t : Tunnel) : Prop := t.guestReadSource = true ∧ t.guestReadSuspended = false

instance (t : Tunnel) : Decidable t.Reads := inferInstanceAs (Decidable (_ ∧ _))

/-- The event can happen; a session that is closed is released, and has no more. -/
def Enabled (t : Tunnel) (e : Event) : Prop :=
  t.phase ≠ .closed ∧
    match e with
    | .guestData _ data => t.Reads ∧ data ≠ [] ∧ data.length ≤ t.readCapacity cfg
    | .guestFull => t.Reads ∧ t.readCapacity cfg = 0
    | .guestEof => t.Reads ∧ 0 < t.readCapacity cfg
    | .guestReadFailed => t.Reads ∧ 0 < t.readCapacity cfg
    | .guestWritable _ => t.guestWriteSource = true
    | .resolved result => t.resolving = true ∧ result ≠ some []
    | .ready => t.upstream.isSome = true
    | .lost => t.upstream.isSome = true
    | .connectTimeout generation => generation ≤ t.connectGeneration
    | .sendProcessed _ => t.upstreamSendPending = true
    | .received _ data _ _ => t.upstreamReceivePending = true ∧ data.length ≤ t.receiveCapacity
    | .prePayloadTimeout => t.prePayloadTimer = true
    | .requestTimeout _ => t.requestTimer = true
    | .proxyStop => True

instance (t : Tunnel) (e : Event) : Decidable (t.Enabled cfg e) :=
  match e with
  | .guestData _ data => inferInstanceAs (Decidable (_ ∧ t.Reads ∧ data ≠ [] ∧ data.length ≤ t.readCapacity cfg))
  | .guestFull => inferInstanceAs (Decidable (_ ∧ t.Reads ∧ t.readCapacity cfg = 0))
  | .guestEof => inferInstanceAs (Decidable (_ ∧ t.Reads ∧ 0 < t.readCapacity cfg))
  | .guestReadFailed => inferInstanceAs (Decidable (_ ∧ t.Reads ∧ 0 < t.readCapacity cfg))
  | .guestWritable _ => inferInstanceAs (Decidable (_ ∧ t.guestWriteSource = true))
  | .resolved result => inferInstanceAs (Decidable (_ ∧ t.resolving = true ∧ result ≠ some []))
  | .ready => inferInstanceAs (Decidable (_ ∧ t.upstream.isSome = true))
  | .lost => inferInstanceAs (Decidable (_ ∧ t.upstream.isSome = true))
  | .connectTimeout generation => inferInstanceAs (Decidable (_ ∧ generation ≤ t.connectGeneration))
  | .sendProcessed _ => inferInstanceAs (Decidable (_ ∧ t.upstreamSendPending = true))
  | .received _ data _ _ => inferInstanceAs (Decidable (_ ∧ t.upstreamReceivePending = true ∧ data.length ≤ t.receiveCapacity))
  | .prePayloadTimeout => inferInstanceAs (Decidable (_ ∧ t.prePayloadTimer = true))
  | .requestTimeout _ => inferInstanceAs (Decidable (_ ∧ t.requestTimer = true))
  | .proxyStop => inferInstanceAs (Decidable (_ ∧ True))

def handle (e : Event) (t : Tunnel) : Tunnel :=
  match e with
  | .guestData socket data => t.processGuestData cfg socket data
  | .guestFull => t.suspendGuestRead
  | .guestEof => t.handleGuestInputComplete cfg
  | .guestReadFailed => t.stop
  | .guestWritable socket => t.flushGuestOutput cfg socket
  | .resolved result => t.resolved result
  | .ready => t.connectionReady cfg
  | .lost => t.connectionLost
  | .connectTimeout generation => t.connectTimedOut generation
  | .sendProcessed failed => t.sendProcessed cfg failed
  | .received socket data ended failed => t.received cfg socket data (ended || failed)
  | .prePayloadTimeout => t.prePayloadTimedOut
  | .requestTimeout socket => t.requestTimedOut cfg socket
  | .proxyStop => t.stop

/-- The states of the runs whose events all meet `P`. -/
inductive Run (P : Tunnel → Event → Prop) : Tunnel → Prop
  | start : Run P start
  | step {t : Tunnel} {e : Event} (h : Run P t) (he : t.Enabled cfg e) (hP : P t e) : Run P (t.handle cfg e)

end Tunnel
end Lish
