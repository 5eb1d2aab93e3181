import Lish.Prog.Loop
import Lish.System.Pages
/-!
# Virtio — virtio-mmio devices

The transport registers, split virtqueues and the block and network backends.  A device reads and writes guest RAM while it
processes a queue; an external block device leaves one request with the host and publishes it when the host completes it.
-/
namespace Lish

/-! ## Guest memory -/

/-- What a device reaches outside itself: guest RAM, the observer of its writes and the source of request ids. -/
structure Dma where
  ram : FlatMemory
  jit : JitPageState
  nextBlockRequestId : U64

namespace Dma

/-- The bytes of a range, or none if it does not lie entirely within RAM. -/
def guestSlice (d : Dma) (addr : U64) (len : ℕ) : Option (List U8) :=
  (d.ram.offset addr len).map fun off => (List.range len).map fun i => d.ram.mem (off + i)

/-- The only device-to-guest memory write: nothing is written unless all of it can be. -/
def guestWrite (d : Dma) (addr : U64) (bytes : List U8) : Bool × Dma :=
  match d.ram.offset addr bytes.length with
  | none => (false, d)
  | some off =>
    (true, { d with
      ram := { d.ram with mem := fun i => if off ≤ i ∧ i < off + bytes.length then bytes.getD (i - off) 0 else d.ram.mem i }
      jit := d.jit.noteWrite addr bytes.length })

def read (d : Dma) (addr : U64) (n : ℕ) : Option U64 := (d.ram.offset addr n).map fun off => d.ram.readBytes off n

def read16 (d : Dma) (addr : U64) : Option U16 := (d.read addr 2).map (·.setWidth 16)
def read32 (d : Dma) (addr : U64) : Option U32 := (d.read addr 4).map (·.setWidth 32)
def read64 (d : Dma) (addr : U64) : Option U64 := d.read addr 8

/-- The little-endian bytes of a value. -/
def leBytes (v : U64) (n : ℕ) : List U8 := (List.range n).map (byteOf v)

def write16 (d : Dma) (addr : U64) (v : U16) : Dma := (d.guestWrite addr (leBytes (v.setWidth 64) 2)).2
def write32 (d : Dma) (addr : U64) (v : U32) : Dma := (d.guestWrite addr (leBytes (v.setWidth 64) 4)).2

end Dma

/-- Checked addition of addresses. -/
def checkedAdd (a b : U64) : Option U64 := if a.toNat + b.toNat < 2 ^ 64 then some (a + b) else none

def checkedMul (a b : U64) : Option U64 := if a.toNat * b.toNat < 2 ^ 64 then some (a * b) else none

/-! ## Devices -/

inductive BlockRequestKind
  | read | write | flush
  deriving DecidableEq, Repr

/-- The descriptor that waits for the host operation, with everything its completion writes. -/
structure PendingBlockRequest where
  id : U64
  kind : BlockRequestKind
  offset : U64
  data : List U8
  length : U64
  readBuffers : List (U64 × U32)
  statusAddr : U64
  queueIndex : Fin 2
  head : U16
  usedIndexAddr : U64
  usedEntry : U64
  usedIdx : U16
  deriving DecidableEq

/-- Device backends the transport can host. -/
inductive Backend
  /-- virtio-blk, backed by an in-memory disk image. -/
  | block (disk : List U8)
  /-- virtio-blk, backed by a host service. -/
  | externalBlock (size : U64) (pending : Option PendingBlockRequest)
  /-- virtio-net: RX = queue 0, TX = queue 1. -/
  | net (mac : Fin 6 → U8) (inbox outbox : List (List U8))

structure Queue where
  ready : U32
  num : U32
  desc : U64
  avail : U64
  used : U64
  lastAvailIdx : U16

def Queue.empty : Queue := ⟨0, 0, 0, 0, 0, 0⟩

structure VirtioDev where
  backend : Backend
  status : U32
  deviceFeaturesSel : U32
  driverFeaturesSel : U32
  queueSel : Fin 2
  queues : Fin 2 → Queue
  /-- Bit 0: used-ring update pending. -/
  intStatus : U32

def NET_HDR_LEN : ℕ := 12
def NET_MAX_FRAME : ℕ := 1600
def NET_QUEUE_LIMIT : ℕ := 256
def VIRTIO_BLK_T_IN : U32 := 0
def VIRTIO_BLK_T_OUT : U32 := 1
def VIRTIO_BLK_T_FLUSH : U32 := 4
def MAX_DISK_OPERATION : U64 := 65536
def MAX_DISK_SEGMENTS : U32 := 1
def SECTOR : ℕ := 512

/-- A descriptor: address, length, and whether the device may write it. -/
structure Descriptor where
  addr : U64
  len : U32
  writable : Bool

namespace VirtioDev

def new (backend : Backend) : VirtioDev := ⟨backend, 0, 0, 0, 0, fun _ => Queue.empty, 0⟩

/-! ## Registers -/

def deviceId (d : VirtioDev) : U32 :=
  match d.backend with
  | .block _ | .externalBlock _ _ => 2
  | .net _ _ _ => 1

/-- Feature bits for word `sel`; bit 32 is VIRTIO_F_VERSION_1. -/
def deviceFeatures (d : VirtioDev) (sel : U32) : U32 :=
  if sel = 1 then 1
  else if sel = 0 then
    match d.backend with
    | .net _ _ _ => 1 <<< 5 -- MAC
    | .externalBlock _ _ => (1 <<< 1) ||| (1 <<< 2) ||| (1 <<< 9) -- SIZE_MAX, SEG_MAX, FLUSH
    | .block _ => 0
  else 0

def queueNumMax (d : VirtioDev) : U32 :=
  match d.backend with
  | .net _ _ _ => 256
  | _ => 16

/-- The device's interrupt line. -/
def irqPending (d : VirtioDev) : Bool := d.intStatus != 0

/-- One byte of device-specific config space. -/
def configU8 (d : VirtioDev) (off : U64) : U8 :=
  let i := off.toNat
  match d.backend with
  | .block disk => if i < 8 then byteOf (BitVec.ofNat 64 (disk.length / SECTOR)) i else 0
  | .externalBlock size _ =>
    if i < 8 then byteOf (size / BitVec.ofNat 64 SECTOR) i
    else if i < 12 then byteOf MAX_DISK_OPERATION (i - 8)
    else if i < 16 then byteOf (MAX_DISK_SEGMENTS.setWidth 64) (i - 12)
    else 0
  | .net mac _ _ => if h : i < 6 then mac ⟨i, h⟩ else 0

/-- Config bytes from `off`, little-endian. -/
def configBytes (d : VirtioDev) (off : U64) : ℕ → U32
  | 0 => 0
  | n + 1 => d.configBytes off n ||| ((d.configU8 (off + BitVec.ofNat 64 n)).setWidth 32 <<< (8 * n))

def read (d : VirtioDev) (offset : U64) : U32 :=
  match offset.toNat with
  | 0x000 => 0x74726976 -- magic "virt"
  | 0x004 => 2
  | 0x008 => d.deviceId
  | 0x00c => 0xffff
  | 0x010 => d.deviceFeatures d.deviceFeaturesSel
  | 0x034 => d.queueNumMax
  | 0x044 => (d.queues d.queueSel).ready
  | 0x060 => d.intStatus
  | 0x070 => d.status
  | n => if n ≥ 0x100 then d.configBytes (offset - 0x100) 4 else 0

/-- MMIO read of a number of bytes. -/
def readSized (d : VirtioDev) (offset : U64) (size : ℕ) : U32 :=
  if offset ≥ 0x100 ∧ size < 4 then d.configBytes (offset - 0x100) size else d.read offset

def setQueue (d : VirtioDev) (qi : Fin 2) (q : Queue) : VirtioDev :=
  { d with queues := fun i => if i = qi then q else d.queues i }

def modifyQueue (d : VirtioDev) (g : Queue → Queue) : VirtioDev := d.setQueue d.queueSel (g (d.queues d.queueSel))

def setLo (v : U64) (val : U32) : U64 := (v &&& ~~~0xffffffff) ||| val.setWidth 64
def setHi (v : U64) (val : U32) : U64 := (v &&& 0xffffffff) ||| (val.setWidth 64 <<< 32)

def dropPending : Backend → Backend
  | .externalBlock size _ => .externalBlock size none
  | b => b

/-- A write of 0 to the status register. -/
def reset (d : VirtioDev) : VirtioDev :=
  { d with queues := fun _ => Queue.empty, intStatus := 0, backend := dropPending d.backend }

/-- A register write; a queue to process if it was a notify. -/
def write (d : VirtioDev) (offset : U64) (val : U32) : Option U32 × VirtioDev :=
  match offset.toNat with
  | 0x014 => (none, { d with deviceFeaturesSel := val })
  | 0x024 => (none, { d with driverFeaturesSel := val })
  | 0x030 => (none, { d with queueSel := if val = 0 then 0 else 1 })
  | 0x038 => (none, d.modifyQueue fun q => { q with num := if val ≤ d.queueNumMax then val else d.queueNumMax })
  | 0x044 => (none, d.modifyQueue fun q => { q with ready := val &&& 1 })
  | 0x050 => (some val, d)
  | 0x064 => (none, { d with intStatus := d.intStatus &&& ~~~val })
  | 0x070 =>
    let d := { d with status := val }
    (none, if val = 0 then d.reset else d)
  | 0x080 => (none, d.modifyQueue fun q => { q with desc := setLo q.desc val })
  | 0x084 => (none, d.modifyQueue fun q => { q with desc := setHi q.desc val })
  | 0x090 => (none, d.modifyQueue fun q => { q with avail := setLo q.avail val })
  | 0x094 => (none, d.modifyQueue fun q => { q with avail := setHi q.avail val })
  | 0x0a0 => (none, d.modifyQueue fun q => { q with used := setLo q.used val })
  | 0x0a4 => (none, d.modifyQueue fun q => { q with used := setHi q.used val })
  | _ => (none, d)

/-! ## The host side of the network device -/

/-- Queue a frame from the host; dropped if the guest is not draining. -/
def netInput (d : VirtioDev) (frame : List U8) : VirtioDev :=
  match d.backend with
  | .net mac inbox outbox =>
    if frame.length ≤ NET_MAX_FRAME ∧ inbox.length < NET_QUEUE_LIMIT then
      { d with backend := .net mac (inbox ++ [frame]) outbox }
    else d
  | _ => d

/-- Collect the frames the guest has transmitted. -/
def netTakeOutput (d : VirtioDev) : List (List U8) × VirtioDev :=
  match d.backend with
  | .net mac inbox outbox => (outbox, { d with backend := .net mac inbox [] })
  | _ => ([], d)

/-! ## Servicing a descriptor chain

A backend answers the bytes written to guest buffers, or none if the request cannot be serviced yet. -/

/-- Type and sector of a block request header. -/
def blockHeader (header : List U8) : U32 × U64 :=
  let field := fun off n => leValue (fun a => header.getD a.toNat 0) off n
  ((field 0 4).setWidth 32, field 8 8)

/-- The loop over the data descriptors of an in-memory disk. -/
structure BlockLoop where
  disk : List U8
  pos : Option ℕ
  written : U32
  ok : Bool
  dma : Dma

/-- The part of the disk a descriptor covers. -/
def BlockLoop.diskRange (l : BlockLoop) (len : ℕ) : Option ℕ :=
  l.pos.bind fun start => if start + len < 2 ^ 64 ∧ start + len ≤ l.disk.length then some start else none

def BlockLoop.step (reqType : U32) (l : BlockLoop) (desc : Descriptor) : BlockLoop :=
  let len := desc.len.toNat
  let pos := l.pos.bind fun p => if p + len < 2 ^ 64 then some (p + len) else none
  if reqType = VIRTIO_BLK_T_IN ∧ desc.writable then
    let (done, dma) := match l.diskRange len with
      | some start => l.dma.guestWrite desc.addr ((l.disk.drop start).take len)
      | none => (false, l.dma)
    { l with pos := pos, written := l.written + desc.len, ok := l.ok && done, dma := dma }
  else if reqType = VIRTIO_BLK_T_OUT ∧ !desc.writable then
    match l.diskRange len, l.dma.guestSlice desc.addr len with
    | some start, some source =>
      { l with pos := pos, disk := l.disk.take start ++ source ++ l.disk.drop (start + len) }
    | _, _ => { l with pos := pos, ok := false }
  else { l with pos := pos, ok := false }

/-- Header, data buffers, and a status byte in the last descriptor. -/
def serviceBlock (disk : List U8) (chain : List Descriptor) (m : Dma) : Option U32 × List U8 × Dma :=
  match chain.head?, chain.getLast? with
  | some hdr, some last =>
    match m.guestSlice hdr.addr 16 with
    | none => (some 0, disk, m)
    | some header =>
      let (reqType, sector) := blockHeader header
      if chain.length < 2 then (none, disk, m)
      else
        let pos := if sector.toNat * SECTOR < 2 ^ 64 then some (sector.toNat * SECTOR) else none
        let l := (chain.tail.dropLast).foldl (BlockLoop.step reqType) ⟨disk, pos, 0, true, m⟩
        let (_, m) := l.dma.guestWrite last.addr [if l.ok then 0 else 1]
        (some (l.written + 1), l.disk, m)
  | _, _ => (none, disk, m)

def blockKind (reqType : U32) : Option BlockRequestKind :=
  if reqType = VIRTIO_BLK_T_IN then some .read
  else if reqType = VIRTIO_BLK_T_OUT then some .write
  else if reqType = VIRTIO_BLK_T_FLUSH then some .flush
  else none

/-- Length of the body and the buffers of a read; none rejects the request. -/
def blockBody (kind : BlockRequestKind) (m : Dma) (body : List Descriptor) : Option (U64 × List (U64 × U32)) :=
  body.foldlM (fun (bodyLen, readBuffers) desc =>
    let valid : Bool := match kind with
      | .read => desc.writable && (m.ram.offset desc.addr desc.len.toNat).isSome
      | .write => !desc.writable && (m.guestSlice desc.addr desc.len.toNat).isSome
      | .flush => desc.len = 0
    if !valid then none
    else (checkedAdd bodyLen (desc.len.setWidth 64)).bind fun next =>
      if next > MAX_DISK_OPERATION then none
      else some (next, if kind = .read then readBuffers ++ [(desc.addr, desc.len)] else readBuffers)) (0, [])

/-- The bytes of a write request. -/
def blockData (kind : BlockRequestKind) (m : Dma) (body : List Descriptor) : List U8 :=
  if kind = .write then body.flatMap fun desc => (m.guestSlice desc.addr desc.len.toNat).getD [] else []

/-- The end of the part of the disk a request covers. -/
def blockRangeEnd (kind : BlockRequestKind) (offset bodyLen : U64) : Option U64 :=
  if kind = .flush then some 0 else checkedAdd offset bodyLen

/-- The request an external disk leaves with the host; none rejects the chain. -/
def blockRequest (size : U64) (qi : Fin 2) (chain : List Descriptor) (hdr last : Descriptor) (m : Dma) :
    Option PendingBlockRequest := do
  guard (¬ (chain.length < 2 ∨ hdr.len < 16 ∨ hdr.writable))
  let header ← m.guestSlice hdr.addr 16
  let kind ← blockKind (blockHeader header).1
  let offset ← checkedMul (blockHeader header).2 (BitVec.ofNat 64 SECTOR)
  let body := chain.tail.dropLast
  let (bodyLen, readBuffers) ← blockBody kind m body
  guard (¬ (kind = .flush ∧ chain.length ≠ 2))
  let rangeEnd ← blockRangeEnd kind offset bodyLen
  guard (¬ (rangeEnd > size ∨ (kind ≠ .flush ∧ bodyLen = 0) ∨ (kind = .flush ∧ bodyLen ≠ 0)))
  some {
    id := m.nextBlockRequestId
    kind := kind
    offset := offset
    data := blockData kind m body
    length := bodyLen
    readBuffers := readBuffers
    statusAddr := last.addr
    queueIndex := qi
    head := 0
    usedIndexAddr := 0
    usedEntry := 0
    usedIdx := 0 }

/-- An external disk takes one request at a time, and only from queue 0. -/
def serviceExternal (size : U64) (pending : Option PendingBlockRequest) (qi : Fin 2) (chain : List Descriptor) (m : Dma) :
    Option U32 × Option PendingBlockRequest × Dma :=
  if qi ≠ 0 then (some 0, pending, m)
  else if pending.isSome then (none, pending, m)
  else match chain.head?, chain.getLast? with
  | some hdr, some last =>
    if last.len < 1 ∨ !last.writable ∨ (m.ram.offset last.addr 1).isNone then (some 0, pending, m)
    else match blockRequest size qi chain hdr last m with
    | none => (some 1, pending, (m.guestWrite last.addr [1]).2)
    | some request => (none, some request, { m with nextBlockRequestId := m.nextBlockRequestId + 1 })
  | _, _ => (some 0, pending, m)

/-- Scatter a frame over the writable descriptors; the bytes written. -/
def scatter (src : List U8) : List Descriptor → ℕ → Dma → ℕ × Dma
  | [], written, m => (written, m)
  | desc :: rest, written, m =>
    if !desc.writable ∨ written ≥ src.length then scatter src rest written m
    else
      let n := min (src.length - written) desc.len.toNat
      match m.guestWrite desc.addr ((src.drop written).take n) with
      | (false, m) => (written, m)
      | (true, m) => scatter src rest (written + n) m

/-- A zeroed virtio_net_hdr_v1 with `num_buffers` = 1. -/
def netHdr : List U8 := (List.replicate NET_HDR_LEN 0).set 10 1

/-- RX: hand the oldest inbound frame to the guest. -/
def serviceRx (inbox : List (List U8)) (chain : List Descriptor) (m : Dma) : Option U32 × List (List U8) × Dma :=
  match inbox with
  | [] => (none, [], m)
  | frame :: rest =>
    let capacity := ((chain.filter (·.writable)).map (·.len.toNat)).sum
    -- a frame that cannot fit is dropped: keeping it would wedge the queue forever
    if capacity < NET_HDR_LEN + frame.length then (none, rest, m)
    else
      let (written, m) := scatter (netHdr ++ frame) chain 0 m
      (some (BitVec.ofNat 32 written), rest, m)

/-- TX: reassemble the frame from the readable descriptors and strip the header. -/
def serviceTx (outbox : List (List U8)) (chain : List Descriptor) (m : Dma) : List (List U8) :=
  match (chain.filter (!·.writable)).mapM fun desc => m.guestSlice desc.addr desc.len.toNat with
  | none => outbox
  | some parts =>
    let frame := parts.flatten
    if frame.length > NET_HDR_LEN ∧ frame.length - NET_HDR_LEN ≤ NET_MAX_FRAME ∧ outbox.length < NET_QUEUE_LIMIT then
      outbox ++ [frame.drop NET_HDR_LEN]
    else outbox

/-- Service one descriptor chain. -/
def service (d : VirtioDev) (qi : Fin 2) (chain : List Descriptor) (m : Dma) : Option U32 × VirtioDev × Dma :=
  match d.backend with
  | .block disk =>
    let (written, disk, m) := serviceBlock disk chain m
    (written, { d with backend := .block disk }, m)
  | .externalBlock size pending =>
    let (written, pending, m) := serviceExternal size pending qi chain m
    (written, { d with backend := .externalBlock size pending }, m)
  | .net mac inbox outbox =>
    if qi = 0 then
      let (written, inbox, m) := serviceRx inbox chain m
      (written, { d with backend := .net mac inbox outbox }, m)
    else (some 0, { d with backend := .net mac inbox (serviceTx outbox chain m) }, m)

/-! ## Queue processing -/

/-- Walk a descriptor chain of at most so many descriptors. -/
def walkChain (m : Dma) (desc : U64) : ℕ → U64 → Option (List Descriptor)
  | 0, _ => some []
  | n + 1, di => do
    let base ← checkedAdd desc (← checkedMul di 16)
    let addr ← m.read64 base
    let len ← m.read32 (← checkedAdd base 8)
    let flags ← m.read16 (← checkedAdd base 12)
    let this : Descriptor := ⟨addr, len, flags &&& 2 ≠ 0⟩
    if flags &&& 1 = 0 then some [this]
    else
      let next ← m.read16 (← checkedAdd base 14)
      let rest ← walkChain m desc n (next.setWidth 64)
      some (this :: rest)

/-- What a pass works on: the available index, the head and its chain, and where the used entry goes. -/
structure Avail where
  head : U16
  chain : List Descriptor
  usedIndexAddr : U64
  usedEntry : U64
  usedIdx : U16

/-- The index the guest publishes. -/
def availIdx (m : Dma) (q : Queue) : Option U16 := (checkedAdd q.avail 2).bind m.read16

/-- The next chain and its used-ring destination, checked before the backend does any visible work. -/
def nextAvail (m : Dma) (q : Queue) : Option Avail := do
  let slot := q.lastAvailIdx.setWidth 64 % q.num.setWidth 64
  let head ← m.read16 (← checkedAdd q.avail (4 + slot * 2))
  let chain ← walkChain m q.desc q.num.toNat (head.setWidth 64)
  let usedIndexAddr ← checkedAdd q.used 2
  let usedIdx ← m.read16 usedIndexAddr
  let uslot := usedIdx.setWidth 64 % q.num.setWidth 64
  let usedEntry ← checkedAdd q.used (4 + uslot * 8)
  let _ ← m.ram.offset usedEntry 8
  some ⟨head, chain, usedIndexAddr, usedEntry, usedIdx⟩

/-- Where the completion of a pending request will publish. -/
def notePending (d : VirtioDev) (a : Avail) : VirtioDev :=
  match d.backend with
  | .externalBlock size (some pending) =>
    { d with backend := .externalBlock size (some { pending with
        head := a.head, usedIndexAddr := a.usedIndexAddr, usedEntry := a.usedEntry, usedIdx := a.usedIdx }) }
  | _ => d

/-- Publish a used entry: head, length, index. -/
def publish (m : Dma) (usedEntry usedIndexAddr : U64) (head usedIdx : U16) (written : U32) : Dma :=
  ((m.write32 usedEntry (head.setWidth 32)).write32 (usedEntry + 4) written).write16 usedIndexAddr (usedIdx + 1)

/-- Count a chain as consumed and raise the interrupt. -/
def advance (d : VirtioDev) (qi : Fin 2) : VirtioDev :=
  { d.setQueue qi { d.queues qi with lastAvailIdx := (d.queues qi).lastAvailIdx + 1 } with intStatus := d.intStatus ||| 1 }

/-- One pass of the processing loop: it services a chain, or the loop ends. -/
def pass (qi : Fin 2) (d : VirtioDev) (m : Dma) : Turn (VirtioDev × Dma) (VirtioDev × Dma) :=
  let q := d.queues qi
  if q.num = 0 then .done (d, m)
  else match availIdx m q with
  | none => .done (d, m)
  | some idx =>
    if q.lastAvailIdx = idx then .done (d, m)
    else match nextAvail m q with
    | none => .done (d, m)
    | some a =>
      match d.service qi a.chain m with
      | (none, d, m) => .done (d.notePending a, m)
      | (some written, d, m) => .next (d.advance qi, publish m a.usedEntry a.usedIndexAddr a.head a.usedIdx written)

/-- The loop body over a device and what it reaches. -/
def passBody (qi : Fin 2) (s : VirtioDev × Dma) : Option (Turn (VirtioDev × Dma) (VirtioDev × Dma)) := some (pass qi s.1 s.2)

/-- The one host operation that is waiting for completion. -/
def pendingBlockRequest (d : VirtioDev) : Option PendingBlockRequest :=
  match d.backend with
  | .externalBlock _ pending => pending
  | _ => none

/-- The queue of a number, if processing it has anything to do. -/
def activeQueue (d : VirtioDev) (qi : ℕ) : Option (Fin 2) :=
  if h : qi < 2 then
    if (d.queues ⟨qi, h⟩).ready = 0 ∨ d.pendingBlockRequest.isSome then none else some ⟨qi, h⟩
  else none

/-- Process a queue; none if it takes more than `fuel` passes. -/
def process (fuel : ℕ) (d : VirtioDev) (qi : ℕ) (m : Dma) : Option (VirtioDev × Dma) :=
  match d.activeQueue qi with
  | none => some (d, m)
  | some qi => Loop.run (passBody qi) fuel (d, m)

/-! ## Completion by the host -/

/-- The destinations of a completion, checked before the first write. -/
def completionTargetsValid (r : PendingBlockRequest) (m : Dma) : Bool :=
  (r.kind ≠ .read || r.readBuffers.all fun (addr, len) => (m.ram.offset addr len.toNat).isSome) &&
    (m.ram.offset r.statusAddr 1).isSome && (m.ram.offset r.usedEntry 8).isSome && (m.ram.offset r.usedIndexAddr 2).isSome

/-- Copy the data of a read to its buffers. -/
def copyBuffers : List (U64 × U32) → List U8 → Dma → Bool × Dma
  | [], _, m => (true, m)
  | (addr, len) :: rest, data, m =>
    let (ok, m) := m.guestWrite addr (data.take len.toNat)
    let (ok', m) := copyBuffers rest (data.drop len.toNat) m
    (ok && ok', m)

/-- Data, status, used entry and index of a completion. -/
def commitCompletion (r : PendingBlockRequest) (data : List U8) (ok : Bool) (m : Dma) : Dma :=
  let dataValid : Bool := match r.kind with
    | .read => data.length = r.length.toNat
    | .write | .flush => data.isEmpty
  let success := ok && dataValid
  let (success, m) := if success && r.kind == .read then copyBuffers r.readBuffers data m else (success, m)
  let (done, m) := m.guestWrite r.statusAddr [if success then 0 else 1]
  let success := success && done
  let written : U32 := if r.kind = .read ∧ success then r.length.setWidth 32 + 1 else 1
  publish m r.usedEntry r.usedIndexAddr r.head r.usedIdx written

/-- Complete the pending request of this id and publish its descriptor. -/
def completeBlockRequest (d : VirtioDev) (id : U64) (data : List U8) (ok : Bool) (m : Dma) : Bool × VirtioDev × Dma :=
  match d.backend with
  | .externalBlock size (some request) =>
    if request.id ≠ id then (false, d, m)
    else if !completionTargetsValid request m then (false, d, m)
    else (true, { d with backend := .externalBlock size none }.advance request.queueIndex, commitCompletion request data ok m)
  | _ => (false, d, m)

end VirtioDev
end Lish
