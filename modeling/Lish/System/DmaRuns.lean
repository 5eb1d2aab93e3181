import Lish.System.DmaRanges
import Lish.System.ExternalBlock
/-!
# DmaRuns — device memory accesses over whole runs

A request that waits for the host carries the addresses its completion writes.  A run of the device keeps, beside the request,
the chain it was taken from: what the completion writes lies within that chain, and no count wraps.
-/
namespace Lish
namespace VirtioDev

open Dma

/-! ## Runs -/

/-- A pass, and the chain of the request that waits for the host. -/
def sourcePass (qi : Fin 2) (s : (VirtioDev × Dma) × Option Avail) :
    Option (Turn ((VirtioDev × Dma) × Option Avail) ((VirtioDev × Dma) × Option Avail)) :=
  match pass qi s.1.1 s.1.2 with
  | .next t => some (.next (t, s.2))
  | .done t => some (.done (t, if t.1.pendingBlockRequest.isSome then consumed qi s.1 else s.2))

/-- `process` with the chain of the request. -/
def sourceProcess (fuel : ℕ) (d : VirtioDev) (qi : ℕ) (m : Dma) (source : Option Avail) : Option ((VirtioDev × Dma) × Option Avail) :=
  match d.activeQueue qi with
  | none => some ((d, m), source)
  | some qi => Loop.run (sourcePass qi) fuel ((d, m), source)

/-- With the chain of the request, `process` does what it does without. -/
theorem sourceProcess_fst (fuel : ℕ) (d : VirtioDev) (qi : ℕ) (m : Dma) (source : Option Avail) :
    d.process fuel qi m = (sourceProcess fuel d qi m source).map (·.1) := by
  unfold process sourceProcess
  cases d.activeQueue qi with
  | none => rfl
  | some qi =>
    have hpass : ∀ s, passBody qi s.1 = (sourcePass qi s).map (Turn.map (·.1) (·.1)) := by
      intro s
      unfold passBody sourcePass
      cases pass qi s.1.1 s.1.2 <;> rfl
    exact Loop.run_map _ _ hpass fuel ((d, m), source)

/-- A backend as it is attached: no request waits and no frame. -/
def Idle : Backend → Prop
  | .block _ => True
  | .externalBlock _ pending => pending = none
  | .net _ inbox _ => inbox = []

/-- **Every interleaving** of guest stores, register writes, processing, frames and completions by the host, with any backend. -/
inductive Ran : VirtioDev → Dma → Option Avail → Prop
  | new (b : Backend) (hb : Idle b) (m : Dma) : Ran (new b) m none
  | memory {d m m' source} (h : Ran d m source) (hm : SameRam m m') : Ran d m' source
  | write {d m source} (h : Ran d m source) (offset : U64) (val : U32) : Ran (d.write offset val).2 m source
  | process {d m source d' m' source'} (h : Ran d m source) (fuel qi : ℕ)
      (hp : sourceProcess fuel d qi m source = some ((d', m'), source')) : Ran d' m' source'
  | netInput {d m source} (h : Ran d m source) (frame : List U8) : Ran (d.netInput frame) m source
  | netOutput {d m source} (h : Ran d m source) : Ran d.netTakeOutput.2 m source
  | complete {d m source d' m'} (h : Ran d m source) (id : U64) (data : List U8) (ok : Bool) {done : Bool}
      (hc : d.completeBlockRequest id data ok m = (done, d', m')) : Ran d' m' source

variable {d d' : VirtioDev} {m m' : Dma} {qi : Fin 2} {size : U64} {source source' : Option Avail}

/-! ## Counts -/

/-- The count of a chain is that of the bytes, as numbers without a bound. -/
def Counts (d : VirtioDev) (qi : Fin 2) (a : Avail) (m : Dma) (written : U32) : Prop :=
  match d.backend with
  | .block _ => ∀ req ∈ d.diskRequest a m, written.toNat = blockWritten req.1 a.chain.tail.dropLast
  | .externalBlock _ _ => written.toNat ≤ 1
  | .net _ inbox _ => qi = 0 → ∀ frame ∈ inbox.head?, written.toNat = (scatter (netHdr ++ frame) a.chain 0 m).1

theorem blockLoop_written (reqType : U32) (body : List Descriptor) (l : BlockLoop) :
    (body.foldl (BlockLoop.step reqType) l).written.toNat + 1 ≡ l.written.toNat + blockWritten reqType body [MOD 2 ^ 32] := by
  induction body generalizing l with
  | nil => rfl
  | cons desc body ih =>
    refine (ih _).trans ?_
    have hw : (l.step reqType desc).written = if reqType = VIRTIO_BLK_T_IN ∧ desc.writable then l.written + desc.len else l.written := by
      unfold BlockLoop.step
      dsimp only
      split_ifs
      · rfl
      · split <;> rfl
      · rfl
    rw [hw]
    unfold blockWritten
    rw [List.filter_cons]
    by_cases hin : reqType = VIRTIO_BLK_T_IN ∧ desc.writable
    · rw [if_pos hin, if_pos (by simpa using hin), List.map_cons, List.sum_cons, BitVec.toNat_add]
      have := Nat.mod_modEq (l.written.toNat + desc.len.toNat) (2 ^ 32)
      refine (this.add_right _).trans ?_
      rw [Nat.add_assoc, Nat.add_assoc]
    · rw [if_neg hin, if_neg (by simpa using hin)]

theorem scatter_le (src : List U8) (chain : List Descriptor) {written : ℕ} (m : Dma) (h : written ≤ src.length) :
    (scatter src chain written m).1 ≤ src.length := by
  induction chain generalizing written m with
  | nil => exact h
  | cons desc rest ih =>
    rw [scatter]
    dsimp only
    split_ifs
    · exact ih m h
    · split
      · exact h
      · exact ih _ (by omega)

theorem diskRequest_some {a : Avail} {req : U32 × Descriptor} (h : d.diskRequest a m = some req) :
    ∃ hdr header, a.chain.head? = some hdr ∧ a.chain.getLast? = some req.2 ∧ m.guestSlice hdr.addr 16 = some header ∧
      ¬ a.chain.length < 2 ∧ req.1 = (blockHeader header).1 := by
  unfold diskRequest requestHeader at h
  split at h
  · split_ifs at h with hshort
    obtain ⟨header, hh, hl⟩ := Option.bind_eq_some_iff.1 h
    obtain ⟨hdr, hhdr, hs⟩ := Option.bind_eq_some_iff.1 hh
    obtain ⟨last, hlast, rfl⟩ := Option.map_eq_some_iff.1 hl
    exact ⟨hdr, header, hhdr, hlast, hs, hshort, rfl⟩
  · cases h

/-- The frames that wait for the guest are no longer than the host may send. -/
def ShortFrames (d : VirtioDev) : Prop := ∀ mac inbox outbox, d.backend = .net mac inbox outbox → ∀ f ∈ inbox, f.length ≤ NET_MAX_FRAME

/-- **The count** of a chain that is serviced does not wrap. -/
theorem service_counts {a : Avail} {written : U32} (h : d.DiskPass a m) (hf : d.ShortFrames)
    (hs : d.service qi a.chain m = (some written, d', m')) : d.Counts qi a m written := by
  unfold service at hs
  unfold Counts
  cases hb : d.backend with
  | block disk =>
    rw [hb] at hs
    intro req hreq
    have hfit := (h req hreq).2
    obtain ⟨hdr, header, hhdr, hlast, hslice, hshort, hty⟩ := diskRequest_some hreq
    unfold serviceBlock at hs
    rw [hhdr, hlast] at hs
    dsimp only at hs
    rw [hslice] at hs
    dsimp only at hs
    rw [if_neg hshort] at hs
    have hw := congrArg (fun r => Option.map BitVec.toNat r.1) hs
    generalize hloop : BlockLoop.mk disk _ 0 true m = l at hw
    have h0 : l.written = 0 := by rw [← hloop]
    have hmod := blockLoop_written (blockHeader header).1 a.chain.tail.dropLast l
    rw [h0] at hmod
    rw [hty] at hfit ⊢
    have hw' : ((a.chain.tail.dropLast.foldl (BlockLoop.step (blockHeader header).1) l).written + 1).toNat = written.toNat :=
      Option.some.inj hw
    rw [← hw', BitVec.toNat_add]
    have hmod' : _ % 2 ^ 32 = _ % 2 ^ 32 := hmod
    rw [show (0 : U32).toNat = 0 from rfl, Nat.zero_add, Nat.mod_eq_of_lt hfit] at hmod'
    exact hmod'
  | externalBlock size pending =>
    rw [hb] at hs
    dsimp only at hs ⊢
    have hw := congrArg (fun r => r.1) hs
    dsimp only at hw
    unfold serviceExternal at hw
    split_ifs at hw
    · exact Option.some.inj hw ▸ Nat.zero_le 1
    · split at hw
      · split_ifs at hw
        · exact Option.some.inj hw ▸ Nat.zero_le 1
        · split at hw
          · exact Option.some.inj hw ▸ le_refl 1
          · cases hw
      · exact Option.some.inj hw ▸ Nat.zero_le 1
  | net mac inbox outbox =>
    rw [hb] at hs
    dsimp only at hs ⊢
    intro hqi frame hframe
    rw [if_pos hqi] at hs
    have hw := congrArg (fun r => r.1) hs
    cases inbox with
    | nil => cases hframe
    | cons f rest =>
      obtain rfl : f = frame := Option.some.inj hframe
      unfold serviceRx at hw
      dsimp only at hw
      split_ifs at hw
      obtain rfl := Option.some.inj hw
      have hle := scatter_le (netHdr ++ f) a.chain m (Nat.zero_le _)
      have hlen : (netHdr ++ f).length = 12 + f.length := List.length_append
      have hmax : f.length ≤ 1600 := hf mac _ outbox hb f List.mem_cons_self
      rw [BitVec.toNat_ofNat, Nat.mod_eq_of_lt (by omega)]

/-! ## Addresses -/

theorem walkChain_length {desc di : U64} {n : ℕ} {chain : List Descriptor} (h : walkChain m desc n di = some chain) :
    chain.length ≤ n := by
  induction n generalizing di chain with
  | zero => exact (Option.some.inj h ▸ Nat.le_refl 0 : chain.length ≤ 0)
  | succ n ih =>
    unfold walkChain at h
    simp only [Option.bind_eq_bind, Option.bind_eq_some_iff] at h
    obtain ⟨o, -, base, -, addr, -, b8, -, len, -, b12, -, flags, -, h⟩ := h
    split_ifs at h
    · obtain rfl := Option.some.inj h
      exact Nat.succ_le_succ (Nat.zero_le n)
    · obtain ⟨b14, -, next, -, rest, hrest, hc⟩ := by simpa only [Option.bind_eq_bind, Option.bind_eq_some_iff] using h
      obtain rfl := Option.some.inj hc
      exact Nat.succ_le_succ (ih hrest)

/-- The bytes a chain lets the device write. -/
def capacity (chain : List Descriptor) : ℕ := ((chain.filter (·.writable)).map (·.len.toNat)).sum

theorem capacity_le (chain : List Descriptor) : capacity chain ≤ chain.length * 2 ^ 32 := by
  induction chain with
  | nil => exact Nat.le_refl _
  | cons desc chain ih =>
    have := desc.len.isLt
    unfold capacity at ih ⊢
    rw [List.filter_cons, List.length_cons, Nat.succ_mul]
    split_ifs
    · rw [List.map_cons, List.sum_cons, Nat.add_comm]
      exact Nat.add_le_add ih this.le
    · exact ih.trans (Nat.le_add_right _ _)

/-- A ring slot, as a number. -/
theorem slot_toNat (idx : U16) (num : U32) (c k : ℕ) (hc : c ≤ 8) (hk : k ≤ 8) :
    (BitVec.ofNat 64 c + idx.setWidth 64 % num.setWidth 64 * BitVec.ofNat 64 k).toNat = c + idx.toNat % num.toNat * k := by
  have hi := idx.isLt
  have hn := num.isLt
  have hm := Nat.mod_le idx.toNat num.toNat
  have hmul : idx.toNat % num.toNat * k ≤ idx.toNat * 8 := Nat.mul_le_mul hm hk
  rw [BitVec.toNat_add, BitVec.toNat_mul, BitVec.toNat_umod, BitVec.toNat_setWidth, BitVec.toNat_setWidth, BitVec.toNat_ofNat,
    BitVec.toNat_ofNat, Nat.mod_eq_of_lt (show c < 2 ^ 64 by omega), Nat.mod_eq_of_lt (show k < 2 ^ 64 by omega),
    Nat.mod_eq_of_lt (show idx.toNat < 2 ^ 64 by omega), Nat.mod_eq_of_lt (show num.toNat < 2 ^ 64 by omega),
    Nat.mod_eq_of_lt (show idx.toNat % num.toNat * k < 2 ^ 64 by omega), Nat.mod_eq_of_lt (by omega)]

/-- The addresses, sizes and counts of a pass are those of numbers without a bound. -/
structure ExactPass (qi : Fin 2) (s : VirtioDev × Dma) (a : Avail) : Prop where
  head : ∃ addr, addr.toNat = (s.1.queues qi).avail.toNat + (4 + (s.1.queues qi).lastAvailIdx.toNat % (s.1.queues qi).num.toNat * 2) ∧
    s.2.read16 addr = some a.head
  index : a.usedIndexAddr.toNat = (s.1.queues qi).used.toNat + 2
  entry : a.usedEntry.toNat = (s.1.queues qi).used.toNat + (4 + a.usedIdx.toNat % (s.1.queues qi).num.toNat * 8)
  length : (a.usedEntry + 4).toNat = a.usedEntry.toNat + 4
  capacity : VirtioDev.capacity a.chain < 2 ^ 64
  counts : ∀ written d' m', s.1.service qi a.chain s.2 = (some written, d', m') → s.1.Counts qi a s.2 written

theorem entry_length {entry : U64} (h : m.InRam entry 8) : (entry + 4).toNat = entry.toNat + 4 := by
  have hfits := m.ram.fits
  have := h.2
  rw [BitVec.toNat_add, show (4 : U64).toNat = 4 from rfl, Nat.mod_eq_of_lt (by omega)]

theorem exactPass {s : VirtioDev × Dma} {a : Avail} (ha : consumed qi s = some a) (h : s.1.DiskPass a s.2)
    (hf : s.1.ShortFrames) (hn : (s.1.queues qi).num.toNat ≤ 256) : ExactPass qi s a := by
  have hnext := nextAvail_of_consumed ha
  obtain ⟨-, -, hentry, hin⟩ := nextAvail_used hnext
  have hlength := entry_length (inRam_iff.1 hin)
  have hentry' := checkedAdd_toNat hentry
  rw [show (4 : U64) = BitVec.ofNat 64 4 from rfl, show (8 : U64) = BitVec.ofNat 64 8 from rfl,
    slot_toNat _ _ 4 8 (by omega) (by omega)] at hentry'
  have hcounts : ∀ written d' m', s.1.service qi a.chain s.2 = (some written, d', m') → s.1.Counts qi a s.2 written :=
    fun _ _ _ hs => service_counts h hf hs
  clear hf h hin hentry
  unfold nextAvail at hnext
  simp only [Option.bind_eq_bind, Option.bind_eq_some_iff, Option.some.injEq] at hnext
  obtain ⟨addr, haddr, head, hhead, chain, hchain, idxAddr, hidx, usedIdx, -, usedEntry, -, off, -, rfl⟩ := hnext
  have haddr' := checkedAdd_toNat haddr
  rw [show (4 : U64) = BitVec.ofNat 64 4 from rfl, show (2 : U64) = BitVec.ofNat 64 2 from rfl,
    slot_toNat _ _ 4 2 (by omega) (by omega)] at haddr'
  have hlen := walkChain_length hchain
  have hcap := capacity_le chain
  have hle : chain.length * 2 ^ 32 ≤ 256 * 2 ^ 32 := Nat.mul_le_mul_right _ (hlen.trans hn)
  exact ⟨⟨addr, haddr', hhead⟩, checkedAdd_toNat hidx, hentry', hlength, by dsimp only; omega, hcounts⟩

/-! ## The request with the host -/

/-- A request writes what the chain it was taken from lets it write, and its length is that of its buffers. -/
structure Carries (a : Avail) (r : PendingBlockRequest) : Prop where
  status : ∃ desc ∈ a.chain, desc.writable = true ∧ 1 ≤ desc.len.toNat ∧ r.statusAddr = desc.addr
  buffers : ∀ b ∈ r.readBuffers, ∃ desc ∈ a.chain, desc.writable = true ∧ b = (desc.addr, desc.len)
  entry : r.usedEntry = a.usedEntry
  index : r.usedIndexAddr = a.usedIndexAddr
  length : r.length ≤ MAX_DISK_OPERATION
  total : r.kind = .read → (r.readBuffers.map (·.2.toNat)).sum = r.length.toNat

/-- The buffers of a request are descriptors it may write, and make up its length. -/
theorem blockBody_carries {kind : BlockRequestKind} {body : List Descriptor} {bodyLen : U64} {readBuffers : List (U64 × U32)}
    (h : blockBody kind m body = some (bodyLen, readBuffers)) :
    (∀ b ∈ readBuffers, ∃ desc ∈ body, desc.writable = true ∧ b = (desc.addr, desc.len)) ∧
      bodyLen ≤ MAX_DISK_OPERATION ∧ (kind = .read → (readBuffers.map (·.2.toNat)).sum = bodyLen.toNat) := by
  unfold blockBody at h
  refine foldlM_invariant (P := fun acc : U64 × List (U64 × U32) =>
    (∀ b ∈ acc.2, ∃ desc ∈ body, desc.writable = true ∧ b = (desc.addr, desc.len)) ∧
      acc.1 ≤ MAX_DISK_OPERATION ∧ (kind = .read → (acc.2.map (·.2.toNat)).sum = acc.1.toNat)) ?_ ?_ h
  · rintro ⟨len, buffers⟩ desc acc hmem ⟨hbuf, -, htot⟩ hstep
    dsimp only at hbuf htot
    by_cases hk : kind = .read
    · subst hk
      simp only [if_true] at hstep
      split_ifs at hstep with hv
      obtain ⟨next, hnext, hn⟩ := Option.bind_eq_some_iff.1 hstep
      split_ifs at hn with hmax
      obtain rfl := Option.some.inj hn
      refine ⟨fun b hb => ?_, BitVec.not_lt.1 hmax, fun _ => ?_⟩
      · rcases List.mem_append.1 hb with hb | hb
        · exact hbuf b hb
        · simp only [Bool.not_eq_true', Bool.not_eq_false, Bool.and_eq_true] at hv
          exact ⟨desc, hmem, hv.1, List.mem_singleton.1 hb⟩
      · have hlen := desc.len.isLt
        have hadd := checkedAdd_toNat hnext
        rw [BitVec.toNat_setWidth, Nat.mod_eq_of_lt (by omega)] at hadd
        rw [List.map_append, List.sum_append, htot rfl, hadd]
        rfl
    · simp only [if_neg hk] at hstep
      split_ifs at hstep
      obtain ⟨next, -, hn⟩ := Option.bind_eq_some_iff.1 hstep
      split_ifs at hn with hmax
      obtain rfl := Option.some.inj hn
      exact ⟨hbuf, BitVec.not_lt.1 hmax, fun hr => absurd hr hk⟩
  · exact ⟨fun b hb => absurd hb List.not_mem_nil, by decide, fun _ => rfl⟩

theorem blockRequest_carries {a : Avail} {hdr last : Descriptor} {r : PendingBlockRequest}
    (hlast : a.chain.getLast? = some last) (hw : last.writable = true) (hl : 1 ≤ last.len.toNat)
    (h : blockRequest size qi a.chain hdr last m = some r) :
    Carries a { r with head := a.head, usedIndexAddr := a.usedIndexAddr, usedEntry := a.usedEntry, usedIdx := a.usedIdx } := by
  unfold blockRequest at h
  simp only [Option.bind_eq_bind, Option.bind_eq_some_iff] at h
  obtain ⟨-, -, header, -, kind, -, offset, -, ⟨bodyLen, readBuffers⟩, hbody, -, -, rangeEnd, -, -, -, hr⟩ := h
  obtain rfl := Option.some.inj hr
  obtain ⟨hbuf, hmax, htot⟩ := blockBody_carries hbody
  exact {
    status := ⟨last, List.mem_of_getLast? hlast, hw, hl, rfl⟩
    buffers := fun b hb => by
      obtain ⟨desc, hd, hrest⟩ := hbuf b hb
      exact ⟨desc, List.mem_of_mem_tail (List.mem_of_mem_dropLast hd), hrest⟩
    entry := rfl
    index := rfl
    length := hmax
    total := htot }

/-- A request that servicing a chain leaves with the host carries the chain. -/
theorem service_request {a : Avail} {written : Option U32} (hnone : d.pendingBlockRequest = none)
    (hs : d.service qi a.chain m = (written, d', m')) :
    d'.pendingBlockRequest = none ∨ ∃ r, d'.pendingBlockRequest = some r ∧ written = none ∧
      Carries a { r with head := a.head, usedIndexAddr := a.usedIndexAddr, usedEntry := a.usedEntry, usedIdx := a.usedIdx } := by
  unfold service at hs
  cases hb : d.backend with
  | block disk =>
    rw [hb] at hs
    obtain rfl := congrArg (fun r => r.2.1) hs
    exact Or.inl rfl
  | net mac inbox outbox =>
    rw [hb] at hs
    left
    dsimp only at hs
    split_ifs at hs
    · obtain rfl := congrArg (fun r => r.2.1) hs
      rfl
    · obtain rfl := congrArg (fun r => r.2.1) hs
      rfl
  | externalBlock size pending =>
    obtain rfl : pending = none := (pending_of_backend hb).symm.trans hnone
    rw [hb] at hs
    dsimp only at hs
    unfold serviceExternal at hs
    by_cases hqi : qi ≠ 0
    · rw [if_pos hqi] at hs
      cases hs
      exact Or.inl rfl
    rw [if_neg hqi, if_neg (by decide)] at hs
    cases hh : a.chain.head? with
    | none =>
      rw [hh] at hs
      cases hs
      exact Or.inl rfl
    | some hdr =>
      cases hl : a.chain.getLast? with
      | none =>
        rw [hh, hl] at hs
        cases hs
        exact Or.inl rfl
      | some last =>
        rw [hh, hl] at hs
        dsimp only at hs
        by_cases hbad : last.len < 1 ∨ !last.writable ∨ (m.ram.offset last.addr 1).isNone
        · rw [if_pos hbad] at hs
          cases hs
          exact Or.inl rfl
        rw [if_neg hbad] at hs
        cases hreq : blockRequest size qi a.chain hdr last m with
        | none =>
          rw [hreq] at hs
          cases hs
          exact Or.inl rfl
        | some r =>
          rw [hreq] at hs
          cases hs
          push Not at hbad
          exact Or.inr ⟨r, rfl, rfl, blockRequest_carries hl (by simpa using hbad.2.1) (BitVec.le_def.1 (BitVec.not_lt.1 hbad.1)) hreq⟩

theorem notePending_request (d : VirtioDev) (a : Avail) : (d.notePending a).pendingBlockRequest =
    d.pendingBlockRequest.map fun r =>
      { r with head := a.head, usedIndexAddr := a.usedIndexAddr, usedEntry := a.usedEntry, usedIdx := a.usedIdx } := by
  unfold notePending pendingBlockRequest
  rcases hb : d.backend with disk | ⟨size, _ | r⟩ | ⟨mac, inbox, outbox⟩
  all_goals first | rfl | (dsimp only; rw [hb]; rfl)

/-- A request that a pass leaves with the host carries the chain the pass consumed. -/
theorem pass_request (hnone : d.pendingBlockRequest = none) :
    (∀ d' m', pass qi d m = .next (d', m') → d'.pendingBlockRequest = none) ∧
      ∀ d' m' r, pass qi d m = .done (d', m') → d'.pendingBlockRequest = some r →
        ∃ a, consumed qi (d, m) = some a ∧ Carries a r := by
  rw [pass_eq]
  cases ha : consumed qi (d, m) with
  | none =>
    refine ⟨fun _ _ h => (nomatch h), fun d' m' r h hr => ?_⟩
    cases h
    rw [hnone] at hr
    cases hr
  | some a =>
    dsimp only
    rcases hs : d.service qi a.chain m with ⟨_ | written, d₁, m₁⟩
    · refine ⟨fun _ _ h => (nomatch h), fun d' m' r h hr => ⟨a, rfl, ?_⟩⟩
      cases h
      rw [notePending_request] at hr
      obtain ⟨r₁, hr₁, rfl⟩ := Option.map_eq_some_iff.1 hr
      rcases service_request hnone hs with hn | ⟨r₂, hr₂, -, hc⟩
      · rw [hn] at hr₁
        cases hr₁
      · obtain rfl : r₁ = r₂ := Option.some.inj (hr₁.symm.trans hr₂)
        exact hc
    · refine ⟨fun d' m' h => ?_, fun _ _ _ h => (nomatch h)⟩
      cases h
      rcases service_request hnone hs with hn | ⟨r₂, -, hw, -⟩
      · exact hn
      · cases hw

/-! ## A completion -/

theorem copyBuffers_confined (buffers : List (U64 × U32)) (data : List U8) (m : Dma) :
    Confined (buffers.map fun b => (b.1, b.2.toNat)) m (copyBuffers buffers data m).2 := by
  induction buffers generalizing data m with
  | nil => exact .refl m
  | cons b rest ih =>
    have hlen : (data.take b.2.toNat).length ≤ b.2.toNat := by
      rw [List.length_take]
      exact Nat.min_le_left _ _
    have hfirst := confined_guestWrite m b.1 hlen
    refine (hfirst.subset fun r hr => ?_).trans ((ih _ _).subset fun r hr => List.mem_cons_of_mem _ hr)
    rw [List.mem_singleton.1 hr]
    exact List.mem_cons_self

theorem commitCompletion_confined {a : Avail} {r : PendingBlockRequest} {data : List U8} {ok : Bool} (hc : Carries a r)
    (ht : completionTargetsValid r m) : Confined a.ranges m (commitCompletion r data ok m) := by
  unfold commitCompletion
  dsimp only
  generalize (ok && _) = success
  have hcopy : Confined a.ranges m (if success && r.kind == .read then copyBuffers r.readBuffers data m else (success, m)).2 := by
    split_ifs
    · refine a.buffers ((copyBuffers_confined r.readBuffers data m).subset fun range hr => ?_)
      obtain ⟨b, hb, rfl⟩ := List.mem_map.1 hr
      obtain ⟨desc, hd, hw, rfl⟩ := hc.buffers b hb
      exact mem_bufferRanges hd hw
    · exact .refl m
  generalize (if success && r.kind == .read then copyBuffers r.readBuffers data m else (success, m)) = copied at hcopy
  refine hcopy.trans ?_
  obtain ⟨desc, hd, hw, hl, hs⟩ := hc.status
  have hstatus : Confined a.ranges copied.2 (copied.2.guestWrite r.statusAddr [if copied.1 then 0 else 1]).2 := by
    refine a.buffers ((confined_guestWrite copied.2 r.statusAddr (List.length_singleton).le).mono fun i range hr hi => ?_)
    rw [List.mem_singleton.1 hr, hs] at hi
    exact first_byte hd hw hl hi
  refine hstatus.trans ?_
  unfold completionTargetsValid at ht
  simp only [Bool.and_eq_true] at ht
  have hin : (copied.2.guestWrite r.statusAddr [if copied.1 then 0 else 1]).2.InRam a.usedEntry 8 := by
    rw [← inRam_iff, (hcopy.trans hstatus).same.offset, ← hc.entry]
    exact ht.1.2
  rw [hc.entry, hc.index]
  exact ⟨publish_rel dmaRel_sameRam _ _ _ _ _ _, fun i hi =>
    publish_outside _ _ _ _ i (inRam_iff.2 hin) (hi _ List.mem_cons_self) (hi _ (List.mem_cons_of_mem _ List.mem_cons_self))⟩

/-- A completion is confined to the chain its request was taken from, its slices of the data are those of its buffers, and its
count does not wrap. -/
structure ExactCompletion (d : VirtioDev) (a : Avail) (data : List U8) (m m' : Dma) : Prop where
  confined : Confined a.ranges m m'
  slices : ∀ r, d.pendingBlockRequest = some r → r.kind = .read → data.length = r.length.toNat →
    (r.readBuffers.map (·.2.toNat)).sum = data.length
  count : ∀ r, d.pendingBlockRequest = some r → (r.length.setWidth 32 + 1 : U32).toNat = r.length.toNat + 1
  length : (a.usedEntry + 4).toNat = a.usedEntry.toNat + 4

theorem complete_exact {a : Avail} {r : PendingBlockRequest} {id : U64} {data : List U8} {ok : Bool}
    (hr : d.pendingBlockRequest = some r) (hc : Carries a r) (h : d.completeBlockRequest id data ok m = (true, d', m')) :
    ExactCompletion d a data m m' := by
  have hone : ∀ r', d.pendingBlockRequest = some r' → r' = r := fun r' hr' => Option.some.inj (hr'.symm.trans hr)
  have hmax : r.length.toNat ≤ 65536 := BitVec.le_def.1 hc.length
  unfold completeBlockRequest at h
  unfold pendingBlockRequest at hr
  split at h
  · next size request hb =>
    rw [hb] at hr
    obtain rfl : request = r := Option.some.inj hr
    by_cases hid : request.id ≠ id
    · rw [if_pos hid] at h
      cases h
    rw [if_neg hid] at h
    by_cases htarget : !completionTargetsValid request m
    · rw [if_pos htarget] at h
      cases h
    rw [if_neg htarget] at h
    have htarget' : completionTargetsValid request m := by simpa using htarget
    cases h
    refine ⟨commitCompletion_confined hc htarget', fun r' hr' hk hd => ?_, fun r' hr' => ?_, ?_⟩
    · rw [hone r' hr'] at hk hd ⊢
      rw [hd]
      exact hc.total hk
    · rw [hone r' hr', BitVec.toNat_add, BitVec.toNat_setWidth, show (1 : U32).toNat = 1 from rfl]
      omega
    · unfold completionTargetsValid at htarget'
      simp only [Bool.and_eq_true] at htarget'
      exact entry_length (m := m) (inRam_iff.1 (hc.entry ▸ htarget'.1.2))
  · cases h

/-! ## What a run keeps -/

/-- What a device keeps: its queues are no longer than a device offers, its frames are short, and the request with the host
carries the chain it was taken from. -/
structure Backed (d : VirtioDev) (source : Option Avail) : Prop where
  num : ∀ qi, (d.queues qi).num.toNat ≤ 256
  frames : d.ShortFrames
  request : ∀ r, d.pendingBlockRequest = some r → ∃ a, source = some a ∧ Carries a r

theorem backed_new {b : Backend} (hb : Idle b) : Backed (new b) none where
  num _ := Nat.zero_le _
  frames mac inbox outbox hn f hf := by
    obtain rfl : b = .net mac inbox outbox := hn
    rw [show inbox = [] from hb] at hf
    cases hf
  request r hr := by
    cases b with
    | block disk => cases hr
    | net mac inbox outbox => cases hr
    | externalBlock size pending =>
      rw [show pending = none from hb] at hr
      cases hr

theorem Backed.of_backend (h : Backed d source) (hb : d'.backend = d.backend) (hn : ∀ qi, (d'.queues qi).num.toNat ≤ 256) :
    Backed d' source where
  num := hn
  frames mac inbox outbox hd := h.frames mac inbox outbox (hb.symm.trans hd)
  request r hr := h.request r (by
    unfold pendingBlockRequest at hr ⊢
    rw [hb] at hr
    exact hr)

theorem queueNumMax_le (d : VirtioDev) : d.queueNumMax ≤ 256 := by
  unfold queueNumMax
  split <;> decide

theorem Backed.write (h : Backed d source) (offset : U64) (val : U32) : Backed (d.write offset val).2 source := by
  by_cases hr : offset.toNat = 0x070 ∧ val = 0
  · rw [write_reset d offset val hr]
    refine ⟨fun _ => Nat.zero_le _, fun mac inbox outbox hd => h.frames mac inbox outbox ?_, fun r hp => ?_⟩
    · unfold reset dropPending at hd
      dsimp only at hd
      split at hd
      · cases hd
      · exact hd
    · unfold reset dropPending pendingBlockRequest at hp
      dsimp only at hp
      cases hb : d.backend with
      | block disk => rw [hb] at hp; cases hp
      | net mac inbox outbox => rw [hb] at hp; cases hp
      | externalBlock size pending => rw [hb] at hp; cases hp
  · refine h.of_backend (write_keeps d offset val hr).1 fun qi => ?_
    have hmodify : ∀ g : Queue → Queue, (∀ q, q.num.toNat ≤ 256 → (g q).num.toNat ≤ 256) →
        ((d.modifyQueue g).queues qi).num.toNat ≤ 256 := by
      intro g hg
      unfold modifyQueue setQueue
      dsimp only
      split_ifs
      · exact hg _ (h.num _)
      · exact h.num qi
    unfold VirtioDev.write
    split
    case h_8 hoff =>
      dsimp only
      rw [if_neg fun hv => hr ⟨hoff, hv⟩]
      exact h.num qi
    case h_4 =>
      have hmax : d.queueNumMax.toNat ≤ 256 := BitVec.le_def.1 d.queueNumMax_le
      dsimp only
      refine hmodify _ fun q _ => ?_
      dsimp only
      split_ifs with hv
      · exact (BitVec.le_def.1 hv).trans hmax
      · exact hmax
    all_goals first
      | exact h.num qi
      | (dsimp only; exact hmodify _ fun _ hq => hq)

theorem service_frames (hf : d.ShortFrames) (qi : Fin 2) (chain : List Descriptor) (m : Dma) : (d.service qi chain m).2.1.ShortFrames := by
  unfold service
  cases hb : d.backend with
  | block disk => exact fun _ _ _ hd => (nomatch hd)
  | externalBlock size pending => exact fun _ _ _ hd => (nomatch hd)
  | net mac inbox outbox =>
    have hall := hf mac inbox outbox hb
    dsimp only
    split_ifs
    · intro mac' inbox' outbox' hd f hfr
      unfold serviceRx at hd
      cases inbox with
      | nil =>
        cases hd
        cases hfr
      | cons frame rest =>
        dsimp only at hd
        split_ifs at hd
        · cases hd
          exact hall f (List.mem_cons_of_mem _ hfr)
        · cases hd
          exact hall f (List.mem_cons_of_mem _ hfr)
    · intro mac' inbox' outbox' hd f hfr
      cases hd
      exact hall f hfr

/-- A pass leaves the lengths of the queues, and short frames. -/
theorem pass_backed (hn : ∀ q, (d.queues q).num.toNat ≤ 256) (hf : d.ShortFrames)
    (hp : pass qi d m = .next (d', m') ∨ pass qi d m = .done (d', m')) :
    (∀ q, (d'.queues q).num.toNat ≤ 256) ∧ d'.ShortFrames := by
  rw [pass_eq] at hp
  cases ha : consumed qi (d, m) with
  | none =>
    rw [ha] at hp
    rcases hp with hp | hp
    · cases hp
    · cases hp
      exact ⟨hn, hf⟩
  | some a =>
    rw [ha] at hp
    dsimp only at hp
    have hq := (service_keeps d qi a.chain m).1
    have hf := service_frames hf qi a.chain m
    rcases hs : d.service qi a.chain m with ⟨_ | written, d₁, m₁⟩
    · rw [hs] at hp hq hf
      rcases hp with hp | hp
      · cases hp
      · cases hp
        dsimp only at hq hf
        unfold notePending
        split
        · refine ⟨fun q => ?_, fun _ _ _ hd => (nomatch hd)⟩
          dsimp only
          rw [hq]
          exact hn q
        · exact ⟨fun q => hq ▸ hn q, hf⟩
    · rw [hs] at hp hq hf
      rcases hp with hp | hp
      · cases hp
        dsimp only at hq hf
        refine ⟨fun q => ?_, hf⟩
        unfold advance setQueue
        dsimp only
        rw [hq]
        split_ifs
        · exact hn qi
        · exact hn q
      · cases hp

/-- **A pass** keeps the chain of the request. -/
theorem sourcePass_backed (h : Backed d source) (hnone : d.pendingBlockRequest = none) :
    (∀ t, sourcePass qi ((d, m), source) = some (.next t) → Backed t.1.1 t.2 ∧ t.1.1.pendingBlockRequest = none) ∧
      ∀ t, sourcePass qi ((d, m), source) = some (.done t) → Backed t.1.1 t.2 := by
  unfold sourcePass
  dsimp only
  cases hp : pass qi d m with
  | next u =>
    refine ⟨fun t ht => ?_, fun t ht => (nomatch ht)⟩
    cases ht
    obtain ⟨hnum, hframes⟩ := pass_backed h.num h.frames (Or.inl hp)
    have hn := (pass_request hnone).1 _ _ hp
    exact ⟨⟨hnum, hframes, fun r hr => by rw [hn] at hr; cases hr⟩, hn⟩
  | done u =>
    refine ⟨fun t ht => (nomatch ht), fun t ht => ?_⟩
    cases ht
    obtain ⟨hnum, hframes⟩ := pass_backed h.num h.frames (Or.inr hp)
    refine ⟨hnum, hframes, fun r hr => ?_⟩
    obtain ⟨a, ha, hc⟩ := (pass_request hnone).2 _ _ r hp hr
    exact ⟨a, by rw [if_pos (by rw [hr]; rfl), ha], hc⟩

theorem Backed.process (h : Backed d source) {fuel n : ℕ}
    (hp : sourceProcess fuel d n m source = some ((d', m'), source')) : Backed d' source' := by
  unfold sourceProcess at hp
  cases hq : d.activeQueue n with
  | none =>
    rw [hq] at hp
    cases hp
    exact h
  | some q =>
    rw [hq] at hp
    exact Loop.run_invariant (J := fun s => Backed s.1.1 s.2 ∧ s.1.1.pendingBlockRequest = none) (Q := fun s => Backed s.1.1 s.2)
      (fun _ t hs ht => (sourcePass_backed hs.1 hs.2).1 t ht) (fun _ t hs ht => (sourcePass_backed hs.1 hs.2).2 t ht)
      ⟨h, activeQueue_pending hq⟩ hp

theorem Backed.netInput (h : Backed d source) (frame : List U8) : Backed (d.netInput frame) source := by
  unfold VirtioDev.netInput
  cases hb : d.backend with
  | block disk => exact h
  | externalBlock size pending => exact h
  | net mac inbox outbox =>
    dsimp only
    split_ifs with hl
    · refine ⟨h.num, fun mac' inbox' outbox' hd f hf => ?_, fun r hr => (nomatch hr)⟩
      cases hd
      rcases List.mem_append.1 hf with hf | hf
      · exact h.frames mac inbox outbox hb f hf
      · rw [List.mem_singleton.1 hf]
        exact hl.1
    · exact h

theorem Backed.netOutput (h : Backed d source) : Backed d.netTakeOutput.2 source := by
  unfold VirtioDev.netTakeOutput
  cases hb : d.backend with
  | block disk => exact h
  | externalBlock size pending => exact h
  | net mac inbox outbox =>
    refine ⟨h.num, fun mac' inbox' outbox' hd f hf => ?_, fun r hr => (nomatch hr)⟩
    cases hd
    exact h.frames mac inbox outbox hb f hf

theorem Backed.complete (h : Backed d source) {id : U64} {data : List U8} {ok done : Bool}
    (hc : d.completeBlockRequest id data ok m = (done, d', m')) : Backed d' source := by
  unfold completeBlockRequest at hc
  split at hc
  · next size request hb =>
    split_ifs at hc
    · cases hc
      exact h
    · cases hc
      exact h
    · cases hc
      refine ⟨fun qi => ?_, fun _ _ _ hd => (nomatch hd), fun r hr => (nomatch hr)⟩
      unfold advance setQueue
      dsimp only
      split_ifs
      · exact h.num request.queueIndex
      · exact h.num qi
  · cases hc
    exact h

theorem backed_of_ran (h : Ran d m source) : Backed d source := by
  induction h with
  | new b hb m => exact backed_new hb
  | memory _ _ ih => exact ih
  | write _ offset val ih => exact ih.write offset val
  | process _ fuel qi hp ih => exact ih.process hp
  | netInput _ frame ih => exact ih.netInput frame
  | netOutput _ ih => exact ih.netOutput
  | complete _ id data ok hc ih => exact ih.complete hc

/-! ## Confinement -/

/-- A chain that a call of `process` services: the pass, and where the device and its memory are. -/
def Services (d : VirtioDev) (m : Dma) (n : ℕ) (q : Fin 2) (k : ℕ) (s : VirtioDev × Dma) (a : Avail) : Prop :=
  d.activeQueue n = some q ∧ Loop.after (passBody q) k (d, m) = some s ∧ consumed q s = some a

theorem after_backed (h : Backed d source) {q : Fin 2} {k : ℕ} {s : VirtioDev × Dma} (hs : Loop.after (passBody q) k (d, m) = some s) :
    (∀ q, (s.1.queues q).num.toNat ≤ 256) ∧ s.1.ShortFrames :=
  Loop.after_invariant (J := fun s : VirtioDev × Dma => (∀ q, (s.1.queues q).num.toNat ≤ 256) ∧ s.1.ShortFrames)
    (fun _ _ hs ht => pass_backed hs.1 hs.2 (Or.inl (Option.some.inj ht))) ⟨h.num, h.frames⟩ hs

/-- A flush request of two descriptors, the header and the status with these flags, and one entry available. -/
def statusRam (flags : U8) : FlatMemory where
  base := RAM_BASE
  len := 4096
  mem := fun i => ([(0x41, 2), (0x43, 0x80), (0x48, 16), (0x4c, 1), (0x4e, 1), (0x51, 3), (0x53, 0x80), (0x58, 1), (0x5c, flags),
    (0x102, 1), (0x200, 4), (0x300, 0xff)].lookup i).getD 0
  fits := RAM_page_fits
  len_lt := page_len_lt

def statusDma (flags : U8) : Dma := ⟨statusRam flags, .new 4096, 1⟩

/-- An in-memory disk of which the guest has set up one queue. -/
def statusDisk : VirtioDev :=
  [(0x030, 0), (0x038, 2), (0x080, (RAM_BASE + 0x40).setWidth 32), (0x090, (RAM_BASE + 0x100).setWidth 32),
    (0x0a0, (RAM_BASE + 0x180).setWidth 32), (0x044, 1)].foldl (fun d (reg : U64 × U32) => (d.write reg.1 reg.2).2) (.new (.block []))

theorem Ran.writes (h : Ran d m source) (regs : List (U64 × U32)) :
    Ran (regs.foldl (fun d reg => (d.write reg.1 reg.2).2) d) m source := by
  induction regs generalizing d with
  | nil => exact h
  | cons reg regs ih => exact ih (h.write reg.1 reg.2)

theorem ran_status (flags : U8) : Ran statusDisk (statusDma flags) none := (Ran.new (.block []) trivial _).writes _

/-- One chain is serviced, in the first pass. -/
theorem services_first {flags : U8} (h1 : (Loop.after (passBody 0) 1 (statusDisk, statusDma flags)).all fun s => (consumed 0 s).isNone)
    (h2 : (Loop.after (passBody 0) 2 (statusDisk, statusDma flags)).isNone) {q : Fin 2} {k : ℕ} {s : VirtioDev × Dma} {a : Avail}
    (h : Services statusDisk (statusDma flags) 0 q k s a) : q = 0 ∧ s = (statusDisk, statusDma flags) := by
  obtain ⟨hq, hs, ha⟩ := h
  obtain rfl : q = 0 := Option.some.inj (hq.symm.trans rfl)
  refine ⟨rfl, ?_⟩
  cases k with
  | zero => exact (Option.some.inj hs).symm
  | succ k =>
    cases k with
    | zero =>
      rw [hs, Option.all_some, ha] at h1
      cases h1
    | succ k =>
      rw [Loop.after_none_mono (Option.isNone_iff_eq_none.1 h2) (Nat.le_add_left 2 k)] at hs
      cases hs

end VirtioDev
end Lish
