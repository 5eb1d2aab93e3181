import Lish.System.VirtioQueue
/-!
# DmaRanges — what a pass may write

The memory a device changes lies within the ranges of the chain it consumes: the descriptors the guest has made writable, the
used entry and the used index.
-/
namespace Lish
namespace Dma

variable {m m' m'' : Dma} {addr : U64} {n : ℕ} {ranges ranges' : List (U64 × ℕ)}

/-- A range lies in RAM. -/
def InRam (m : Dma) (addr : U64) (n : ℕ) : Prop :=
  m.ram.base.toNat ≤ addr.toNat ∧ addr.toNat + n ≤ m.ram.base.toNat + m.ram.len

instance (m : Dma) (addr : U64) (n : ℕ) : Decidable (m.InRam addr n) := inferInstanceAs (Decidable (_ ∧ _))

theorem inRam_iff : (m.ram.offset addr n).isSome ↔ m.InRam addr n := by
  have hfits := m.ram.fits
  have hlen := m.ram.len_lt
  unfold FlatMemory.offset InRam
  dsimp only
  by_cases hb : addr < m.ram.base
  · have := BitVec.lt_def.1 hb
    rw [if_pos hb]
    exact ⟨fun h => (nomatch h), fun h => by omega⟩
  · rw [if_neg hb]
    have hle := BitVec.not_lt.1 hb
    rw [BitVec.toNat_sub_of_le hle]
    have := BitVec.le_def.1 hle
    split_ifs with hc
    · exact ⟨fun _ => by omega, fun _ => rfl⟩
    · exact ⟨fun h => (nomatch h), fun h => absurd (by omega) hc⟩

theorem offset_outside (h : ¬ m.InRam addr n) : m.ram.offset addr n = none :=
  Option.not_isSome_iff_eq_none.1 fun hs => h (inRam_iff.1 hs)

/-- **A read outside RAM** fails. -/
theorem read_outside (h : ¬ m.InRam addr n) : m.guestSlice addr n = none ∧ m.read addr n = none := by
  unfold guestSlice read
  rw [offset_outside h]
  exact ⟨rfl, rfl⟩

/-- **A write outside RAM** fails, and changes nothing. -/
theorem guestWrite_outsideRam {bytes : List U8} (h : ¬ m.InRam addr bytes.length) : m.guestWrite addr bytes = (false, m) := by
  unfold guestWrite
  rw [offset_outside h]

/-- Memory has changed within ranges only. -/
structure Confined (ranges : List (U64 × ℕ)) (m m' : Dma) : Prop where
  same : SameRam m m'
  outside : ∀ i, (∀ r ∈ ranges, ¬ m.Within r i) → m'.ram.mem i = m.ram.mem i

namespace Confined

theorem refl (m : Dma) : Confined ranges m m := ⟨.refl m, fun _ _ => rfl⟩

theorem trans (h : Confined ranges m m') (h' : Confined ranges m' m'') : Confined ranges m m'' := by
  refine ⟨h.same.trans h'.same, fun i hi => ?_⟩
  rw [h'.outside i fun r hr hw => hi r hr ((h.same.within r i).1 hw), h.outside i hi]

/-- Ranges that cover more. -/
theorem mono (h : Confined ranges m m') (hc : ∀ i r, r ∈ ranges → m.Within r i → ∃ r' ∈ ranges', m.Within r' i) :
    Confined ranges' m m' :=
  ⟨h.same, fun i hi => h.outside i fun r hr hw => by
    obtain ⟨r', hr', hw'⟩ := hc i r hr hw
    exact hi r' hr' hw'⟩

theorem subset (h : Confined ranges m m') (hs : ∀ r ∈ ranges, r ∈ ranges') : Confined ranges' m m' :=
  h.mono fun _ r hr hw => ⟨r, hs r hr, hw⟩

/-- A byte that has changed lies in a range. -/
theorem changed (h : Confined ranges m m') {i : ℕ} (hi : m'.ram.mem i ≠ m.ram.mem i) : ∃ r ∈ ranges, m.Within r i := by
  by_contra hc
  exact hi (h.outside i fun r hr hw => hc ⟨r, hr, hw⟩)

end Confined

theorem confined_guestWrite (m : Dma) (addr : U64) {bytes : List U8} (hn : bytes.length ≤ n) :
    Confined [(addr, n)] m (m.guestWrite addr bytes).2 :=
  ⟨guestWrite_sameRam m addr bytes, fun i hi => guestWrite_outside i hn (hi _ (List.mem_singleton_self _))⟩

end Dma

namespace VirtioDev

open Dma

variable {d d' : VirtioDev} {m m' : Dma} {qi : Fin 2} {chain : List Descriptor}

/-- What the descriptors of a chain let the device write. -/
def bufferRanges (chain : List Descriptor) : List (U64 × ℕ) :=
  (chain.filter (·.writable)).map fun desc => (desc.addr, desc.len.toNat)

/-- What a pass over a chain may write. -/
def Avail.ranges (a : Avail) : List (U64 × ℕ) := (a.usedEntry, 8) :: (a.usedIndexAddr, 2) :: bufferRanges a.chain

theorem mem_bufferRanges {desc : Descriptor} (h : desc ∈ chain) (hw : desc.writable = true) :
    (desc.addr, desc.len.toNat) ∈ bufferRanges chain := List.mem_map.2 ⟨desc, List.mem_filter.2 ⟨h, hw⟩, rfl⟩

/-- The first byte of a writable descriptor that is not empty. -/
theorem first_byte {desc : Descriptor} (h : desc ∈ chain) (hw : desc.writable = true) (hl : 1 ≤ desc.len.toNat) {i : ℕ}
    (hi : m.Within (desc.addr, 1) i) : ∃ r ∈ bufferRanges chain, m.Within r i :=
  ⟨_, mem_bufferRanges h hw, hi.1, lt_of_lt_of_le hi.2 (Nat.add_le_add_left hl _)⟩

/-! ## Servicing a chain -/

/-- The bytes an in-memory disk counts as written: the data descriptors of a read, and the status. -/
def blockWritten (reqType : U32) (body : List Descriptor) : ℕ :=
  ((body.filter fun desc => decide (reqType = VIRTIO_BLK_T_IN ∧ desc.writable)).map (·.len.toNat)).sum + 1

/-- The header a block request starts with, once it can be read. -/
def requestHeader (chain : List Descriptor) (m : Dma) : Option (List U8) := chain.head?.bind fun hdr => m.guestSlice hdr.addr 16

/-- A block request an in-memory disk acts on: its header can be read, and it has a last descriptor besides. -/
def diskRequest (d : VirtioDev) (a : Avail) (m : Dma) : Option (U32 × Descriptor) :=
  match d.backend with
  | .block _ => if a.chain.length < 2 then none else (requestHeader a.chain m).bind fun header =>
      a.chain.getLast?.map fun last => ((blockHeader header).1, last)
  | _ => none

/-- The status byte of an in-memory disk, if it is in RAM, lies in a range of the chain, and the count of the request fits. -/
def DiskPass (d : VirtioDev) (a : Avail) (m : Dma) : Prop :=
  ∀ req ∈ d.diskRequest a m,
    (m.InRam req.2.addr 1 → ∃ r ∈ a.ranges, r.1.toNat ≤ req.2.addr.toNat ∧ req.2.addr.toNat < r.1.toNat + r.2) ∧
      blockWritten req.1 a.chain.tail.dropLast < 2 ^ 32

instance (d : VirtioDev) (a : Avail) (m : Dma) : Decidable (d.DiskPass a m) := inferInstanceAs (Decidable (∀ _ ∈ _, _))

theorem confined_blockLoop (reqType : U32) (l : BlockLoop) :
    Confined (bufferRanges chain) l.dma ((chain.tail.dropLast).foldl (BlockLoop.step reqType) l).dma :=
  ⟨blockLoop_rel dmaRel_sameRam reqType _ l, fun i hi => blockLoop_outside reqType _ l i fun _ hd hw =>
    hi _ (mem_bufferRanges (List.mem_of_mem_tail (List.mem_of_mem_dropLast hd)) hw)⟩

theorem Avail.buffers (a : Avail) {m m' : Dma} (h : Confined (bufferRanges a.chain) m m') : Confined a.ranges m m' :=
  h.subset fun _ hr => List.mem_cons_of_mem _ (List.mem_cons_of_mem _ hr)

/-- An in-memory disk writes its chain's ranges. -/
theorem serviceBlock_confined {a : Avail} {disk : List U8} (hb : d.backend = .block disk) (h : d.DiskPass a m) :
    Confined a.ranges m (serviceBlock disk a.chain m).2.2 := by
  unfold serviceBlock
  cases hh : a.chain.head? with
  | none => exact .refl m
  | some hdr =>
    cases hl : a.chain.getLast? with
    | none => exact .refl m
    | some last =>
      dsimp only
      cases hs : m.guestSlice hdr.addr 16 with
      | none => exact .refl m
      | some header =>
        dsimp only
        by_cases hshort : a.chain.length < 2
        · rw [if_pos hshort]
          exact .refl m
        · have hreq : d.diskRequest a m = some ((blockHeader header).1, last) := by
            unfold diskRequest requestHeader
            rw [hb, hh, hl]
            dsimp only
            rw [if_neg hshort, Option.bind_some, hs]
            rfl
          rw [if_neg hshort]
          generalize hloop : BlockLoop.mk disk _ 0 true m = l
          have hm : l.dma = m := by rw [← hloop]
          have hc : Confined a.ranges m ((a.chain.tail.dropLast).foldl (BlockLoop.step (blockHeader header).1) l).dma :=
            a.buffers (hm ▸ confined_blockLoop (blockHeader header).1 l)
          refine hc.trans ?_
          by_cases hin : m.InRam last.addr 1
          · obtain ⟨r, hr, h1, h2⟩ := (h _ hreq).1 hin
            dsimp only at h1 h2
            refine (confined_guestWrite _ last.addr (List.length_singleton).le).mono fun i r' hr' hi => ⟨r, hr, ?_⟩
            rw [List.mem_singleton.1 hr'] at hi
            have h3 := hi.1
            have h4 := hi.2
            exact ⟨by dsimp only at h3 h4 ⊢; omega, by dsimp only at h3 h4 ⊢; omega⟩
          · have hout : ¬ ((a.chain.tail.dropLast).foldl (BlockLoop.step (blockHeader header).1) l).dma.InRam last.addr 1 := by
              rwa [← inRam_iff, hc.same.offset, inRam_iff]
            rw [guestWrite_outsideRam hout]
            exact .refl _

/-- **Servicing** a chain writes its ranges only. -/
theorem service_confined (qi : Fin 2) {a : Avail} (h : d.DiskPass a m) : Confined a.ranges m (d.service qi a.chain m).2.2 := by
  unfold service
  cases hb : d.backend with
  | block disk => exact serviceBlock_confined hb h
  | externalBlock size pending =>
    dsimp only
    refine a.buffers ?_
    unfold serviceExternal
    split_ifs with hqi hp
    · exact .refl m
    · exact .refl m
    · cases a.chain.head? with
      | none => exact .refl m
      | some hdr =>
        cases hl : a.chain.getLast? with
        | none => exact .refl m
        | some last =>
          dsimp only
          split_ifs with hbad
          · exact .refl m
          · cases blockRequest size qi a.chain hdr last m with
            | some r => exact ⟨⟨rfl, rfl⟩, fun _ _ => rfl⟩
            | none =>
              refine (confined_guestWrite m last.addr (List.length_singleton).le).mono fun i r hr hi => ?_
              rw [List.mem_singleton.1 hr] at hi
              have hlen : ¬ last.len < 1 := fun hc => hbad (Or.inl hc)
              have hw : last.writable = true := by
                by_contra hc
                exact hbad (Or.inr (Or.inl (by simpa using hc)))
              exact first_byte (List.mem_of_getLast? hl) hw (BitVec.le_def.1 (BitVec.not_lt.1 hlen)) hi
  | net mac inbox outbox =>
    dsimp only
    refine a.buffers ?_
    split_ifs
    · unfold serviceRx
      cases inbox with
      | nil => exact .refl m
      | cons frame rest =>
        dsimp only
        split_ifs
        · exact .refl m
        · exact ⟨scatter_rel dmaRel_sameRam _ _ _ _, fun i hi => scatter_outside _ _ _ _ i fun desc hd hw => hi _ (mem_bufferRanges hd hw)⟩
    · exact .refl m

/-! ## A pass -/

/-- The chain the next pass consumes, or leaves with the host. -/
def consumed (qi : Fin 2) (s : VirtioDev × Dma) : Option Avail :=
  if (s.1.queues qi).num = 0 then none
  else (availIdx s.2 (s.1.queues qi)).bind fun idx =>
    if (s.1.queues qi).lastAvailIdx = idx then none else nextAvail s.2 (s.1.queues qi)

/-- A pass services the chain it consumes. -/
theorem pass_eq (qi : Fin 2) (d : VirtioDev) (m : Dma) :
    pass qi d m = match consumed qi (d, m) with
      | none => .done (d, m)
      | some a =>
        match d.service qi a.chain m with
        | (none, d, m) => .done (d.notePending a, m)
        | (some written, d, m) => .next (d.advance qi, publish m a.usedEntry a.usedIndexAddr a.head a.usedIdx written) := by
  unfold pass consumed
  dsimp only
  split_ifs with hnum
  · rfl
  · cases availIdx m (d.queues qi) with
    | none => rfl
    | some idx =>
      rw [Option.bind_some]
      dsimp only
      split_ifs
      · rfl
      · rfl

theorem nextAvail_of_consumed {s : VirtioDev × Dma} {a : Avail} (h : consumed qi s = some a) :
    nextAvail s.2 (s.1.queues qi) = some a := by
  unfold consumed at h
  split_ifs at h
  obtain ⟨idx, -, h⟩ := Option.bind_eq_some_iff.1 h
  split_ifs at h
  exact h

theorem confined_publish {a : Avail} (hentry : m.InRam a.usedEntry 8) (written : U32) :
    Confined a.ranges m (publish m a.usedEntry a.usedIndexAddr a.head a.usedIdx written) :=
  ⟨publish_rel dmaRel_sameRam _ _ _ _ _ _, fun i hi =>
    publish_outside m a.head a.usedIdx written i (inRam_iff.2 hentry) (hi _ List.mem_cons_self)
      (hi _ (List.mem_cons_of_mem _ List.mem_cons_self))⟩

/-- The memory a pass leaves. -/
def passMemory : Turn (VirtioDev × Dma) (VirtioDev × Dma) → Dma
  | .next s => s.2
  | .done s => s.2

/-- **A pass** writes the ranges of the chain it consumes only. -/
theorem pass_confined (qi : Fin 2) {s : VirtioDev × Dma} (h : ∀ a, consumed qi s = some a → s.1.DiskPass a s.2) :
    Confined (((consumed qi s).map Avail.ranges).getD []) s.2 (passMemory (pass qi s.1 s.2)) := by
  rw [pass_eq]
  cases ha : consumed qi (s.1, s.2) with
  | none =>
    exact .refl _
  | some a =>
    have hc := service_confined qi (h a ha)
    have hin : s.2.InRam a.usedEntry 8 := inRam_iff.1 (nextAvail_entry (nextAvail_of_consumed ha))
    dsimp only [Option.map_some, Option.getD_some]
    rcases hs : s.1.service qi a.chain s.2 with ⟨_ | written, d', m'⟩
    · rw [hs] at hc
      exact hc
    · rw [hs] at hc
      refine hc.trans (confined_publish ?_ written)
      rw [← inRam_iff, hc.same.offset, inRam_iff]
      exact hin

/-- What a call of `process` has changed, one of its passes has, in a range of the chain it consumes. -/
theorem process_changed {fuel n i : ℕ} (hp : d.process fuel n m = some (d', m'))
    (h : ∀ q k s a, d.activeQueue n = some q → Loop.after (passBody q) k (d, m) = some s → consumed q s = some a →
      s.1.DiskPass a s.2)
    (hi : m'.ram.mem i ≠ m.ram.mem i) :
    ∃ q k s a, d.activeQueue n = some q ∧ Loop.after (passBody q) k (d, m) = some s ∧ consumed q s = some a ∧
      ∃ r ∈ a.ranges, m.Within r i := by
  unfold process at hp
  cases hq : d.activeQueue n with
  | none =>
    rw [hq] at hp
    cases hp
    exact absurd rfl hi
  | some q =>
    rw [hq] at hp
    by_contra hno
    push Not at hno
    have hpass : ∀ k s, Loop.after (passBody q) k (d, m) = some s → s.2.ram.mem i = m.ram.mem i →
        (passMemory (pass q s.1 s.2)).ram.mem i = m.ram.mem i := by
      intro k s hs hmem
      have hc := pass_confined q fun a => h q k s a hq hs
      rw [hc.outside i, hmem]
      intro r hr hw
      cases ha : consumed q s with
      | none =>
        rw [ha] at hr
        exact absurd hr List.not_mem_nil
      | some a =>
        rw [ha] at hr
        exact hno q k s a rfl hs ha r hr (((after_passes hs).2.within r i).1 hw)
    have hall : ∀ k s, Loop.after (passBody q) k (d, m) = some s → s.2.ram.mem i = m.ram.mem i := by
      intro k
      induction k with
      | zero => exact fun s hs => Option.some.inj hs ▸ rfl
      | succ k ih =>
        intro s hs
        obtain ⟨t, ht⟩ := Loop.after_of_succ hs
        have hm := hpass k t ht (ih t ht)
        rw [Loop.after_succ ht, passBody] at hs
        cases hn : pass q t.1 t.2 with
        | done r => rw [hn] at hs; cases hs
        | next u =>
          rw [hn] at hs hm
          exact Option.some.inj hs ▸ hm
    dsimp only at hp
    obtain ⟨k, -, s, hs, hd⟩ := Loop.run_last hp
    have hm := hpass k s hs (hall k s hs)
    rw [show pass q s.1 s.2 = .done (d', m') from Option.some.inj hd] at hm
    exact hi hm

end VirtioDev
end Lish
