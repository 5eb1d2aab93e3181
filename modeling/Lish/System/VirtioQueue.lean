import Lish.System.DmaMemory
/-!
# VirtioQueue — what a pass over a queue does

A pass services one chain or ends the loop.  Servicing leaves the queues and writes only what the chain's descriptors name.
-/
namespace Lish
namespace VirtioDev

open Dma

variable {d d' : VirtioDev} {m m' : Dma} {qi : Fin 2}

/-! ## Servicing -/

section rel

variable {R : Dma → Dma → Prop}

theorem blockLoop_rel (h : DmaRel R) (reqType : U32) (body : List Descriptor) (l : BlockLoop) :
    R l.dma (body.foldl (BlockLoop.step reqType) l).dma := by
  have hstep : ∀ (l : BlockLoop) desc, R l.dma (l.step reqType desc).dma := fun l desc => by
    unfold BlockLoop.step
    dsimp only
    split_ifs
    · cases l.diskRange desc.len.toNat with
      | none => exact h.refl _
      | some start => exact h.write _ _ _
    · split <;> exact h.refl _
    · exact h.refl _
  induction body generalizing l with
  | nil => exact h.refl _
  | cons desc body ih => exact h.trans _ _ _ (hstep l desc) (ih _)

theorem serviceBlock_rel (h : DmaRel R) (disk : List U8) (chain : List Descriptor) (m : Dma) :
    R m (serviceBlock disk chain m).2.2 := by
  unfold serviceBlock
  cases chain.head? with
  | none => exact h.refl _
  | some hdr =>
    cases chain.getLast? with
    | none => exact h.refl _
    | some last =>
      dsimp only
      cases m.guestSlice hdr.addr 16 with
      | none => exact h.refl _
      | some header =>
        dsimp only
        by_cases hshort : chain.length < 2
        · rw [if_pos hshort]
          exact h.refl _
        · rw [if_neg hshort]
          refine h.trans _ _ _ ?_ (h.write _ _ _)
          exact blockLoop_rel h _ _ ⟨disk, _, 0, true, m⟩

theorem serviceExternal_rel (h : DmaRel R) (size : U64) (pending : Option PendingBlockRequest) (qi : Fin 2)
    (chain : List Descriptor) (m : Dma) : R m (serviceExternal size pending qi chain m).2.2 := by
  unfold serviceExternal
  split_ifs
  · exact h.refl _
  · exact h.refl _
  · cases chain.head? with
    | none => exact h.refl _
    | some hdr =>
      cases chain.getLast? with
      | none => exact h.refl _
      | some last =>
        dsimp only
        split_ifs
        · exact h.refl _
        · cases blockRequest size qi chain hdr last m with
          | none => exact h.write _ _ _
          | some r => exact h.ticket _

theorem scatter_rel (h : DmaRel R) (src : List U8) (chain : List Descriptor) (written : ℕ) (m : Dma) :
    R m (scatter src chain written m).2 := by
  induction chain generalizing written m with
  | nil => exact h.refl _
  | cons desc rest ih =>
    rw [scatter]
    dsimp only
    split_ifs
    · exact ih _ _
    · have hw := h.write m desc.addr ((src.drop written).take (min (src.length - written) desc.len.toNat))
      cases hr : m.guestWrite desc.addr ((src.drop written).take (min (src.length - written) desc.len.toNat)) with
      | mk done m' =>
        rw [hr] at hw
        cases done with
        | false => exact hw
        | true => exact h.trans _ _ _ hw (ih _ _)

theorem serviceRx_rel (h : DmaRel R) (inbox : List (List U8)) (chain : List Descriptor) (m : Dma) :
    R m (serviceRx inbox chain m).2.2 := by
  unfold serviceRx
  cases inbox with
  | nil => exact h.refl _
  | cons frame rest =>
    dsimp only
    split_ifs
    · exact h.refl _
    · exact scatter_rel h _ _ _ _

/-- **Servicing** a chain leaves the queues, and guest memory as its writes do. -/
theorem service_rel (h : DmaRel R) (d : VirtioDev) (qi : Fin 2) (chain : List Descriptor) (m : Dma) :
    (d.service qi chain m).2.1.queues = d.queues ∧ R m (d.service qi chain m).2.2 := by
  unfold service
  cases d.backend with
  | block disk => exact ⟨rfl, serviceBlock_rel h disk chain m⟩
  | externalBlock size pending => exact ⟨rfl, serviceExternal_rel h size pending qi chain m⟩
  | net mac inbox outbox =>
    dsimp only
    split_ifs
    · exact ⟨rfl, serviceRx_rel h inbox chain m⟩
    · exact ⟨rfl, h.refl m⟩

theorem publish_rel (h : DmaRel R) (m : Dma) (usedEntry usedIndexAddr : U64) (head usedIdx : U16) (written : U32) :
    R m (publish m usedEntry usedIndexAddr head usedIdx written) :=
  h.trans _ _ _ (h.trans _ _ _ (h.write _ _ _) (h.write _ _ _)) (h.write _ _ _)

theorem pass_rel (h : DmaRel R) (qi : Fin 2) (d : VirtioDev) (m : Dma) :
    match pass qi d m with
    | .done s => R m s.2
    | .next s => R m s.2 := by
  unfold pass
  dsimp only
  split_ifs
  · exact h.refl m
  · cases availIdx m (d.queues qi) with
    | none => exact h.refl m
    | some idx =>
      dsimp only
      split_ifs
      · exact h.refl m
      · cases nextAvail m (d.queues qi) with
        | none => exact h.refl m
        | some a =>
          have hs := (service_rel h d qi a.chain m).2
          dsimp only
          rcases hr : d.service qi a.chain m with ⟨_ | written, d', m'⟩
          · rw [hr] at hs
            exact hs
          · rw [hr] at hs
            exact h.trans _ _ _ hs (publish_rel h _ _ _ _ _ _)

/-- **Processing a queue** leaves guest memory as its writes do. -/
theorem process_rel (h : DmaRel R) {fuel : ℕ} {d d' : VirtioDev} {qi : ℕ} {m m' : Dma} (hp : d.process fuel qi m = some (d', m')) :
    R m m' := by
  unfold process at hp
  cases hq : d.activeQueue qi with
  | none =>
    rw [hq] at hp
    cases hp
    exact h.refl m
  | some qi =>
    rw [hq] at hp
    have hnext : ∀ s t, R m s.2 → passBody qi s = some (.next t) → R m t.2 := fun s t hs ht => by
      have hpass := pass_rel h qi s.1 s.2
      rw [Option.some.inj ht] at hpass
      exact h.trans _ _ _ hs hpass
    have hlast : ∀ s r, R m s.2 → passBody qi s = some (.done r) → R m r.2 := fun s r hs ht => by
      have hpass := pass_rel h qi s.1 s.2
      rw [Option.some.inj ht] at hpass
      exact h.trans _ _ _ hs hpass
    exact Loop.run_invariant (J := fun s => R m s.2) (Q := fun r => R m r.2) hnext hlast (h.refl m) hp

theorem copyBuffers_rel (h : DmaRel R) (buffers : List (U64 × U32)) (data : List U8) (m : Dma) :
    R m (copyBuffers buffers data m).2 := by
  induction buffers generalizing data m with
  | nil => exact h.refl m
  | cons b rest ih => exact h.trans _ _ _ (h.write m b.1 (data.take b.2.toNat)) (ih _ _)

/-- **A completion** leaves guest memory as its writes do. -/
theorem completeBlockRequest_rel (h : DmaRel R) (d : VirtioDev) (id : U64) (data : List U8) (ok : Bool) (m : Dma) :
    R m (d.completeBlockRequest id data ok m).2.2 := by
  have hcommit : ∀ r, R m (commitCompletion r data ok m) := fun r => by
    unfold commitCompletion
    dsimp only
    refine h.trans _ _ _ ?_ (publish_rel h _ _ _ _ _ _)
    refine h.trans _ _ _ ?_ (h.write _ _ _)
    split_ifs
    · exact copyBuffers_rel h _ _ _
    · exact h.refl m
  unfold completeBlockRequest
  split
  · split_ifs
    · exact h.refl m
    · exact h.refl m
    · exact hcommit _
  · exact h.refl m

end rel

/-- **Servicing** a chain leaves the queues and the extent of RAM. -/
theorem service_keeps (d : VirtioDev) (qi : Fin 2) (chain : List Descriptor) (m : Dma) :
    (d.service qi chain m).2.1.queues = d.queues ∧ SameRam m (d.service qi chain m).2.2 :=
  service_rel dmaRel_sameRam d qi chain m

/-! ## A pass -/

/-- What a pass that goes on has done. -/
structure Serviced (qi : Fin 2) (d : VirtioDev) (m : Dma) (d' : VirtioDev) (m' : Dma) : Prop where
  num : (d.queues qi).num ≠ 0
  waiting : ∃ idx, availIdx m (d.queues qi) = some idx ∧ (d.queues qi).lastAvailIdx ≠ idx
  step : ∃ a written d₁ m₁, nextAvail m (d.queues qi) = some a ∧ d.service qi a.chain m = (some written, d₁, m₁) ∧
    d' = d₁.advance qi ∧ m' = publish m₁ a.usedEntry a.usedIndexAddr a.head a.usedIdx written

theorem pass_next (h : pass qi d m = .next (d', m')) : Serviced qi d m d' m' := by
  unfold pass at h
  dsimp only at h
  split_ifs at h with hnum
  cases hi : availIdx m (d.queues qi) with
  | none => rw [hi] at h; cases h
  | some idx =>
    rw [hi] at h
    dsimp only at h
    split_ifs at h with hne
    cases ha : nextAvail m (d.queues qi) with
    | none => rw [ha] at h; cases h
    | some a =>
      rw [ha] at h
      dsimp only at h
      rcases hs : d.service qi a.chain m with ⟨_ | written, d₁, m₁⟩
      · rw [hs] at h; cases h
      · rw [hs] at h
        cases h
        exact ⟨hnum, ⟨idx, hi, hne⟩, a, written, d₁, m₁, ha, hs, rfl, rfl⟩

theorem Serviced.queues (h : Serviced qi d m d' m') :
    d'.queues qi = { d.queues qi with lastAvailIdx := (d.queues qi).lastAvailIdx + 1 } := by
  obtain ⟨a, written, d₁, m₁, -, hs, rfl, -⟩ := h.step
  have hk := (service_keeps d qi a.chain m).1
  rw [hs] at hk
  unfold advance setQueue
  dsimp only at hk ⊢
  rw [if_pos rfl, hk]

theorem Serviced.sameRam (h : Serviced qi d m d' m') : SameRam m m' := by
  obtain ⟨a, written, d₁, m₁, -, hs, -, rfl⟩ := h.step
  have hk := (service_keeps d qi a.chain m).2
  rw [hs] at hk
  exact hk.trans (publish_rel dmaRel_sameRam _ _ _ _ _ _)

/-- After so many passes the queue has consumed as many chains. -/
theorem after_passes {n : ℕ} {s : VirtioDev × Dma} (h : Loop.after (passBody qi) n (d, m) = some s) :
    s.1.queues qi = { d.queues qi with lastAvailIdx := (d.queues qi).lastAvailIdx + BitVec.ofNat 16 n } ∧ SameRam m s.2 := by
  induction n generalizing d m with
  | zero =>
    obtain rfl : (d, m) = s := Option.some.inj h
    refine ⟨?_, .refl m⟩
    rw [show BitVec.ofNat 16 0 = 0#16 from rfl, BitVec.add_zero]
  | succ n ih =>
    cases hp : pass qi d m with
    | done r =>
      rw [Loop.after, passBody, hp] at h
      cases h
    | next t =>
      obtain ⟨d₁, m₁⟩ := t
      have hs := pass_next hp
      rw [Loop.after_next (show passBody qi (d, m) = some (.next (d₁, m₁)) from congrArg some hp)] at h
      obtain ⟨hq, hram⟩ := ih h
      refine ⟨?_, hs.sameRam.trans hram⟩
      rw [hq, hs.queues, BitVec.ofNat_add]
      dsimp only
      rw [add_assoc, add_comm (1 : U16) (BitVec.ofNat 16 n)]
      rfl

/-! ## What a pass writes -/

/-- The ranges that servicing a chain may write: what its descriptors let the device write, and the status byte. -/
def serviceRanges (d : VirtioDev) (qi : Fin 2) (chain : List Descriptor) : List (U64 × ℕ) :=
  let buffers := fun chain : List Descriptor => (chain.filter (·.writable)).map fun desc => (desc.addr, desc.len.toNat)
  let status := (chain.getLast?.map fun desc => (desc.addr, 1)).toList
  match d.backend with
  | .block _ => buffers chain.tail.dropLast ++ status
  | .externalBlock _ _ => if qi = 0 then status else []
  | .net _ _ _ => if qi = 0 then buffers chain else []

/-- The ranges the next pass may write. -/
def writeRanges (d : VirtioDev) (qi : Fin 2) (m : Dma) : List (U64 × ℕ) :=
  match nextAvail m (d.queues qi) with
  | none => []
  | some a => d.serviceRanges qi a.chain ++ [(a.usedEntry, 8), (a.usedIndexAddr, 2)]

theorem blockStep_outside (reqType : U32) (l : BlockLoop) (desc : Descriptor) (i : ℕ)
    (h : desc.writable → ¬ l.dma.Within (desc.addr, desc.len.toNat) i) : (l.step reqType desc).dma.ram.mem i = l.dma.ram.mem i := by
  unfold BlockLoop.step
  dsimp only
  by_cases hin : reqType = VIRTIO_BLK_T_IN ∧ desc.writable
  · rw [if_pos hin]
    cases hr : l.diskRange desc.len.toNat with
    | none => rfl
    | some start => exact guestWrite_outside i (by rw [List.length_take]; exact Nat.min_le_left _ _) (h hin.2)
  · rw [if_neg hin]
    split_ifs
    · split <;> rfl
    · rfl

theorem blockStep_sameRam (reqType : U32) (l : BlockLoop) (desc : Descriptor) : SameRam l.dma (l.step reqType desc).dma :=
  blockLoop_rel dmaRel_sameRam reqType [desc] l

theorem blockLoop_outside (reqType : U32) (body : List Descriptor) (l : BlockLoop) (i : ℕ)
    (h : ∀ desc ∈ body, desc.writable → ¬ l.dma.Within (desc.addr, desc.len.toNat) i) :
    (body.foldl (BlockLoop.step reqType) l).dma.ram.mem i = l.dma.ram.mem i := by
  induction body generalizing l with
  | nil => rfl
  | cons desc body ih =>
    rw [List.foldl_cons, ih, blockStep_outside reqType l desc i (h desc List.mem_cons_self)]
    intro desc' hd hw
    rw [(blockStep_sameRam reqType l desc).within]
    exact h desc' (List.mem_cons_of_mem _ hd) hw

theorem scatter_outside (src : List U8) (chain : List Descriptor) (written : ℕ) (m : Dma) (i : ℕ)
    (h : ∀ desc ∈ chain, desc.writable → ¬ m.Within (desc.addr, desc.len.toNat) i) :
    (scatter src chain written m).2.ram.mem i = m.ram.mem i := by
  induction chain generalizing written m with
  | nil => rfl
  | cons desc rest ih =>
    have hrest : ∀ desc ∈ rest, desc.writable → ¬ m.Within (desc.addr, desc.len.toNat) i :=
      fun desc hd => h desc (List.mem_cons_of_mem _ hd)
    rw [scatter]
    dsimp only
    split_ifs with hskip
    · exact ih _ _ hrest
    · have hw : desc.writable := by
        by_contra hc
        exact hskip (Or.inl (by simpa using hc))
      have hram := guestWrite_sameRam m desc.addr ((src.drop written).take (min (src.length - written) desc.len.toNat))
      have hlen : ((src.drop written).take (min (src.length - written) desc.len.toNat)).length ≤ desc.len.toNat := by
        rw [List.length_take]
        omega
      have hmem := guestWrite_outside i hlen (h desc List.mem_cons_self hw)
      cases hr : m.guestWrite desc.addr ((src.drop written).take (min (src.length - written) desc.len.toNat)) with
      | mk done m' =>
        rw [hr] at hram hmem
        cases done with
        | false => exact hmem
        | true =>
          refine (ih _ _ fun desc' hd hw' => ?_).trans hmem
          rw [hram.within]
          exact hrest desc' hd hw'

/-- **Servicing** a chain writes only what its descriptors name. -/
theorem service_outside (d : VirtioDev) (qi : Fin 2) (chain : List Descriptor) (m : Dma) (i : ℕ)
    (h : ∀ range ∈ d.serviceRanges qi chain, ¬ m.Within range i) : (d.service qi chain m).2.2.ram.mem i = m.ram.mem i := by
  unfold serviceRanges at h
  unfold service
  cases hb : d.backend with
  | block disk =>
    rw [hb] at h
    dsimp only at h ⊢
    unfold serviceBlock
    cases chain.head? with
    | none => rfl
    | some hdr =>
      cases hl : chain.getLast? with
      | none => rfl
      | some last =>
        rw [hl] at h
        dsimp only
        cases m.guestSlice hdr.addr 16 with
        | none => rfl
        | some header =>
          dsimp only
          by_cases hshort : chain.length < 2
          · rw [if_pos hshort]
          · rw [if_neg hshort]
            have hbody : ∀ desc ∈ chain.tail.dropLast, desc.writable → ¬ m.Within (desc.addr, desc.len.toNat) i := by
              intro desc hd hw
              exact h _ (List.mem_append_left _ (List.mem_map.2 ⟨desc, List.mem_filter.2 ⟨hd, hw⟩, rfl⟩))
            rw [guestWrite_outside (n := 1) i (List.length_singleton).le, blockLoop_outside _ _ _ i hbody]
            rw [(blockLoop_rel dmaRel_sameRam _ _ _).within]
            exact h _ (List.mem_append_right _ (by simp))
  | externalBlock size pending =>
    rw [hb] at h
    dsimp only at h ⊢
    unfold serviceExternal
    split_ifs with hqi hp
    · rfl
    · rfl
    · rw [if_pos (not_not.1 hqi)] at h
      cases chain.head? with
      | none => rfl
      | some hdr =>
        cases hl : chain.getLast? with
        | none => rfl
        | some last =>
          rw [hl] at h
          dsimp only
          split_ifs
          · rfl
          · cases blockRequest size qi chain hdr last m with
            | none => exact guestWrite_outside (n := 1) i (List.length_singleton).le (h _ (by simp))
            | some r => rfl
  | net mac inbox outbox =>
    rw [hb] at h
    dsimp only at h ⊢
    split_ifs with hqi
    · rw [if_pos hqi] at h
      unfold serviceRx
      cases inbox with
      | nil => rfl
      | cons frame rest =>
        dsimp only
        split_ifs
        · rfl
        · exact scatter_outside _ _ _ _ i fun desc hd hw => h _ (List.mem_map.2 ⟨desc, List.mem_filter.2 ⟨hd, hw⟩, rfl⟩)
    · rfl

theorem checkedAdd_some {a b c : U64} (h : checkedAdd a b = some c) : c = a + b := by
  unfold checkedAdd at h
  split_ifs at h
  exact (Option.some.inj h).symm

theorem publish_outside (m : Dma) {usedEntry usedIndexAddr : U64} (head usedIdx : U16) (written : U32) (i : ℕ)
    (hentry : (m.ram.offset usedEntry 8).isSome) (h8 : ¬ m.Within (usedEntry, 8) i) (h2 : ¬ m.Within (usedIndexAddr, 2) i) :
    (publish m usedEntry usedIndexAddr head usedIdx written).ram.mem i = m.ram.mem i := by
  obtain ⟨off, hoff⟩ := Option.isSome_iff_exists.1 hentry
  obtain ⟨hle, hval, hlen⟩ := FlatMemory.offset_some hoff
  rw [BitVec.toNat_sub_of_le hle] at hval
  have hle' := BitVec.le_def.1 hle
  have hfits := m.ram.fits
  have hadd : (usedEntry + 4).toNat = usedEntry.toNat + 4 := by
    rw [BitVec.toNat_add, show (4 : U64).toNat = 4 from rfl, Nat.mod_eq_of_lt (by omega)]
  unfold publish
  rw [write16_outside, write32_outside, write32_outside]
  · exact fun h => h8 ⟨h.1, by have := h.2; dsimp only at this ⊢; omega⟩
  · rw [(write32_sameRam _ _ _).within]
    intro h
    exact h8 ⟨by have := h.1; dsimp only at this ⊢; omega, by have := h.2; dsimp only at this ⊢; omega⟩
  · rw [((write32_sameRam _ _ _).trans (write32_sameRam _ _ _)).within]
    exact h2

/-- Where the used entry of the next chain goes. -/
theorem nextAvail_used {q : Queue} {a : Avail} (h : nextAvail m q = some a) :
    a.usedIndexAddr = q.used + 2 ∧ m.read16 a.usedIndexAddr = some a.usedIdx ∧
      checkedAdd q.used (4 + a.usedIdx.setWidth 64 % q.num.setWidth 64 * 8) = some a.usedEntry ∧
      (m.ram.offset a.usedEntry 8).isSome := by
  unfold nextAvail at h
  simp only [Option.bind_eq_bind, Option.bind_eq_some_iff, Option.some.injEq] at h
  obtain ⟨addr, -, head, -, chain, -, usedIndexAddr, haddr, usedIdx, hidx, usedEntry, hentry, off, hoff, rfl⟩ := h
  exact ⟨checkedAdd_some haddr, hidx, hentry, Option.isSome_iff_exists.2 ⟨off, hoff⟩⟩

theorem nextAvail_entry {q : Queue} {a : Avail} (h : nextAvail m q = some a) : (m.ram.offset a.usedEntry 8).isSome :=
  (nextAvail_used h).2.2.2

theorem checkedAdd_toNat {a b c : U64} (h : checkedAdd a b = some c) : c.toNat = a.toNat + b.toNat := by
  have hlt : a.toNat + b.toNat < 2 ^ 64 := by
    unfold checkedAdd at h
    split_ifs at h with hlt
    exact hlt
  rw [checkedAdd_some h, BitVec.toNat_add, Nat.mod_eq_of_lt hlt]

/-- The used entries of a ring lie beyond its index. -/
theorem nextAvail_apart {q : Queue} {a : Avail} (h : nextAvail m q = some a) :
    a.usedIndexAddr.toNat + 2 ≤ a.usedEntry.toNat := by
  have hidx : checkedAdd q.used 2 = some a.usedIndexAddr := by
    unfold nextAvail at h
    simp only [Option.bind_eq_bind, Option.bind_eq_some_iff, Option.some.injEq] at h
    obtain ⟨addr, -, head, -, chain, -, usedIndexAddr, haddr, usedIdx, -, usedEntry, -, off, -, rfl⟩ := h
    exact haddr
  have h1 := checkedAdd_toNat hidx
  have h2 := checkedAdd_toNat (nextAvail_used h).2.2.1
  have hslot : (a.usedIdx.setWidth 64 % q.num.setWidth 64).toNat < 2 ^ 32 := by
    rw [BitVec.toNat_umod, BitVec.toNat_setWidth]
    have := Nat.mod_le (a.usedIdx.toNat % 2 ^ 64) (q.num.setWidth 64).toNat
    have := a.usedIdx.isLt
    omega
  rw [show (2 : U64).toNat = 2 from rfl] at h1
  rw [BitVec.toNat_add, BitVec.toNat_mul, show (4 : U64).toNat = 4 from rfl, show (8 : U64).toNat = 8 from rfl] at h2
  omega

theorem publish_idx (m : Dma) (usedEntry usedIndexAddr : U64) (head usedIdx : U16) (written : U32)
    (h : (m.ram.offset usedIndexAddr 2).isSome) :
    (publish m usedEntry usedIndexAddr head usedIdx written).read16 usedIndexAddr = some (usedIdx + 1) := by
  unfold publish
  rw [read16_write16]
  rwa [((write32_sameRam _ _ _).trans (write32_sameRam _ _ _)).offset]

theorem publish_head (m : Dma) {usedEntry usedIndexAddr : U64} (head usedIdx : U16) (written : U32)
    (h : (m.ram.offset usedEntry 8).isSome) (hap : usedIndexAddr.toNat + 2 ≤ usedEntry.toNat) :
    (publish m usedEntry usedIndexAddr head usedIdx written).read32 usedEntry = some (head.setWidth 32) := by
  obtain ⟨off, hoff⟩ := Option.isSome_iff_exists.1 h
  obtain ⟨hle, hval, hlen⟩ := FlatMemory.offset_some hoff
  have h4 : m.ram.offset usedEntry 4 = some off := by
    have hlt := m.ram.len_lt
    unfold FlatMemory.offset
    dsimp only
    rw [if_neg (BitVec.not_lt.2 hle), if_pos ⟨by omega, by omega⟩, hval]
  rw [BitVec.toNat_sub_of_le hle] at hval
  have hle' := BitVec.le_def.1 hle
  have hfits := m.ram.fits
  have hadd : (usedEntry + 4).toNat = usedEntry.toNat + 4 := by
    rw [BitVec.toNat_add, show (4 : U64).toNat = 4 from rfl, Nat.mod_eq_of_lt (by omega)]
  have hw := read32_write32 (d := m) (head.setWidth 32) (Option.isSome_iff_exists.2 ⟨off, h4⟩)
  unfold publish
  rw [← hw]
  apply read32_congr (((write32_sameRam _ _ _).trans (write16_sameRam _ _ _)))
  intro i hi
  obtain ⟨h1, h2⟩ := hi.within
  dsimp only at h1 h2
  rw [write16_outside, write32_outside]
  · intro hc
    have := hc.1
    dsimp only at this
    omega
  · intro hc
    rw [(write32_sameRam _ _ _).within] at hc
    have := hc.2
    dsimp only at this
    omega

/-- **A pass** writes only its ranges. -/
theorem Serviced.outside (h : Serviced qi d m d' m') (i : ℕ) (hi : ∀ range ∈ d.writeRanges qi m, ¬ m.Within range i) :
    m'.ram.mem i = m.ram.mem i := by
  obtain ⟨a, written, d₁, m₁, ha, hs, -, rfl⟩ := h.step
  unfold writeRanges at hi
  rw [ha] at hi
  dsimp only at hi
  have hram := (service_keeps d qi a.chain m).2
  have hmem := service_outside d qi a.chain m i fun range hr => hi range (List.mem_append_left _ hr)
  rw [hs] at hram hmem
  rw [publish_outside, hmem]
  · rw [hram.offset]
    exact nextAvail_entry ha
  · rw [hram.within]
    exact hi _ (List.mem_append_right _ List.mem_cons_self)
  · rw [hram.within]
    exact hi _ (List.mem_append_right _ (List.mem_cons_of_mem _ List.mem_cons_self))

end VirtioDev
end Lish
