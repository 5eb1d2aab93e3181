import Lish.Prog.Stores
import Lish.System.DmaRuns
/-!
# BlockCommit — the completion of a disk request is one commit

The destinations of a completion are checked before the first store, and it stores all of them: the data, the status byte, the used
entry and the used index.  Where they overlap the later store stands.
-/
namespace Lish

/-- The addresses of a list of buffers, in order. -/
def bufferBytes (buffers : List (U64 × U32)) : List ℕ := buffers.flatMap fun b => List.range' b.1.toNat b.2.toNat

theorem bufferBytes_cons (b : U64 × U32) (buffers : List (U64 × U32)) :
    bufferBytes (b :: buffers) = List.range' b.1.toNat b.2.toNat ++ bufferBytes buffers := rfl

namespace Dma

variable {m : Dma} {addr : U64}

theorem guestWrite_stored {bytes : List U8} (h : m.InRam addr bytes.length) (i : ℕ) : (m.guestWrite addr bytes).2.ram.mem i =
    (lastStored ((List.range' addr.toNat bytes.length).zip bytes) (m.ram.base.toNat + i)).getD (m.ram.mem i) := by
  obtain ⟨off, hoff⟩ := Option.isSome_iff_exists.1 (inRam_iff.2 h)
  obtain ⟨hle, hval, -⟩ := FlatMemory.offset_some hoff
  rw [BitVec.toNat_sub_of_le hle] at hval
  have hle' := BitVec.le_def.1 hle
  rw [guestWrite_mem hoff, lastStored_range']
  by_cases hi : off ≤ i ∧ i < off + bytes.length
  · rw [if_pos hi, if_pos (by omega), List.getD_eq_getElem?_getD, show m.ram.base.toNat + i - addr.toNat = i - off by omega,
      List.getElem?_eq_getElem (by omega)]
    rfl
  · rw [if_neg hi, if_neg (by omega), Option.getD_none]

/-- The first bytes of some data, stored in a buffer. -/
theorem guestWrite_take {data : List U8} {n : ℕ} (h : m.InRam addr (data.take n).length) (i : ℕ) :
    (m.guestWrite addr (data.take n)).2.ram.mem i =
      (lastStored ((List.range' addr.toNat n).zip data) (m.ram.base.toNat + i)).getD (m.ram.mem i) := by
  rw [guestWrite_stored h, lastStored_range', lastStored_range', List.length_take]
  congr 1
  by_cases hx : addr.toNat ≤ m.ram.base.toNat + i ∧ m.ram.base.toNat + i < addr.toNat + n
  · rw [if_pos hx]
    split_ifs with hmin
    · rw [List.getElem?_take, if_pos (by omega)]
    · rw [List.getElem?_eq_none (by omega)]
  · rw [if_neg hx, if_neg (by omega)]

end Dma

namespace VirtioDev

open Dma

variable {d d' : VirtioDev} {m m' : Dma} {size : U64} {l : Ledger} {r : PendingBlockRequest} {data : List U8} {ok : Bool}

/-! ## The buffers of a read -/

/-- **The data fills the buffers** in order. -/
theorem copyBuffers_stored (buffers : List (U64 × U32)) (data : List U8) (m : Dma) (hin : ∀ b ∈ buffers, m.InRam b.1 b.2.toNat)
    (hlen : (buffers.map (·.2.toNat)).sum = data.length) : (copyBuffers buffers data m).1 = true ∧
      ∀ i, (copyBuffers buffers data m).2.ram.mem i =
        (lastStored ((bufferBytes buffers).zip data) (m.ram.base.toNat + i)).getD (m.ram.mem i) := by
  induction buffers generalizing data m with
  | nil => exact ⟨rfl, fun _ => rfl⟩
  | cons b buffers ih =>
    rw [List.map_cons, List.sum_cons] at hlen
    have htake : (data.take b.2.toNat).length = b.2.toNat := by rw [List.length_take, Nat.min_eq_left (by omega)]
    have hb : m.InRam b.1 (data.take b.2.toNat).length := by
      rw [htake]
      exact hin b List.mem_cons_self
    have hsame := guestWrite_sameRam m b.1 (data.take b.2.toNat)
    obtain ⟨hok, hmem⟩ := ih (data.drop b.2.toNat) (m.guestWrite b.1 (data.take b.2.toNat)).2
      (fun b' hb' => by rw [← inRam_iff, hsame.offset, inRam_iff]; exact hin b' (List.mem_cons_of_mem _ hb'))
      (by rw [List.length_drop]; omega)
    refine ⟨?_, fun i => ?_⟩
    · change ((m.guestWrite b.1 (data.take b.2.toNat)).1 &&
        (copyBuffers buffers (data.drop b.2.toNat) (m.guestWrite b.1 (data.take b.2.toNat)).2).1) = true
      rw [hok, guestWrite_fst, inRam_iff.2 hb]
      rfl
    · change (copyBuffers buffers (data.drop b.2.toNat) (m.guestWrite b.1 (data.take b.2.toNat)).2).2.ram.mem i = _
      rw [hmem, hsame.1, guestWrite_take hb, bufferBytes_cons, zip_append_drop, List.length_range', lastStored_append_getD]

/-! ## The used entry -/

theorem publish_written (m : Dma) {usedEntry usedIndexAddr : U64} (head usedIdx : U16) (written : U32)
    (h : (m.ram.offset usedEntry 8).isSome) (hap : usedIndexAddr.toNat + 2 ≤ usedEntry.toNat) :
    (publish m usedEntry usedIndexAddr head usedIdx written).read32 (usedEntry + 4) = some written := by
  have hin := inRam_iff.1 h
  have hadd := entry_length hin
  have h4 : m.InRam (usedEntry + 4) 4 := by
    unfold Dma.InRam at hin ⊢
    omega
  have hw := read32_write32 (d := m.write32 usedEntry (head.setWidth 32)) written
    (by rw [(write32_sameRam _ _ _).offset]; exact inRam_iff.2 h4)
  unfold publish
  rw [← hw]
  refine read32_congr (write16_sameRam _ _ _) fun i hi => write16_outside _ i fun h2 => ?_
  have h1 := hi.within.1
  have h2 := h2.2
  dsimp only at h1 h2
  omega

/-! ## The request with the host -/

/-- What `pass` does, `ledgerPass` does. -/
theorem ledgerPass_turn {qi : Fin 2} {t : Turn ((VirtioDev × Dma) × Ledger) ((VirtioDev × Dma) × Ledger)}
    (h : ledgerPass qi ((d, m), l) = some t) : pass qi d m = t.map (·.1) (·.1) := by
  unfold ledgerPass at h
  dsimp only at h
  cases hp : pass qi d m with
  | next s => cases ha : nextAvail m (d.queues qi) <;> rw [hp, ha] at h <;> cases h <;> rfl
  | done s => cases ha : nextAvail m (d.queues qi) <;> rw [hp, ha] at h <;> cases h <;> rfl

/-- The request with the host was taken from a chain that lets it write what it writes. -/
def Carried (d : VirtioDev) : Prop := ∀ r, d.pendingBlockRequest = some r → ∃ a, Carries a r

theorem carried_of_none (h : d.pendingBlockRequest = none) : Carried d := fun r hr => by
  rw [h] at hr
  cases hr

theorem carried_process {fuel n : ℕ} {l' : Ledger} (h : Carried d) (hp : ledgerProcess fuel d n m l = some ((d', m'), l')) :
    Carried d' := by
  unfold ledgerProcess at hp
  cases hq : d.activeQueue n with
  | none =>
    rw [hq] at hp
    cases hp
    exact h
  | some qi =>
    rw [hq] at hp
    refine Loop.run_invariant (J := fun s => s.1.1.pendingBlockRequest = none) (Q := fun s => Carried s.1.1)
      (fun s t hs hb => ?_) (fun s t hs hb => ?_) (activeQueue_pending hq) hp
    · exact (pass_request hs).1 _ _ (ledgerPass_turn hb)
    · intro r hr
      obtain ⟨a, -, hc⟩ := (pass_request hs).2 _ _ r (ledgerPass_turn hb) hr
      exact ⟨a, hc⟩

theorem carried_of_reaches (h : Reaches size d m l) : Carried d := by
  induction h with
  | new m => exact carried_of_none rfl
  | memory _ _ ih => exact ih
  | @write d m l h offset val ih =>
    by_cases hreset : offset.toNat = 0x070 ∧ val = 0
    · obtain ⟨pending, hb⟩ := (settled_of_reaches h).backend
      rw [write_reset d offset val hreset]
      refine carried_of_none ?_
      unfold pendingBlockRequest reset
      dsimp only
      rw [hb]
      rfl
    · intro r hr
      refine ih r ?_
      unfold pendingBlockRequest at hr ⊢
      rwa [(write_keeps d offset val hreset).1] at hr
  | process _ fuel qi hp ih => exact carried_process ih hp
  | pass _ qi hnone hp _ => exact carried_of_none ((pass_request hnone).1 _ _ (ledgerPass_turn hp))
  | complete h id data ok hc ih =>
    rcases complete_cases (settled_of_reaches h) hc with ⟨-, rfl, -⟩ | ⟨r, -, -, -, rfl, -⟩
    · exact ih
    · exact carried_of_none rfl

/-! ## A completion -/

/-- The host's answer fulfils a request: the operation has succeeded, with as much data as the request asks for. -/
def Fulfils (r : PendingBlockRequest) (data : List U8) (ok : Bool) : Prop :=
  ok = true ∧ data.length = if r.kind = .read then r.length.toNat else 0

instance (r : PendingBlockRequest) (data : List U8) (ok : Bool) : Decidable (Fulfils r data ok)
  := inferInstanceAs (Decidable (_ ∧ _))

/-- The used entry and the used index of a request. -/
def usedRing (r : PendingBlockRequest) : List (U64 × ℕ) := [(r.usedEntry, 8), (r.usedIndexAddr, 2)]

/-- The buffers of a read, filled if the host has answered. -/
def filled (r : PendingBlockRequest) (data : List U8) (ok : Bool) (m : Dma) : Dma :=
  if Fulfils r data ok ∧ r.kind = .read then (copyBuffers r.readBuffers data m).2 else m

/-- The destinations of a completion are in RAM. -/
theorem targets_inRam (h : completionTargetsValid r m) : (r.kind = .read → ∀ b ∈ r.readBuffers, m.InRam b.1 b.2.toNat) ∧
    m.InRam r.statusAddr 1 ∧ m.InRam r.usedEntry 8 ∧ m.InRam r.usedIndexAddr 2 := by
  unfold completionTargetsValid at h
  simp only [Bool.and_eq_true, Bool.or_eq_true] at h
  obtain ⟨⟨⟨hbuf, hstatus⟩, hentry⟩, hidx⟩ := h
  refine ⟨fun hk b hb => ?_, inRam_iff.1 hstatus, inRam_iff.1 hentry, inRam_iff.1 hidx⟩
  rcases hbuf with hne | hall
  · rw [hk] at hne
    cases hne
  · exact inRam_iff.1 (List.all_eq_true.1 hall b hb)

theorem filled_sameRam (r : PendingBlockRequest) (data : List U8) (ok : Bool) (m : Dma) : SameRam m (filled r data ok m) := by
  unfold filled
  split_ifs
  · exact copyBuffers_rel dmaRel_sameRam r.readBuffers data m
  · exact .refl m

/-- The bytes that fill the buffers of a read. -/
theorem filled_stored {a : Avail} (hc : Carries a r) (ht : completionTargetsValid r m) (h : Fulfils r data ok) (i : ℕ) :
    (filled r data ok m).ram.mem i =
      (lastStored ((bufferBytes r.readBuffers).zip data) (m.ram.base.toNat + i)).getD (m.ram.mem i) := by
  unfold filled
  by_cases hk : r.kind = .read
  · have hlen := h.2
    rw [if_pos hk] at hlen
    rw [if_pos ⟨h, hk⟩]
    exact (copyBuffers_stored r.readBuffers data m ((targets_inRam ht).1 hk) ((hc.total hk).trans hlen.symm)).2 i
  · have hlen := h.2
    rw [if_neg hk] at hlen
    rw [if_neg fun hn => hk hn.2, List.length_eq_zero_iff.1 hlen, List.zip_nil_right]
    rfl

/-- **The stores of a completion**: the data, the status, and the used entry with the index. -/
theorem commitCompletion_eq {a : Avail} (hc : Carries a r) (ht : completionTargetsValid r m) (data : List U8) (ok : Bool) :
    commitCompletion r data ok m =
      publish ((filled r data ok m).guestWrite r.statusAddr [if Fulfils r data ok then
        0 else 1]).2 r.usedEntry r.usedIndexAddr r.head
        r.usedIdx (if Fulfils r data ok then BitVec.ofNat 32 (data.length + 1) else 1) := by
  have hstatus (b : U8) : ((filled r data ok m).guestWrite r.statusAddr [b]).1 = true := by
    rw [guestWrite_fst, (filled_sameRam r data ok m).offset]
    exact inRam_iff.2 (targets_inRam ht).2.1
  have hcopied : (if decide (Fulfils r data ok) && r.kind == .read then copyBuffers r.readBuffers data m else
    (decide (Fulfils r data ok), m)) =
      (decide (Fulfils r data ok), filled r data ok m) := by
    unfold filled
    by_cases h : Fulfils r data ok ∧ r.kind = .read
    · have hlen := h.1.2
      rw [if_pos h.2] at hlen
      rw [if_pos (by rw [decide_eq_true h.1, h.2]; rfl), if_pos h, decide_eq_true h.1]
      exact Prod.ext (copyBuffers_stored r.readBuffers data m ((targets_inRam ht).1 h.2) ((hc.total h.2).trans hlen.symm)).1 rfl
    · rw [if_neg (by simpa using h), if_neg h]
  unfold commitCompletion
  dsimp only
  generalize hv : (ok && _) = valid
  have hvalid : valid = decide (Fulfils r data ok) := by
    rw [← hv, Bool.eq_iff_iff, Bool.and_eq_true, decide_eq_true_iff]
    unfold Fulfils
    refine and_congr_right fun _ => ?_
    cases r.kind with
    | read => exact decide_eq_true_iff
    | write => exact List.isEmpty_iff.trans List.length_eq_zero_iff.symm
    | flush => exact List.isEmpty_iff.trans List.length_eq_zero_iff.symm
  rw [hvalid, hcopied]
  dsimp only
  by_cases h : Fulfils r data ok
  · rw [decide_eq_true h, if_pos rfl, if_pos h, if_pos h, hstatus, Bool.and_true]
    congr 1
    have hlen := h.2
    by_cases hk : r.kind = .read
    · rw [if_pos hk] at hlen
      rw [if_pos ⟨hk, rfl⟩, hlen, BitVec.ofNat_add, BitVec.ofNat_toNat]
      rfl
    · rw [if_neg hk] at hlen
      rw [if_neg fun hn => hk hn.1, hlen]
      rfl
  · rw [decide_eq_false h, if_neg Bool.false_ne_true, if_neg h, if_neg h, Bool.false_and, if_neg fun hn => Bool.false_ne_true hn.2]

/-- A completion is one commit: what it leaves of the device and the memory. -/
structure Committed (d : VirtioDev) (r : PendingBlockRequest) (data : List U8) (ok : Bool) (m : Dma) (d' : VirtioDev) (m' : Dma)
  : Prop where
  cleared : d'.pendingBlockRequest = none
  /-- One entry of the available ring is consumed, and one published: its head, what was written, and an index one more. -/
  consumed : ∀ qi, (d'.queues qi).lastAvailIdx = if qi = r.queueIndex then (d.queues qi).lastAvailIdx + 1 else
    (d.queues qi).lastAvailIdx
  index : m'.read16 r.usedIndexAddr = some (r.usedIdx + 1)
  head : m'.read32 r.usedEntry = some (r.head.setWidth 32)
  length : ∃ written, m'.read32 (r.usedEntry + 4) = some written ∧ written.toNat = if Fulfils r data ok then data.length + 1 else 1
  /-- The status byte says if the request was done, unless the used ring has been written over it. -/
  status : ∀ i, m.Within (r.statusAddr, 1) i → (∀ range ∈ usedRing r, ¬m.Within range i) →
    m'.ram.mem i = if Fulfils r data ok then 0 else 1
  /-- The data fills the buffers of a request that was done, and no other byte changes but the status byte and the used ring. -/
  data : ∀ i, ¬m.Within (r.statusAddr, 1) i → (∀ range ∈ usedRing r, ¬m.Within range i) → m'.ram.mem i =
    if Fulfils r data ok then (lastStored ((bufferBytes r.readBuffers).zip data) (m.ram.base.toNat + i)).getD
      (m.ram.mem i) else m.ram.mem i

/-- An answer is no longer than the host takes at once. -/
theorem Fulfils.length_le {a : Avail} (hc : Carries a r) (h : Fulfils r data ok) : data.length ≤ 65536 := by
  have hmax : r.length.toNat ≤ 65536 := BitVec.le_def.1 hc.length
  rw [h.2]
  split_ifs
  · exact hmax
  · omega

/-- Outside the used ring, a completion leaves what it stored before. -/
theorem commitCompletion_outside {a : Avail} (hc : Carries a r) (ht : completionTargetsValid r m) {i : ℕ}
    (hi : ∀ range ∈ usedRing r, ¬m.Within range i) : (commitCompletion r data ok m).ram.mem i =
      ((filled r data ok m).guestWrite r.statusAddr [if Fulfils r data ok then 0 else 1]).2.ram.mem i := by
  have hsame := (filled_sameRam r data ok m).trans
    (guestWrite_sameRam (filled r data ok m) r.statusAddr [if Fulfils r data ok then 0 else 1])
  rw [commitCompletion_eq hc ht]
  refine publish_outside _ _ _ _ i ?_ ?_ ?_
  · rw [hsame.offset]
    exact inRam_iff.2 (targets_inRam ht).2.2.1
  · rw [hsame.within]
    exact hi _ List.mem_cons_self
  · rw [hsame.within]
    exact hi _ (List.mem_cons_of_mem _ List.mem_cons_self)

/-- **The request with the host is completed in one commit**, whatever its destinations. -/
theorem complete_commits (size : U64) (d : VirtioDev) (m : Dma) (l : Ledger) (h : Reaches size d m l) (r : PendingBlockRequest)
    (hr : d.pendingBlockRequest = some r) (data : List U8) (ok : Bool) :
    ∃ d' m', d.completeBlockRequest r.id data ok m = (true, d', m') ∧ Committed d r data ok m d' m' := by
  have hs := settled_of_reaches h
  obtain ⟨a, hc⟩ := carried_of_reaches h r hr
  have ht := hs.targets r hr
  obtain ⟨-, hstatus, hentry, -⟩ := targets_inRam ht
  obtain ⟨hidx, hhead⟩ := commitCompletion_used ht (hs.apart r hr)
  have hfilled := filled_sameRam r data ok m
  refine ⟨_, _, hs.complete_pending hr data ok, rfl, fun qi => ?_, hidx, hhead, ?_, fun i hi hring => ?_, fun i hi hring => ?_⟩
  · unfold advance setQueue
    dsimp only
    by_cases hq : qi = r.queueIndex
    · rw [if_pos hq, if_pos hq, hq]
    · rw [if_neg hq, if_neg hq]
  · rw [commitCompletion_eq hc ht, publish_written _ _ _ _ _ (hs.apart r hr)]
    · refine ⟨_, rfl, ?_⟩
      by_cases ha : Fulfils r data ok
      · have hle := ha.length_le hc
        rw [if_pos ha, if_pos ha, BitVec.toNat_ofNat, Nat.mod_eq_of_lt (by omega)]
      · rw [if_neg ha, if_neg ha]
        rfl
    · rw [(hfilled.trans (guestWrite_sameRam _ _ _)).offset]
      exact inRam_iff.2 hentry
  · obtain ⟨off, hoff⟩ := Option.isSome_iff_exists.1 (inRam_iff.2 hstatus)
    obtain ⟨hle, hval, -⟩ := FlatMemory.offset_some hoff
    rw [BitVec.toNat_sub_of_le hle] at hval
    have hle' := BitVec.le_def.1 hle
    obtain ⟨h1, h2⟩ := hi
    dsimp only at h1 h2
    obtain rfl : i = off := by omega
    rw [commitCompletion_outside hc ht hring, guestWrite_mem (by rw [hfilled.offset]; exact hoff),
      if_pos ⟨le_refl i, by rw [List.length_singleton]; omega⟩, Nat.sub_self, List.getD_cons_zero]
  · rw [commitCompletion_outside hc ht hring, guestWrite_outside i (List.length_singleton).le (by rw [hfilled.within]; exact hi)]
    by_cases ha : Fulfils r data ok
    · rw [if_pos ha, filled_stored hc ht ha]
    · rw [if_neg ha]
      unfold filled
      rw [if_neg fun hn => ha hn.1]

/-! ## A flush, and a status byte in the used ring -/

theorem complete_commits_flush : ∃ d m l r d' m', Reaches 0 d m l ∧ d.pendingBlockRequest = some r ∧
    d.completeBlockRequest r.id [] true m = (true, d', m') ∧ Committed d r [] true m d' m' := by
  have hset : Reaches 0 (queueDevice 0 2 RAM_BASE (RAM_BASE + 0x100) (RAM_BASE + 0x180)) flushDma .empty :=
    ((((((Reaches.new flushDma).write 0x030 0).write 0x038 2).write 0x080 _).write 0x090 _).write 0x0a0 _).write 0x044 1
  have hrun : (ledgerProcess 1 (queueDevice 0 2 RAM_BASE (RAM_BASE + 0x100) (RAM_BASE + 0x180)) 0 flushDma .empty).any
      fun s => s.1.1.pendingBlockRequest.isSome := by
    decide
  obtain ⟨⟨⟨d, m⟩, l⟩, hp, hs⟩ := (Option.any_eq_true _ _).1 hrun
  obtain ⟨r, hr⟩ := Option.isSome_iff_exists.1 hs
  have hreach := hset.process 1 0 hp
  obtain ⟨d', m', hd, hc⟩ := complete_commits 0 d m l hreach r hr [] true
  exact ⟨d, m, l, r, d', m', hreach, hr, hd, hc⟩

/-- RAM with a flush request whose status byte is the first of its used entry. -/
def overlapDma : Dma where
  ram := {
    base := RAM_BASE
    len := 4096
    mem := fun i => ([(0x01, 2), (0x03, 0x80), (0x08, 16), (0x0c, 1), (0x0e, 1), (0x10, 0x84), (0x11, 1), (0x13, 0x80), (0x18, 1),
      (0x1c, 2), (0x102, 1), (0x200, 4)].lookup i).getD 0
    fits := RAM_page_fits
    len_lt := page_len_lt }
  jit := .new 4096
  nextBlockRequestId := 1

/-- **A status byte in the used ring** is written over: a flush that has failed is left with the status of one done. -/
theorem failed_status_overwritten : ∃ d m l r d' m', Reaches 0 d m l ∧ d.pendingBlockRequest = some r ∧ ¬Fulfils r [] false ∧
    d.completeBlockRequest r.id [] false m = (true, d', m') ∧ m'.guestSlice r.statusAddr 1 = some [0] := by
  have hset : Reaches 0 (queueDevice 0 2 RAM_BASE (RAM_BASE + 0x100) (RAM_BASE + 0x180)) overlapDma .empty :=
    ((((((Reaches.new overlapDma).write 0x030 0).write 0x038 2).write 0x080 _).write 0x090 _).write 0x0a0 _).write 0x044 1
  have hrun : (ledgerProcess 1 (queueDevice 0 2 RAM_BASE (RAM_BASE + 0x100) (RAM_BASE + 0x180)) 0 overlapDma .empty).any
      fun s => s.1.1.pendingBlockRequest.any fun r => (s.1.1.completeBlockRequest r.id [] false s.1.2).1 &&
        decide ((s.1.1.completeBlockRequest r.id [] false s.1.2).2.2.guestSlice r.statusAddr 1 = some [0]) := by
    decide
  obtain ⟨⟨⟨d, m⟩, l⟩, hp, hs⟩ := (Option.any_eq_true _ _).1 hrun
  obtain ⟨r, hr, hs⟩ := (Option.any_eq_true _ _).1 hs
  rw [Bool.and_eq_true, decide_eq_true_iff] at hs
  exact ⟨d, m, l, r, _, _, hset.process 1 0 hp, hr, fun h => Bool.false_ne_true h.1, Prod.ext hs.1 rfl, hs.2⟩

end VirtioDev
end Lish
