import Lish.System.BusFrame
import Lish.System.VirtioQueue
/-!
# Marks — writes to marked pages are observed

Every write to RAM through the bus or by a device tells the page tracker.  A marked page whose bytes change becomes dirty, and
its write generation moves exactly when it does.
-/
namespace Lish
namespace JitPageState

variable {s s' s'' : JitPageState} {p : ℕ}

/-! ## Tracking -/

/-- The dirty list is the set of dirty pages, and every page tracked is one of RAM. -/
structure Listed (s : JitPageState) : Prop where
  nodup : s.dirtyPages.Nodup
  mem : ∀ p, p ∈ s.dirtyPages ↔ s.dirty p = true
  markedIn : ∀ p, s.marked p = true → p < s.pageCount
  dirtyIn : ∀ p, s.dirty p = true → p < s.pageCount

/-- What tracking a write may do: the first to a marked clean page makes it dirty and moves its generation. -/
structure Noted (s s' : JitPageState) : Prop where
  pageCount : s'.pageCount = s.pageCount
  marked : s'.marked = s.marked
  page : ∀ p, (s'.dirty p = s.dirty p ∧ s'.writeGenerations p = s.writeGenerations p) ∨
    (s.marked p = true ∧ s.dirty p = false ∧ s'.dirty p = true ∧ s'.writeGenerations p = s.writeGenerations p + 1)
  listed : Listed s → Listed s'

theorem Noted.refl (s : JitPageState) : Noted s s := ⟨rfl, rfl, fun _ => Or.inl ⟨rfl, rfl⟩, id⟩

theorem Noted.trans (h : Noted s s') (h' : Noted s' s'') : Noted s s'' := by
  refine ⟨h'.pageCount.trans h.pageCount, h'.marked.trans h.marked, fun p => ?_, fun hl => h'.listed (h.listed hl)⟩
  rcases h.page p with ⟨h1, h2⟩ | ⟨h1, h2, h3, h4⟩
  · rcases h'.page p with ⟨h1', h2'⟩ | ⟨h1', h2', h3', h4'⟩
    · exact Or.inl ⟨h1'.trans h1, h2'.trans h2⟩
    · exact Or.inr ⟨h.marked ▸ h1', h1 ▸ h2', h3', h4'.trans (by rw [h2])⟩
  · rcases h'.page p with ⟨h1', h2'⟩ | ⟨h1', h2', h3', h4'⟩
    · exact Or.inr ⟨h1, h2, h1'.trans h3, h2'.trans h4⟩
    · exact absurd (h2'.symm.trans h3) Bool.noConfusion

theorem Noted.dirty (h : Noted s s') (hp : s.dirty p = true) : s'.dirty p = true := by
  rcases h.page p with ⟨h1, -⟩ | ⟨-, -, h3, -⟩
  · exact h1.trans hp
  · exact h3

theorem noted_notePageWrite (s : JitPageState) (page : ℕ) : Noted s (s.notePageWrite page) := by
  unfold notePageWrite
  split_ifs with h
  · rw [Bool.and_eq_true, Bool.not_eq_true'] at h
    refine ⟨rfl, rfl, fun p => ?_, fun hl => ⟨?_, fun p => ?_, hl.markedIn, fun p hp => ?_⟩⟩
    · dsimp only
      by_cases hp : p = page
      · rw [if_pos hp, if_pos hp]
        exact Or.inr ⟨hp ▸ h.1, hp ▸ h.2, rfl, rfl⟩
      · rw [if_neg hp, if_neg hp]
        exact Or.inl ⟨rfl, rfl⟩
    · refine List.nodup_append.2 ⟨hl.nodup, List.nodup_singleton _, fun a ha b hb => ?_⟩
      rw [List.mem_singleton.1 hb]
      rintro rfl
      rw [hl.mem, h.2] at ha
      cases ha
    · rw [List.mem_append, hl.mem, List.mem_singleton]
      by_cases hp : p = page <;> simp [hp]
    · dsimp only at hp ⊢
      split_ifs at hp with hpage
      · exact hpage ▸ hl.markedIn page h.1
      · exact hl.dirtyIn p hp
  · exact .refl s

theorem notePageWrite_dirty (hm : s.marked p = true) : (s.notePageWrite p).dirty p = true := by
  unfold notePageWrite
  cases hd : s.dirty p with
  | false => simp [hm]
  | true => simp [hd]

theorem noted_noteStore (s : JitPageState) (pa : U64) : Noted s (s.noteStore pa) := by
  unfold noteStore
  cases s.pageForAddress pa with
  | none => exact .refl s
  | some page => exact noted_notePageWrite s page

theorem noted_notePages (s : JitPageState) (first n : ℕ) : Noted s (s.notePages first n) := by
  induction n with
  | zero => exact .refl s
  | succ n ih => exact ih.trans (noted_notePageWrite _ _)

theorem notePages_dirty {first n : ℕ} (hm : s.marked p = true) (h : first ≤ p) (h' : p < first + n) :
    (s.notePages first n).dirty p = true := by
  induction n with
  | zero => omega
  | succ n ih =>
    rw [notePages]
    by_cases hp : p = first + n
    · rw [← hp]
      exact notePageWrite_dirty (by rw [(noted_notePages s first n).marked, hm])
    · exact (noted_notePageWrite _ _).dirty (ih (by omega))

theorem noted_noteWrite (s : JitPageState) (pa : U64) (len : ℕ) : Noted s (s.noteWrite pa len) := by
  unfold noteWrite
  split_ifs
  · exact .refl s
  · exact .refl s
  · split
    · exact noted_notePages _ _ _
    · exact .refl s

/-! ## Pages of addresses -/

theorem pageForAddress_eq {pa : U64} (hb : RAM_BASE ≤ pa) (hp : (pa - RAM_BASE).toNat / 4096 < s.pageCount) :
    s.pageForAddress pa = some ((pa - RAM_BASE).toNat / 4096) := by
  have hshift : ((pa - RAM_BASE) >>> JIT_PAGE_SHIFT).toNat = (pa - RAM_BASE).toNat / 4096 := by
    rw [BitVec.toNat_ushiftRight, Nat.shiftRight_eq_div_pow]
    rfl
  unfold pageForAddress
  rw [if_neg (BitVec.not_lt.2 hb)]
  dsimp only
  rw [hshift, if_pos hp]

theorem noteStore_dirty {pa : U64} (hb : RAM_BASE ≤ pa) (hp : (pa - RAM_BASE).toNat / 4096 < s.pageCount)
    (hm : s.marked ((pa - RAM_BASE).toNat / 4096) = true) : (s.noteStore pa).dirty ((pa - RAM_BASE).toNat / 4096) = true := by
  unfold noteStore
  rw [pageForAddress_eq hb hp]
  exact notePageWrite_dirty hm

theorem noteWrite_dirty {pa : U64} {len i : ℕ} (hb : RAM_BASE ≤ pa) (hfit : RAM_BASE.toNat + (pa - RAM_BASE).toNat + len ≤ 2 ^ 64)
    (hp : ((pa - RAM_BASE).toNat + len - 1) / 4096 < s.pageCount) (hi : (pa - RAM_BASE).toNat ≤ i)
    (hi' : i < (pa - RAM_BASE).toNat + len) (hm : s.marked (i / 4096) = true) : (s.noteWrite pa len).dirty (i / 4096) = true := by
  have hsub : (pa - RAM_BASE).toNat = pa.toNat - RAM_BASE.toNat := BitVec.toNat_sub_of_le hb
  have hle := BitVec.le_def.1 hb
  have hbase : RAM_BASE.toNat = 2147483648 := rfl
  have hadd : (pa + BitVec.ofNat 64 (len - 1)).toNat = pa.toNat + (len - 1) := by
    rw [BitVec.toNat_add, BitVec.toNat_ofNat, Nat.add_mod_mod, Nat.mod_eq_of_lt (by omega)]
  have hlast : (pa + BitVec.ofNat 64 (len - 1) - RAM_BASE).toNat = (pa - RAM_BASE).toNat + len - 1 := by
    rw [BitVec.toNat_sub_of_le (by rw [BitVec.le_def]; omega), hadd]
    omega
  have hbe : RAM_BASE ≤ pa + BitVec.ofNat 64 (len - 1) := by
    rw [BitVec.le_def]
    omega
  unfold noteWrite
  rw [if_neg (by omega), if_neg (by omega), pageForAddress_eq hb (by omega), pageForAddress_eq hbe (by rw [hlast]; exact hp)]
  dsimp only
  rw [hlast]
  exact notePages_dirty hm (by omega) (by omega)

end JitPageState

/-! ## Writes -/

namespace Dma

open JitPageState

variable {d d' : Dma}

/-- RAM starts at its base, and the tracker knows all its pages. -/
def Sized (d : Dma) : Prop := d.ram.base = RAM_BASE ∧ d.ram.len ≤ d.jit.pageCount * 4096

/-- The tracker has noted what happened, and the marked pages that changed are dirty. -/
structure Observed (d d' : Dma) : Prop where
  sized : Sized d'
  noted : Noted d.jit d'.jit
  changed : ∀ i, d'.ram.mem i ≠ d.ram.mem i → d.jit.marked (i / 4096) = true → d'.jit.dirty (i / 4096) = true

theorem Observed.refl (h : Sized d) : Observed d d := ⟨h, .refl _, fun _ hne => absurd rfl hne⟩

theorem Observed.trans {d'' : Dma} (h : Observed d d') (h' : Observed d' d'') : Observed d d'' := by
  refine ⟨h'.sized, h.noted.trans h'.noted, fun i hne hm => ?_⟩
  by_cases h1 : d'.ram.mem i = d.ram.mem i
  · exact h'.changed i (fun h2 => hne (h2.trans h1)) (by rw [h.noted.marked]; exact hm)
  · exact h'.noted.dirty (h.changed i h1 hm)

theorem observed_guestWrite (h : Sized d) (addr : U64) (bytes : List U8) : Observed d (d.guestWrite addr bytes).2 := by
  cases ho : d.ram.offset addr bytes.length with
  | none =>
    unfold guestWrite
    rw [ho]
    exact .refl h
  | some off =>
    have hnoted := noted_noteWrite d.jit addr bytes.length
    have hjit : (d.guestWrite addr bytes).2.jit = d.jit.noteWrite addr bytes.length := by
      unfold guestWrite
      rw [ho]
    obtain ⟨hb, hl⟩ := guestWrite_sameRam d addr bytes
    refine ⟨⟨hb.trans h.1, ?_⟩, hjit ▸ hnoted, fun i hne hm => ?_⟩
    · rw [hl, hjit, hnoted.pageCount]
      exact h.2
    · rw [guestWrite_mem ho] at hne
      rw [hjit]
      split_ifs at hne with hi
      · obtain ⟨hle, rfl, hend⟩ := FlatMemory.offset_some ho
        have hfits := d.ram.fits
        have hlen := h.2
        rw [h.1] at hle hfits hend hi
        exact noteWrite_dirty hle (by omega) (by omega) hi.1 hi.2 hm
      · exact absurd rfl hne

/-- **Devices** write observed. -/
theorem dmaRel_observed : DmaRel fun d d' => Sized d → Observed d d' where
  refl _ := .refl
  trans _ _ _ h h' hs := (h hs).trans (h' (h hs).sized)
  write _ addr bytes h := observed_guestWrite h addr bytes
  ticket _ h := ⟨h, .refl _, fun _ hne => absurd rfl hne⟩

end Dma

namespace VirtBus

open JitPageState Dma

variable {b b' : VirtBus} {R : Dma → Dma → Prop}

/-! ## The bus -/

theorem setDma_dma {m : Dma} (h : SameRam b.dma m) : (b.setDma m).dma = m := by
  obtain ⟨⟨base, len, mem, fits, len_lt⟩, jit, id⟩ := m
  obtain ⟨h1, h2⟩ := h
  dsimp only [dma, GuestRam.flat] at h1 h2
  subst h1 h2
  rfl

theorem processQueue_rel (h : DmaRel R) (b : VirtBus) (i qi : ℕ) : R b.dma (b.processQueue i qi).dma := by
  unfold processQueue
  cases b.virtio[i]? with
  | none => exact h.refl _
  | some dev =>
    dsimp only
    cases hp : dev.process b.passes qi b.dma with
    | none => exact h.refl _
    | some r =>
      have hr := VirtioDev.process_rel h hp
      rw [← setDma_dma (b := b) (VirtioDev.process_rel dmaRel_sameRam hp)] at hr
      exact hr

theorem pollVirtio_rel (h : DmaRel R) (b : VirtBus) : R b.dma b.pollVirtio.dma := by
  unfold pollVirtio
  generalize List.range b.virtio.length = is
  induction is generalizing b with
  | nil => exact h.refl _
  | cons i is ih =>
    exact h.trans _ _ _ (h.trans _ _ _ (processQueue_rel h b i 0) (processQueue_rel h _ i 1)) (ih _)

theorem mmioRead_dma (b : VirtBus) (addr : U64) (size : ℕ) : (b.mmioRead addr size).2.dma = b.dma := by
  unfold mmioRead
  split <;> rfl

theorem virtioWrite_rel (h : DmaRel R) (b : VirtBus) (i : ℕ) (off : U64) (val : U32) : R b.dma (b.virtioWrite i off val).dma := by
  unfold virtioWrite
  cases b.virtio[i]? with
  | none => exact h.refl _
  | some dev =>
    dsimp only
    rcases dev.write off val with ⟨_ | q, dev'⟩
    · exact h.refl _
    · exact processQueue_rel h { b with virtio := b.virtio.set i dev' } i q.toNat

theorem mmioWrite_rel (h : DmaRel R) {addr val : U64} (hw : b.mmioWrite addr val = some b') : R b.dma b'.dma := by
  unfold mmioWrite at hw
  split at hw
  · cases hw
    unfold testWrite
    dsimp only
    split_ifs <;> exact h.refl _
  · cases hw
    unfold clintWrite
    split <;> exact h.refl _
  · cases hw
    exact h.refl _
  · cases hw
    exact h.refl _
  · cases hw
    exact h.refl _
  · cases hw
    exact virtioWrite_rel h _ _ _ _
  · cases hw

/-! ## Accesses of the hart -/

/-- The tracker has noted what happened between two buses, and the marked pages that changed are dirty. -/
def Tracked (b b' : VirtBus) : Prop := Sized b.dma → Observed b.dma b'.dma

theorem tracked_noteStore (b : VirtBus) (addr : U64) : Tracked b { b with jit := b.jit.noteStore addr } := by
  intro h
  have hnoted := noted_noteStore b.jit addr
  refine ⟨⟨h.1, ?_⟩, hnoted, fun _ hne => absurd rfl hne⟩
  change b.ram.len ≤ (b.jit.noteStore addr).pageCount * 4096
  rw [hnoted.pageCount]
  exact h.2

/-- A store to RAM within a page is observed. -/
theorem tracked_store {addr val : U64} {off n : ℕ} (ho : b.ram.flat.offset addr n = some off) (hp : InPage addr n) :
    Tracked b ({ b with jit := b.jit.noteStore addr }.storeRam off n val) := by
  intro h
  obtain ⟨hle, hoff, hend⟩ := FlatMemory.offset_some ho
  have hnoted := noted_noteStore b.jit addr
  have hlen := h.2
  refine ⟨⟨h.1, ?_⟩, hnoted, fun i hne hm => ?_⟩
  · change b.ram.len ≤ (b.jit.noteStore addr).pageCount * 4096
    rw [hnoted.pageCount]
    exact hlen
  · change (if off ≤ i ∧ i < off + n then byteOf val (i - off) else b.ram.mem i) ≠ b.ram.mem i at hne
    split_ifs at hne with hi
    · unfold InPage at hp
      rw [offset_toNat] at hp
      have hsub : (addr - RAM_BASE).toNat = addr.toNat - RAM_BASE.toNat := BitVec.toNat_sub_of_le hle
      have hble := BitVec.le_def.1 hle
      have hbase : RAM_BASE.toNat = 2147483648 := rfl
      change off = (addr - RAM_BASE).toNat at hoff
      change off + n ≤ b.ram.len at hend
      change b.ram.len ≤ b.jit.pageCount * 4096 at hlen
      have hpage : i / 4096 = (addr - RAM_BASE).toNat / 4096 := by omega
      rw [hpage] at hm ⊢
      exact noteStore_dirty hle (by omega) hm
    · exact absurd rfl hne

theorem tracked_trans {b b' b'' : VirtBus} (h : Tracked b b') (h' : Tracked b' b'') : Tracked b b'' := fun hs =>
  (h hs).trans (h' (h hs).sized)

theorem tracked_of_dma (h : b'.dma = b.dma) : Tracked b b' := by
  unfold Tracked
  rw [h]
  exact .refl

theorem tracked_busRead (w : Width) (b : VirtBus) (addr : U64) : Tracked b (busRead w b addr).2 := by
  unfold busRead
  cases b.ram.flat.offset addr w.bytes with
  | some off => exact tracked_of_dma rfl
  | none =>
    have h := mmioRead_dma b addr w.bytes
    rcases hr : b.mmioRead addr w.bytes with ⟨_ | v, b'⟩ <;> rw [hr] at h <;> exact tracked_of_dma h

theorem tracked_busWrite (w : Width) (b : VirtBus) (addr val : U64) (hp : InPage addr w.bytes) :
    Tracked b (busWrite w b addr val).2 := by
  unfold busWrite
  dsimp only
  cases ho : b.ram.flat.offset addr w.bytes with
  | some off => exact tracked_store ho hp
  | none =>
    dsimp only
    cases h : { b with jit := b.jit.noteStore addr }.mmioWrite addr (cut w val) with
    | none => exact tracked_noteStore b addr
    | some b' => exact tracked_trans (tracked_noteStore b addr) (mmioWrite_rel dmaRel_observed h)

/-- **Accesses** that do not cross a page are observed. -/
theorem pagedRel_tracked : PagedRel Tracked where
  refl _ := .refl
  trans _ _ _ := tracked_trans
  read := tracked_busRead
  write := tracked_busWrite
  fetch16 b addr := by
    have h := tracked_busRead .w2 b addr
    rcases hr : busRead .w2 b addr with ⟨e | v, b'⟩ <;> rw [hr] at h <;>
      simp only [Bus.fetch16, hr] <;> exact h
  fetch32IfSafe _ _ := .refl
  irqLines _ := tracked_of_dma rfl

end VirtBus
end Lish
