import Lish.System.DmaRuns
/-!
# BlockReport — what an in-memory disk answers

A request names consecutive bytes of the disk,
  one range for each data descriptor.  The status says whether all of them were moved, the
used length how many bytes the guest's buffers got; both are wrong where the code counts what it did not move.
-/
namespace Lish

/-! ## Splicing -/

/-- A list with a part replaced. -/
def splice {α : Type} (l : List α) (p : ℕ) (src : List α) : List α := l.take p ++ src ++ l.drop (p + src.length)

section Splice

variable {α : Type} {l src : List α} {p : ℕ}

theorem splice_length (h : p + src.length ≤ l.length) : (splice l p src).length = l.length := by
  unfold splice
  rw [List.length_append, List.length_append, List.length_take, List.length_drop, Nat.min_eq_left (by omega)]
  omega

theorem splice_outside (h : p + src.length ≤ l.length) {i : ℕ} (hi : i < p ∨ p + src.length ≤ i) :
    (splice l p src)[i]? = l[i]? := by
  have hp : (l.take p).length = p := by rw [List.length_take, Nat.min_eq_left (by omega)]
  unfold splice
  rw [List.append_assoc]
  rcases hi with hi | hi
  · rw [List.getElem?_append_left (by omega), List.getElem?_take, if_pos hi]
  · rw [List.getElem?_append_right (by omega), List.getElem?_append_right (by omega), List.getElem?_drop, hp]
    congr 1
    omega

theorem splice_inside (h : p + src.length ≤ l.length) : ((splice l p src).drop p).take src.length = src := by
  have hp : (l.take p).length = p := by rw [List.length_take, Nat.min_eq_left (by omega)]
  unfold splice
  rw [List.append_assoc, List.drop_append_of_le_length (by omega), List.drop_eq_nil_of_le (by omega), List.nil_append,
    List.take_left']
  rfl

end Splice

namespace VirtioDev

open Dma

variable {d : VirtioDev} {m : Dma} {disk : List U8} {p : ℕ}

/-! ## Requests -/

/-- The data descriptors of a chain, each with the byte of the disk it starts at. -/
def placed : ℕ → List Descriptor → List (Descriptor × ℕ)
  | _, [] => []
  | p, desc :: rest => (desc, p) :: placed (p + desc.len.toNat) rest

/-- A data descriptor can be moved: it has the direction of the request, lies in RAM, and its part of the disk exists. -/
def Movable (disk : List U8) (m : Dma) (reading : Bool) (x : Descriptor × ℕ) : Prop :=
  x.1.writable = reading ∧ m.InRam x.1.addr x.1.len.toNat ∧ x.2 + x.1.len.toNat ≤ disk.length

instance (disk : List U8) (m : Dma) (reading : Bool) (x : Descriptor × ℕ) : Decidable (Movable disk m reading x) :=
  inferInstanceAs (Decidable (x.1.writable = reading ∧ m.InRam x.1.addr x.1.len.toNat ∧ x.2 + x.1.len.toNat ≤ disk.length))

/-- The data descriptors that are moved. -/
def movedParts (disk : List U8) (m : Dma) (reading : Bool) (xs : List (Descriptor × ℕ)) : List (Descriptor × ℕ) :=
  xs.filter fun x => decide (Movable disk m reading x)

def partBytes (xs : List (Descriptor × ℕ)) : ℕ := (xs.map fun x => x.1.len.toNat).sum

/-- The disk's bytes in the buffers they were read into. -/
def readInto (disk : List U8) (xs : List (Descriptor × ℕ)) (m : Dma) : Dma :=
  xs.foldl (fun m x => (m.guestWrite x.1.addr ((disk.drop x.2).take x.1.len.toNat)).2) m

/-! ## The loop over the data descriptors -/

/-- The loop stands at a byte of the disk, as a number without a bound. -/
def BlockLoop.At (l : BlockLoop) (p : ℕ) : Prop := l.pos = if p < 2 ^ 64 then some p else none

theorem blockStep_at {l : BlockLoop} (h : l.At p) (req : U32) (desc : Descriptor) : (l.step req desc).At (p + desc.len.toNat) := by
  have hpos : (l.step req desc).pos = l.pos.bind fun p => if p + desc.len.toNat < 2 ^ 64 then some
    (p + desc.len.toNat) else none := by
    unfold BlockLoop.step
    dsimp only
    split_ifs
    · rfl
    · split <;> rfl
    · rfl
  unfold BlockLoop.At at h ⊢
  rw [hpos, h]
  by_cases hp : p < 2 ^ 64
  · rw [if_pos hp]
    rfl
  · rw [if_neg hp, if_neg (by omega)]
    rfl

theorem diskRange_at {l : BlockLoop} (h : l.At p) (hd : l.disk.length < 2 ^ 64) (len : ℕ) :
    l.diskRange len = if p + len ≤ l.disk.length then some p else none := by
  unfold BlockLoop.diskRange
  unfold BlockLoop.At at h
  rw [h]
  by_cases hp : p + len ≤ l.disk.length
  · rw [if_pos hp, if_pos (by omega), Option.bind_some, if_pos ⟨by omega, hp⟩]
  · rw [if_neg hp]
    split
    · rw [Option.bind_some, if_neg fun hn => hp hn.2]
    · rfl

theorem Movable.congr {disk' : List U8} {m' : Dma} (hd : disk'.length = disk.length) (hm : SameRam m m') (reading : Bool) (x :
    Descriptor × ℕ) :
    Movable disk' m' reading x ↔ Movable disk m reading x := by
  unfold Movable
  rw [hd, ← inRam_iff, hm.offset, inRam_iff]

theorem chunk_length {x : Descriptor × ℕ} (h : x.2 + x.1.len.toNat ≤ disk.length) :
    ((disk.drop x.2).take x.1.len.toNat).length = x.1.len.toNat := by
  rw [List.length_take, List.length_drop, Nat.min_eq_left (by omega)]

theorem guestSlice_some {addr : U64} {n : ℕ} (h : m.InRam addr n) : ∃ bytes, m.guestSlice addr n = some bytes ∧
    bytes.length = n := by
  obtain ⟨off, ho⟩ := Option.isSome_iff_exists.1 (inRam_iff.2 h)
  refine ⟨(List.range n).map fun i => m.ram.mem (off + i), ?_, by rw [List.length_map, List.length_range]⟩
  unfold guestSlice
  rw [ho]
  rfl

theorem readInto_single (disk : List U8) (m : Dma) (x : Descriptor × ℕ) : readInto disk (movedParts disk m true [x]) m =
    if Movable disk m true x then (m.guestWrite x.1.addr ((disk.drop x.2).take x.1.len.toNat)).2 else m := by
  unfold movedParts
  rw [List.filter_cons]
  by_cases hx : Movable disk m true x
  · rw [if_pos hx, decide_eq_true hx, if_pos rfl]
    rfl
  · rw [if_neg hx, decide_eq_false hx, if_neg Bool.false_ne_true]
    rfl

/-- **A step of a read** moves a descriptor, or notes that it did not. -/
theorem blockStep_read {l : BlockLoop} (h : l.At p) (hd : l.disk.length < 2 ^ 64) (desc : Descriptor) :
    (l.step VIRTIO_BLK_T_IN desc).disk = l.disk ∧
      (l.step VIRTIO_BLK_T_IN desc).ok = (l.ok && decide (Movable l.disk l.dma true (desc, p))) ∧
        (l.step VIRTIO_BLK_T_IN desc).dma = readInto l.disk (movedParts l.disk l.dma true [(desc, p)]) l.dma := by
  rw [readInto_single]
  unfold BlockLoop.step
  dsimp only
  by_cases hw : desc.writable = true
  · rw [if_pos ⟨rfl, hw⟩, diskRange_at h hd]
    by_cases hr : p + desc.len.toNat ≤ l.disk.length
    · rw [if_pos hr]
      dsimp only
      have hlen := chunk_length (x := (desc, p)) hr
      dsimp only at hlen
      have hfst : (l.dma.guestWrite desc.addr ((l.disk.drop p).take desc.len.toNat)).1 = decide
        (l.dma.InRam desc.addr desc.len.toNat) := by
        rw [guestWrite_fst, hlen, Bool.eq_iff_iff, decide_eq_true_iff, inRam_iff]
      rw [hfst]
      by_cases hin : l.dma.InRam desc.addr desc.len.toNat
      · have hm : Movable l.disk l.dma true (desc, p) := ⟨hw, hin, hr⟩
        rw [if_pos hm, decide_eq_true hm, decide_eq_true hin]
        exact ⟨rfl, rfl, rfl⟩
      · have hm : ¬Movable l.disk l.dma true (desc, p) := fun hm => hin hm.2.1
        rw [if_neg hm, decide_eq_false hm, decide_eq_false hin, guestWrite_outsideRam (by rw [hlen]; exact hin)]
        exact ⟨rfl, rfl, rfl⟩
    · have hm : ¬Movable l.disk l.dma true (desc, p) := fun hm => hr hm.2.2
      rw [if_neg hr, if_neg hm, decide_eq_false hm]
      exact ⟨rfl, rfl, rfl⟩
  · have hm : ¬Movable l.disk l.dma true (desc, p) := fun hm => hw hm.1
    rw [if_neg fun hn => hw hn.2, if_neg fun hn => absurd hn.1 (by decide), if_neg hm, decide_eq_false hm, Bool.and_false]
    exact ⟨rfl, rfl, rfl⟩

/-- **A step of a write.** -/
theorem blockStep_write {l : BlockLoop} (h : l.At p) (hd : l.disk.length < 2 ^ 64) (desc : Descriptor) :
    (l.step VIRTIO_BLK_T_OUT desc).dma = l.dma ∧
      (l.step VIRTIO_BLK_T_OUT desc).ok = (l.ok && decide (Movable l.disk l.dma false (desc, p))) ∧
        (l.step VIRTIO_BLK_T_OUT desc).disk = if Movable l.disk l.dma false (desc, p) then
          splice l.disk p ((l.dma.guestSlice desc.addr desc.len.toNat).getD []) else l.disk := by
  unfold BlockLoop.step
  dsimp only
  rw [if_neg fun hn => absurd hn.1 (by decide)]
  by_cases hw : desc.writable = false
  · rw [if_pos ⟨rfl, by simpa using hw⟩, diskRange_at h hd]
    by_cases hr : p + desc.len.toNat ≤ l.disk.length
    · rw [if_pos hr]
      by_cases hin : l.dma.InRam desc.addr desc.len.toNat
      · obtain ⟨bytes, hb, hlen⟩ := guestSlice_some hin
        have hm : Movable l.disk l.dma false (desc, p) := ⟨hw, hin, hr⟩
        rw [if_pos hm, decide_eq_true hm, hb, Bool.and_true]
        refine ⟨rfl, rfl, ?_⟩
        rw [Option.getD_some]
        unfold splice
        rw [hlen]
      · have hm : ¬Movable l.disk l.dma false (desc, p) := fun hm => hin hm.2.1
        rw [if_neg hm, decide_eq_false hm, (read_outside hin).1, Bool.and_false]
        exact ⟨rfl, rfl, rfl⟩
    · have hm : ¬Movable l.disk l.dma false (desc, p) := fun hm => hr hm.2.2
      rw [if_neg hr, if_neg hm, decide_eq_false hm, Bool.and_false]
      exact ⟨rfl, rfl, rfl⟩
  · have hm : ¬Movable l.disk l.dma false (desc, p) := fun hm => hw hm.1
    rw [if_neg fun hn => hw (by simpa using hn.2), if_neg hm, decide_eq_false hm, Bool.and_false]
    exact ⟨rfl, rfl, rfl⟩

/-- A request of another kind moves nothing. -/
theorem blockStep_other {req : U32} (hin : req ≠ VIRTIO_BLK_T_IN) (hout : req ≠ VIRTIO_BLK_T_OUT) (l : BlockLoop) (desc :
    Descriptor) :
    (l.step req desc).disk = l.disk ∧ (l.step req desc).ok = false ∧ (l.step req desc).dma = l.dma := by
  unfold BlockLoop.step
  dsimp only
  rw [if_neg fun hn => hin hn.1, if_neg fun hn => hout hn.1]
  exact ⟨rfl, rfl, rfl⟩

/-! ## The whole loop -/

theorem movedParts_congr {m' : Dma} (hm : SameRam m m') (reading : Bool) (xs : List (Descriptor × ℕ)) :
    movedParts disk m' reading xs = movedParts disk m reading xs := by
  unfold movedParts
  exact List.filter_congr fun x _ => decide_eq_decide.2 (Movable.congr rfl hm reading x)

theorem movedParts_cons (reading : Bool) (x : Descriptor × ℕ) (xs : List (Descriptor × ℕ)) :
    movedParts disk m reading (x :: xs) = movedParts disk m reading [x] ++ movedParts disk m reading xs := by
  unfold movedParts
  rw [← List.filter_append]
  rfl

theorem readInto_append (xs ys : List (Descriptor × ℕ)) : readInto disk (xs ++ ys) m = readInto disk ys (readInto disk xs m) := by
  unfold readInto
  rw [List.foldl_append]

theorem readInto_sameRam (xs : List (Descriptor × ℕ)) : SameRam m (readInto disk xs m) := by
  induction xs generalizing m with
  | nil => exact .refl m
  | cons x xs ih => exact (guestWrite_sameRam m _ _).trans ih

/-- **A read** moves the descriptors that can be moved, in order. -/
theorem blockLoop_read (body : List Descriptor) {l : BlockLoop} (h : l.At p) (hd : l.disk.length < 2 ^ 64) :
    (body.foldl (BlockLoop.step VIRTIO_BLK_T_IN) l).disk = l.disk ∧
      (body.foldl (BlockLoop.step VIRTIO_BLK_T_IN) l).ok = (l.ok && decide (∀ x ∈ placed p body, Movable l.disk l.dma true x)) ∧
        (body.foldl (BlockLoop.step VIRTIO_BLK_T_IN) l).dma = readInto l.disk (movedParts l.disk l.dma true
          (placed p body)) l.dma := by
  induction body generalizing l p with
  | nil => exact ⟨rfl, by simp [placed], rfl⟩
  | cons desc body ih =>
    obtain ⟨hdisk, hok, hdma⟩ := blockStep_read h hd desc
    have hsame : SameRam l.dma (l.step VIRTIO_BLK_T_IN desc).dma := blockStep_sameRam _ l desc
    obtain ⟨h1, h2, h3⟩ := ih (blockStep_at h VIRTIO_BLK_T_IN desc) (by rw [hdisk]; exact hd)
    rw [List.foldl_cons, placed]
    refine ⟨h1.trans hdisk, ?_, ?_⟩
    · rw [h2, hok, Bool.and_assoc, hdisk]
      congr 1
      rw [Bool.eq_iff_iff, Bool.and_eq_true, decide_eq_true_iff, decide_eq_true_iff, decide_eq_true_iff, List.forall_mem_cons]
      exact and_congr_right fun _ => forall_congr' fun x => imp_congr_right fun _ => Movable.congr rfl hsame true x
    · rw [h3, hdisk, movedParts_congr hsame, movedParts_cons, readInto_append, hdma]

theorem partBytes_cons (x : Descriptor × ℕ) (xs : List (Descriptor × ℕ)) : partBytes (x :: xs) = x.1.len.toNat + partBytes xs := by
  unfold partBytes
  rw [List.map_cons, List.sum_cons]

theorem placed_ge (body : List Descriptor) {x : Descriptor × ℕ} (h : x ∈ placed p body) : p ≤ x.2 := by
  induction body generalizing p with
  | nil => exact absurd h List.not_mem_nil
  | cons desc body ih =>
    rcases List.mem_cons.1 h with rfl | h
    · exact Nat.le_refl p
    · exact (Nat.le_add_right p _).trans (ih h)

/-- What a write leaves of the disk: the moved parts hold the guest's bytes,
  and no other byte of the request's range has changed, nor one
outside it. -/
structure Written (disk : List U8) (m : Dma) (p : ℕ) (body : List Descriptor) (disk' : List U8) : Prop where
  length : disk'.length = disk.length
  outside : ∀ i, i < p ∨ p + partBytes (placed p body) ≤ i → disk'[i]? = disk[i]?
  moved : ∀ x ∈ movedParts disk m false (placed p body),
    m.guestSlice x.1.addr x.1.len.toNat = some ((disk'.drop x.2).take x.1.len.toNat)

/-- **A write** moves the descriptors that can be moved. -/
theorem blockLoop_write (body : List Descriptor) {l : BlockLoop} (h : l.At p) (hd : l.disk.length < 2 ^ 64) :
    (body.foldl (BlockLoop.step VIRTIO_BLK_T_OUT) l).dma = l.dma ∧
      (body.foldl (BlockLoop.step VIRTIO_BLK_T_OUT) l).ok = (l.ok && decide (∀ x ∈ placed p body, Movable l.disk l.dma false x)) ∧
        Written l.disk l.dma p body (body.foldl (BlockLoop.step VIRTIO_BLK_T_OUT) l).disk := by
  induction body generalizing l p with
  | nil => exact ⟨rfl, by simp [placed], rfl, fun _ _ => rfl, fun x hx => absurd hx List.not_mem_nil⟩
  | cons desc body ih =>
    obtain ⟨hdma, hok, hdisk⟩ := blockStep_write h hd desc
    -- the step keeps the length of the disk, and changes its own part only
    have hstep : (l.step VIRTIO_BLK_T_OUT desc).disk.length = l.disk.length ∧
        (∀ i, i < p ∨ p + desc.len.toNat ≤ i → (l.step VIRTIO_BLK_T_OUT desc).disk[i]? = l.disk[i]?) ∧
          (Movable l.disk l.dma false (desc, p) →
            l.dma.guestSlice desc.addr desc.len.toNat = some (((l.step VIRTIO_BLK_T_OUT desc).disk.drop p).take desc.len.toNat))
              := by
      rw [hdisk]
      by_cases hm : Movable l.disk l.dma false (desc, p)
      · rw [if_pos hm]
        obtain ⟨bytes, hb, hlen⟩ := guestSlice_some hm.2.1
        have hle : p + bytes.length ≤ l.disk.length := by
          rw [hlen]
          exact hm.2.2
        dsimp only at hb hlen
        rw [hb, Option.getD_some, ← hlen]
        exact ⟨splice_length hle, fun i hi => splice_outside hle hi, fun _ => by rw [splice_inside hle]⟩
      · rw [if_neg hm]
        exact ⟨rfl, fun _ _ => rfl, fun hn => absurd hn hm⟩
    obtain ⟨hlen, hout, hmov⟩ := hstep
    obtain ⟨h1, h2, hw⟩ := ih (blockStep_at h VIRTIO_BLK_T_OUT desc) (by rw [hlen]; exact hd)
    rw [List.foldl_cons, placed]
    refine ⟨h1.trans hdma, ?_, hw.length.trans hlen, fun i hi => ?_, fun x hx => ?_⟩
    · rw [h2, hok, Bool.and_assoc, hdma]
      congr 1
      rw [Bool.eq_iff_iff, Bool.and_eq_true, decide_eq_true_iff, decide_eq_true_iff, decide_eq_true_iff, List.forall_mem_cons]
      exact and_congr_right fun _ => forall_congr' fun x => imp_congr_right fun _ => Movable.congr hlen (.refl _) false x
    · rw [placed, partBytes_cons] at hi
      dsimp only at hi
      rw [hw.outside i (by omega), hout i (by omega)]
    · rw [placed, movedParts_cons] at hx
      rcases List.mem_append.1 hx with hx | hx
      · obtain ⟨hmem, hmv⟩ := List.mem_filter.1 hx
        obtain rfl := List.mem_singleton.1 hmem
        rw [hmov (of_decide_eq_true hmv)]
        -- the later parts lie beyond this one
        congr 1
        refine List.ext_getElem? fun i => ?_
        rw [List.getElem?_take, List.getElem?_take]
        split
        · rw [List.getElem?_drop, List.getElem?_drop, hw.outside (p + i) (by omega)]
        · rfl
      · rw [← hdma]
        refine hw.moved x ?_
        rw [hdma]
        obtain ⟨hmem, hmv⟩ := List.mem_filter.1 hx
        exact List.mem_filter.2 ⟨hmem, decide_eq_true ((Movable.congr hlen (.refl _) false x).2 (of_decide_eq_true hmv))⟩

theorem blockLoop_other {req : U32} (hin : req ≠ VIRTIO_BLK_T_IN) (hout : req ≠ VIRTIO_BLK_T_OUT) (body : List Descriptor) (l :
    BlockLoop) :
    (body.foldl (BlockLoop.step req) l).disk = l.disk ∧ (body.foldl (BlockLoop.step req) l).dma = l.dma ∧
      (body.foldl (BlockLoop.step req) l).ok = (l.ok && body.isEmpty) := by
  induction body generalizing l with
  | nil => exact ⟨rfl, rfl, (Bool.and_true _).symm⟩
  | cons desc body ih =>
    obtain ⟨h1, h2, h3⟩ := blockStep_other hin hout l desc
    obtain ⟨i1, i2, i3⟩ := ih (l.step req desc)
    rw [List.foldl_cons]
    refine ⟨i1.trans h1, i2.trans h3, ?_⟩
    rw [i3, h2, Bool.false_and, List.isEmpty_cons, Bool.and_false]

/-! ## What is reported -/

/-- A block request on an in-memory disk: a readable header, the data descriptors and a writable status byte in RAM. -/
structure Request (chain : List Descriptor) (m : Dma) (hdr last : Descriptor) (header : List U8) : Prop where
  first : chain.head? = some hdr
  end_ : chain.getLast? = some last
  two : 2 ≤ chain.length
  readable : m.guestSlice hdr.addr 16 = some header
  writable : last.writable = true
  status : m.InRam last.addr 1

/-- The parts of the disk that a request names, with their descriptors. -/
def requestParts (chain : List Descriptor) (header : List U8) : List (Descriptor × ℕ) :=
  placed ((blockHeader header).2.toNat * SECTOR) chain.tail.dropLast

/-- The request is a read or a write of which every data descriptor is moved. -/
def Done (disk : List U8) (m : Dma) (chain : List Descriptor) (header : List U8) : Prop :=
  ((blockHeader header).1 = VIRTIO_BLK_T_IN ∧ ∀ x ∈ requestParts chain header, Movable disk m true x) ∨
    ((blockHeader header).1 = VIRTIO_BLK_T_OUT ∧ ∀ x ∈ requestParts chain header, Movable disk m false x)

instance (disk : List U8) (m : Dma) (chain : List Descriptor) (header : List U8) : Decidable (Done disk m chain header) :=
  inferInstanceAs (Decidable (_ ∨ _))

/-- The bytes that go to the guest's data buffers. -/
def bytesRead (disk : List U8) (m : Dma) (chain : List Descriptor) (header : List U8) : ℕ :=
  if (blockHeader header).1 = VIRTIO_BLK_T_IN then partBytes (movedParts disk m true (requestParts chain header)) else 0

/-- An in-memory disk reports what it did. -/
structure Reports (disk : List U8) (m : Dma) (chain : List Descriptor) (last : Descriptor) (header : List U8)
    (result : Option U32 × List U8 × Dma) : Prop where
  status : result.2.2.guestSlice last.addr 1 = some [if Done disk m chain header then 0 else 1]
  /-- A read leaves the disk alone, and writes the moved parts and the status. -/
  read : (blockHeader header).1 = VIRTIO_BLK_T_IN → result.2.1 = disk ∧ result.2.2 =
    ((readInto disk (movedParts disk m true (requestParts chain header)) m).guestWrite last.addr [if Done disk m chain header then 0 else 1]).2
  /-- A write changes bytes of the request's range, and writes the status. -/
  write : (blockHeader header).1 = VIRTIO_BLK_T_OUT →
    Written disk m ((blockHeader header).2.toNat * SECTOR) chain.tail.dropLast result.2.1 ∧
      result.2.2 = (m.guestWrite last.addr [if Done disk m chain header then 0 else 1]).2
  /-- The used length counts the data bytes and the status byte. -/
  used : ∃ written, result.1 = some written ∧ written.toNat = bytesRead disk m chain header + 1
  /-- No count has passed the width of the used length. -/
  fits : blockWritten (blockHeader header).1 chain.tail.dropLast < 2 ^ 32

/-- The disk can report what it does: a request without data is a read or a write,
  and a read moves every buffer that is not empty, of
a total that fits the used length. -/
structure Reportable (disk : List U8) (m : Dma) (chain : List Descriptor) (header : List U8) : Prop where
  kind : requestParts chain header = [] → (blockHeader header).1 = VIRTIO_BLK_T_IN ∨ (blockHeader header).1 = VIRTIO_BLK_T_OUT
  moved : (blockHeader header).1 = VIRTIO_BLK_T_IN → ∀ x ∈ requestParts chain header, x.1.writable = true → x.1.len ≠ 0 →
    Movable disk m true x
  fits : blockWritten (blockHeader header).1 chain.tail.dropLast < 2 ^ 32

theorem placed_eq_nil {body : List Descriptor} : placed p body = [] ↔ body = [] := by
  cases body with
  | nil => exact ⟨fun _ => rfl, fun _ => rfl⟩
  | cons desc body => exact ⟨fun h => (nomatch h), fun h => (nomatch h)⟩

theorem blockWritten_read (body : List Descriptor) :
    blockWritten VIRTIO_BLK_T_IN body = partBytes ((placed p body).filter fun x => x.1.writable) + 1 := by
  unfold blockWritten
  congr 1
  induction body generalizing p with
  | nil => rfl
  | cons desc body ih =>
    rw [placed, List.filter_cons, List.filter_cons]
    by_cases hw : desc.writable = true
    · rw [if_pos (by simpa using hw), if_pos hw, List.map_cons, List.sum_cons, partBytes_cons, ih]
    · rw [if_neg (by simpa using hw), if_neg hw, ih]

theorem blockWritten_other {req : U32} (h : req ≠ VIRTIO_BLK_T_IN) (body : List Descriptor) : blockWritten req body = 1 := by
  unfold blockWritten
  rw [List.filter_eq_nil_iff.2 fun desc _ hn => h (of_decide_eq_true hn).1]
  rfl

/-- The moved buffers hold all the bytes of the writable ones exactly if no other has any. -/
theorem partBytes_moved (xs : List (Descriptor × ℕ)) :
    partBytes (movedParts disk m true xs) ≤ partBytes (xs.filter fun x => x.1.writable) ∧
      (partBytes (movedParts disk m true xs) = partBytes (xs.filter fun x => x.1.writable) ↔
        ∀ x ∈ xs, x.1.writable = true → x.1.len ≠ 0 → Movable disk m true x) := by
  induction xs with
  | nil => exact ⟨Nat.le_refl _, fun _ x hx => absurd hx List.not_mem_nil, fun _ => rfl⟩
  | cons x xs ih =>
    obtain ⟨hle, hiff⟩ := ih
    rw [List.forall_mem_cons]
    unfold movedParts at hle hiff ⊢
    rw [List.filter_cons, List.filter_cons]
    by_cases hw : x.1.writable = true
    · rw [if_pos hw, partBytes_cons]
      by_cases hm : Movable disk m true x
      · rw [decide_eq_true hm, if_pos rfl, partBytes_cons]
        refine ⟨Nat.add_le_add_left hle _, ?_⟩
        rw [Nat.add_left_cancel_iff, hiff]
        exact ⟨fun h => ⟨fun _ _ => hm, h⟩, And.right⟩
      · rw [decide_eq_false hm, if_neg Bool.false_ne_true]
        refine ⟨hle.trans (Nat.le_add_left _ _), ?_⟩
        constructor
        · intro he
          have hz : x.1.len.toNat = 0 := by omega
          exact ⟨fun _ hne => absurd (BitVec.eq_of_toNat_eq hz) hne, hiff.1 (by omega)⟩
        · rintro ⟨hx, hrest⟩
          have hz : x.1.len = 0 := by
            by_contra hne
            exact hm (hx hw hne)
          rw [hz, hiff.2 hrest]
          exact (Nat.zero_add _).symm
    · have hm : ¬Movable disk m true x := fun hm => hw hm.1
      rw [if_neg hw, decide_eq_false hm, if_neg Bool.false_ne_true]
      refine ⟨hle, hiff.trans ⟨fun h => ⟨fun hn => absurd hn hw, h⟩, And.right⟩⟩

variable {chain : List Descriptor} {hdr last : Descriptor} {header : List U8}

/-- The state the loop over the data descriptors starts from. -/
def loopStart (disk : List U8) (m : Dma) (header : List U8) : BlockLoop :=
  ⟨disk, if (blockHeader header).2.toNat * SECTOR < 2 ^ 64 then some ((blockHeader header).2.toNat * SECTOR) else none, 0, true, m⟩

/-- The state it ends in. -/
def loopEnd (disk : List U8) (m : Dma) (chain : List Descriptor) (header : List U8) : BlockLoop :=
  chain.tail.dropLast.foldl (BlockLoop.step (blockHeader header).1) (loopStart disk m header)

theorem serviceBlock_eq (h : Request chain m hdr last header) (disk : List U8) : serviceBlock disk chain m =
    (some ((loopEnd disk m chain header).written + 1), (loopEnd disk m chain header).disk,
      ((loopEnd disk m chain header).dma.guestWrite last.addr [if (loopEnd disk m chain header).ok then 0 else 1]).2) := by
  unfold serviceBlock
  rw [h.first, h.end_]
  dsimp only
  rw [h.readable]
  dsimp only
  rw [if_neg (by have := h.two; omega)]
  rfl

/-- What the loop says of the request: its status is right but for a request of another kind without data. -/
theorem loopEnd_ok (hd : disk.length < 2 ^ 64) : (loopEnd disk m chain header).ok =
    (decide (Done disk m chain header) ||
      decide (requestParts chain header = [] ∧ (blockHeader header).1 ≠ VIRTIO_BLK_T_IN ∧
        (blockHeader header).1 ≠ VIRTIO_BLK_T_OUT)) := by
  have hat : (loopStart disk m header).At ((blockHeader header).2.toNat * SECTOR) := rfl
  rw [Bool.eq_iff_iff, Bool.or_eq_true, decide_eq_true_iff, decide_eq_true_iff]
  unfold loopEnd Done
  by_cases hin : (blockHeader header).1 = VIRTIO_BLK_T_IN
  · rw [hin, (blockLoop_read _ hat hd).2.1]
    have hne : VIRTIO_BLK_T_IN ≠ VIRTIO_BLK_T_OUT := by decide
    simp only [loopStart, Bool.true_and, true_and, hne, false_and, or_false, ne_eq, not_true_eq_false, and_false]
    exact decide_eq_true_iff
  · by_cases hout : (blockHeader header).1 = VIRTIO_BLK_T_OUT
    · rw [hout, (blockLoop_write _ hat hd).2.1]
      have hne : VIRTIO_BLK_T_OUT ≠ VIRTIO_BLK_T_IN := by decide
      simp only [loopStart, Bool.true_and, true_and, hne, false_and, false_or, or_false, ne_eq, not_true_eq_false, and_false]
      exact decide_eq_true_iff
    · rw [(blockLoop_other hin hout _ _).2.2]
      simp only [loopStart, Bool.true_and, hin, hout, false_and, false_or, ne_eq, not_false_eq_true, and_true, List.isEmpty_iff]
      exact placed_eq_nil.symm

theorem guestSlice_written {addr : U64} {b : U8} (h : m.InRam addr 1) : (m.guestWrite addr [b]).2.guestSlice addr 1 = some [b] := by
  obtain ⟨off, ho⟩ := Option.isSome_iff_exists.1 (inRam_iff.2 h)
  unfold guestSlice
  rw [(guestWrite_sameRam m addr [b]).offset, ho, Option.map_some, List.range_one, List.map_singleton, guestWrite_mem
    ho]
  simp

theorem loopEnd_written (disk : List U8) (m : Dma) (chain : List Descriptor) (header : List U8) :
    ((loopEnd disk m chain header).written + 1).toNat ≡ blockWritten (blockHeader header).1 chain.tail.dropLast [MOD 2 ^ 32] := by
  have h := blockLoop_written (blockHeader header).1 chain.tail.dropLast (loopStart disk m header)
  rw [BitVec.toNat_add]
  refine (Nat.mod_modEq _ _).trans (h.trans ?_)
  change 0 + _ ≡ _ [MOD 2 ^ 32]
  rw [Nat.zero_add]

/-- The used length is right exactly if a read moves every buffer that is not empty. -/
theorem loopEnd_used (hfit : blockWritten (blockHeader header).1 chain.tail.dropLast < 2 ^ 32) :
    ((loopEnd disk m chain header).written + 1).toNat = bytesRead disk m chain header + 1 ↔
      ((blockHeader header).1 = VIRTIO_BLK_T_IN →
        ∀ x ∈ requestParts chain header, x.1.writable = true → x.1.len ≠ 0 → Movable disk m true x) := by
  have hcount : ((loopEnd disk m chain header).written + 1).toNat = blockWritten (blockHeader header).1 chain.tail.dropLast :=
    Nat.ModEq.eq_of_lt_of_lt (loopEnd_written disk m chain header) (BitVec.isLt _) hfit
  rw [hcount]
  unfold bytesRead
  by_cases hin : (blockHeader header).1 = VIRTIO_BLK_T_IN
  · rw [if_pos hin, hin, blockWritten_read (p := (blockHeader header).2.toNat * SECTOR), Nat.add_right_cancel_iff, eq_comm]
    exact (partBytes_moved (requestParts chain header)).2.trans ⟨fun h _ => h, fun h => h rfl⟩
  · rw [if_neg hin, blockWritten_other hin]
    exact ⟨fun _ h => absurd h hin, fun _ => rfl⟩

theorem done_kind (h : Done disk m chain header) : (blockHeader header).1 = VIRTIO_BLK_T_IN ∨
    (blockHeader header).1 = VIRTIO_BLK_T_OUT :=
  h.imp And.left And.left

/-- A request of no data is done if it is a read or a write. -/
theorem loopEnd_status (hd : disk.length < 2 ^ 64) : ((loopEnd disk m chain header).ok = decide (Done disk m chain header)) ↔
    (requestParts chain header = [] → (blockHeader header).1 = VIRTIO_BLK_T_IN ∨ (blockHeader header).1 = VIRTIO_BLK_T_OUT) := by
  rw [loopEnd_ok hd]
  by_cases hdone : Done disk m chain header
  · rw [decide_eq_true hdone, Bool.true_or]
    exact ⟨fun _ _ => done_kind hdone, fun _ => rfl⟩
  · rw [decide_eq_false hdone, Bool.false_or, decide_eq_false_iff_not, not_and, ← not_or]
    exact imp_congr_right fun _ => not_not

/-- **The report is right** exactly if the request is a read or a write or has data,
  and a read moves every buffer that is not empty, of
a total that fits the used length. -/
theorem reports_iff (hd : disk.length < 2 ^ 64) (h : Request chain m hdr last header) :
    Reports disk m chain last header (serviceBlock disk chain m) ↔ Reportable disk m chain header := by
  rw [serviceBlock_eq h]
  have hat : (loopStart disk m header).At ((blockHeader header).2.toNat * SECTOR) := rfl
  have hsame : SameRam m (loopEnd disk m chain header).dma := blockLoop_rel dmaRel_sameRam _ _ _
  have hstatus (b : U8) : ((loopEnd disk m chain header).dma.guestWrite last.addr [b]).2.guestSlice last.addr 1 = some [b] :=
    guestSlice_written (by rw [← inRam_iff, hsame.offset, inRam_iff]; exact h.status)
  constructor
  · intro hr
    have hok : (loopEnd disk m chain header).ok = decide (Done disk m chain header) := by
      have hb := (hstatus _).symm.trans hr.status
      by_cases hdone : Done disk m chain header
      · cases ho : (loopEnd disk m chain header).ok
        · rw [if_pos hdone, ho] at hb
          exact absurd hb (by decide)
        · exact (decide_eq_true hdone).symm
      · cases ho : (loopEnd disk m chain header).ok
        · exact (decide_eq_false hdone).symm
        · rw [if_neg hdone, ho] at hb
          exact absurd hb (by decide)
    obtain ⟨written, hw, hlen⟩ := hr.used
    obtain rfl := Option.some.inj hw
    exact ⟨(loopEnd_status hd).1 hok, (loopEnd_used hr.fits).1 hlen, hr.fits⟩
  · intro hr
    have hok := (loopEnd_status (m := m) hd).2 hr.kind
    have hbyte : (if (loopEnd disk m chain header).ok then (0 : U8) else 1) = if Done disk m chain header then 0 else 1 := by
      rw [hok]
      by_cases hdone : Done disk m chain header
      · rw [if_pos (decide_eq_true hdone), if_pos hdone]
      · rw [if_neg (by rw [decide_eq_false hdone]; exact Bool.false_ne_true), if_neg hdone]
    rw [hbyte]
    refine ⟨hstatus _, fun hin => ?_, fun hout => ?_, ⟨_, rfl, (loopEnd_used hr.fits).2 hr.moved⟩, hr.fits⟩
    · obtain ⟨h1, -, h3⟩ := blockLoop_read chain.tail.dropLast hat hd
      rw [← hin] at h1 h3
      exact ⟨h1, congrArg (fun m : Dma => (m.guestWrite last.addr [_]).2) h3⟩
    · obtain ⟨h1, -, h3⟩ := blockLoop_write chain.tail.dropLast hat hd
      rw [← hout] at h1 h3
      exact ⟨h3, congrArg (fun m : Dma => (m.guestWrite last.addr [_]).2) h1⟩

/-! ## One request of each kind -/

/-- RAM whose first byte is the type of a request for the first sector. -/
def typedRam (reqType : U8) : FlatMemory where
  base := RAM_BASE
  len := 4096
  mem := fun i => if i = 0 then reqType else 0
  fits := RAM_page_fits
  len_lt := page_len_lt

def typedDma (reqType : U8) : Dma := ⟨typedRam reqType, .new 4096, 1⟩

def typedHeader (reqType : U8) : List U8 := reqType :: List.replicate 15 0

/-- A header, data descriptors, and a status byte. -/
def typedChain (body : List Descriptor) : List Descriptor := ⟨RAM_BASE, 16, false⟩ :: (body ++ [⟨RAM_BASE + 128, 1, true⟩])

theorem typed_request (reqType : U8) (body : List Descriptor) :
    Request (typedChain body) (typedDma reqType) ⟨RAM_BASE, 16, false⟩ ⟨RAM_BASE + 128, 1, true⟩ (typedHeader reqType) := by
  refine ⟨rfl, ?_, ?_, ?_, rfl, ?_⟩
  · unfold typedChain
    rw [← List.cons_append, List.getLast?_concat]
  · unfold typedChain
    rw [List.length_cons, List.length_append, List.length_singleton]
    omega
  · have hoff : (typedDma reqType).ram.offset RAM_BASE 16 = some 0 := by
      unfold typedDma typedRam FlatMemory.offset
      dsimp only
      rfl
    unfold Dma.guestSlice
    rw [hoff]
    rfl
  · unfold Dma.InRam typedDma typedRam
    dsimp only
    decide

/-- A read of four bytes. -/
theorem reports_iff_read : Reports [1, 2, 3, 4] (typedDma 0) (typedChain [⟨RAM_BASE + 64, 4, true⟩]) ⟨RAM_BASE + 128, 1, true⟩
    (typedHeader 0)
    (serviceBlock [1, 2, 3, 4] (typedChain [⟨RAM_BASE + 64, 4, true⟩]) (typedDma 0)) :=
  (reports_iff (by decide) (typed_request 0 _)).2 ⟨by decide, by decide, by decide⟩

/-- A flush without data is reported done, and so is not what it says; a read into a buffer outside the RAM fails,
  and is reported to have
written four bytes and the status. -/
theorem report_misses :
    (Request (typedChain []) (typedDma 4) ⟨RAM_BASE, 16, false⟩ ⟨RAM_BASE + 128, 1, true⟩ (typedHeader 4) ∧
      (serviceBlock [1, 2, 3, 4] (typedChain []) (typedDma 4)).2.2.guestSlice (RAM_BASE + 128) 1 = some [0] ∧
        ¬Done [1, 2, 3, 4] (typedDma 4) (typedChain []) (typedHeader 4)) ∧
    (Request (typedChain [⟨0, 4, true⟩]) (typedDma 0) ⟨RAM_BASE, 16, false⟩ ⟨RAM_BASE + 128, 1, true⟩ (typedHeader 0) ∧
      (serviceBlock [1, 2, 3, 4] (typedChain [⟨0, 4, true⟩]) (typedDma 0)).1 = some 5 ∧
        bytesRead [1, 2, 3, 4] (typedDma 0) (typedChain [⟨0, 4, true⟩]) (typedHeader 0) + 1 = 1) :=
  ⟨⟨typed_request 4 [], by decide, by decide⟩, typed_request 0 _, by decide, by decide⟩

end VirtioDev
end Lish
