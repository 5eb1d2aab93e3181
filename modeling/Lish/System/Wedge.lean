import Lish.System.DmaRuns
/-!
# Wedge — every chain leaves the head of its queue

A pass publishes a used entry for the chain it finds, or leaves its request with the host.  One shape stays: a chain of one descriptor
on an in-memory disk whose header can be read.
-/
namespace Lish
namespace VirtioDev

open Dma

variable {d d' : VirtioDev} {m m' : Dma} {q : Queue} {qi : Fin 2} {n : ℕ}

/-! ## Rings in RAM -/

/-- A queue is set up: it has entries, and its rings and its descriptor table lie in RAM. -/
structure SetUp (q : Queue) (m : Dma) : Prop where
  num : q.num ≠ 0
  desc : m.InRam q.desc (16 * q.num.toNat)
  avail : m.InRam q.avail (4 + 2 * q.num.toNat)
  used : m.InRam q.used (4 + 8 * q.num.toNat)

/-- The descriptors a walk visits have indices below the size of the queue. -/
def Indexed (m : Dma) (q : Queue) : ℕ → U64 → Prop
  | 0, _ => True
  | n + 1, di => di.toNat < q.num.toNat ∧ ∀ flags next, m.read16 (q.desc + di * 16 + 12) = some flags → flags &&& 1 ≠ 0 →
      m.read16 (q.desc + di * 16 + 14) = some next → Indexed m q n (next.setWidth 64)

/-- Where the ring has the head of the next chain. -/
def headAddr (q : Queue) : U64 := q.avail + (4 + q.lastAvailIdx.setWidth 64 % q.num.setWidth 64 * 2)

/-- A chain is available, of descriptors of the table. -/
structure Offers (q : Queue) (m : Dma) : Prop where
  waiting : availIdx m q ≠ some q.lastAvailIdx
  indexed : ∀ head, m.read16 (headAddr q) = some head → Indexed m q q.num.toNat (head.setWidth 64)

/-- A part of a range in RAM is reached by checked addition. -/
theorem part_inRam {addr b : U64} {total k : ℕ} (h : m.InRam addr total) (hb : b.toNat = k) (hk : k + n ≤ total) (hn : 0 < n) :
    checkedAdd addr b = some (addr + b) ∧ m.InRam (addr + b) n := by
  obtain ⟨h1, h2⟩ := h
  have hfits := m.ram.fits
  have hsum : (addr + b).toNat = addr.toNat + k := by
    rw [BitVec.toNat_add, hb, Nat.mod_eq_of_lt (by omega)]
  refine ⟨?_, ?_, ?_⟩
  · unfold checkedAdd
    rw [hb, if_pos (by omega)]
  · omega
  · omega

theorem read_inRam {addr : U64} (h : m.InRam addr n) : ∃ v, m.read addr n = some v := by
  obtain ⟨off, ho⟩ := Option.isSome_iff_exists.1 (inRam_iff.2 h)
  exact ⟨_, by unfold Dma.read; rw [ho]; rfl⟩

theorem read16_inRam {addr : U64} (h : m.InRam addr 2) : ∃ v, m.read16 addr = some v := by
  obtain ⟨v, hv⟩ := read_inRam h
  exact ⟨_, by unfold Dma.read16; rw [hv]; rfl⟩

/-- **A walk over the table** finds a descriptor at each step. -/
theorem walkChain_some (hs : SetUp q m) {di : U64} (h : Indexed m q n di) (hn : n ≠ 0) :
    ∃ desc chain, walkChain m q.desc n di = some (desc :: chain) := by
  induction n generalizing di with
  | zero => exact absurd rfl hn
  | succ n ih =>
    obtain ⟨hdi, hnext⟩ := h
    have hnum := q.num.isLt
    have hmul : checkedMul di 16 = some (di * 16) := by
      unfold checkedMul
      rw [show (16 : U64).toNat = 16 from rfl, if_pos (by omega)]
    have hval : (di * 16).toNat = 16 * di.toNat := by
      rw [BitVec.toNat_mul, show (16 : U64).toNat = 16 from rfl, Nat.mod_eq_of_lt (by omega), Nat.mul_comm]
    obtain ⟨hbase, hin⟩ := part_inRam (n := 16) hs.desc hval (by omega) (by decide)
    obtain ⟨addr, haddr⟩ := read_inRam (m := m) (n := 8) ⟨hin.1, by have := hin.2; omega⟩
    obtain ⟨h8, hin8⟩ := part_inRam (b := 8) (k := 8) (n := 4) hin rfl (by decide) (by decide)
    obtain ⟨h12, hin12⟩ := part_inRam (b := 12) (k := 12) (n := 2) hin rfl (by decide) (by decide)
    obtain ⟨h14, hin14⟩ := part_inRam (b := 14) (k := 14) (n := 2) hin rfl (by decide) (by decide)
    obtain ⟨len, hlen⟩ := read_inRam hin8
    obtain ⟨flags, hflags⟩ := read16_inRam hin12
    obtain ⟨next, hnextv⟩ := read16_inRam hin14
    unfold walkChain
    simp only [hmul, hbase, h8, h12, h14, Dma.read64, Dma.read32, haddr, hlen, hflags, hnextv, Option.bind_eq_bind, Option.bind_some, Option.map_some]
    by_cases hf : flags &&& 1 = 0
    · rw [if_pos hf]
      exact ⟨_, [], rfl⟩
    · rw [if_neg hf]
      have hrest : ∃ rest, walkChain m q.desc n (next.setWidth 64) = some rest := by
        cases n with
        | zero => exact ⟨[], rfl⟩
        | succ n =>
          obtain ⟨desc, chain, hc⟩ := ih (hnext flags next hflags hf hnextv) (Nat.succ_ne_zero n)
          exact ⟨_, hc⟩
      obtain ⟨rest, hrest⟩ := hrest
      rw [hrest]
      exact ⟨_, rest, rfl⟩

/-- **An available chain** is found. -/
theorem consumed_some (hs : SetUp (d.queues qi) m) (ho : Offers (d.queues qi) m) :
    ∃ a, consumed qi (d, m) = some a ∧ a.chain ≠ [] ∧ m.read16 (headAddr (d.queues qi)) = some a.head := by
  obtain ⟨q, hq⟩ : ∃ q, q = d.queues qi := ⟨_, rfl⟩
  rw [← hq] at hs ho ⊢
  have hpos : 0 < q.num.toNat := Nat.pos_of_ne_zero fun h0 => hs.num (BitVec.eq_of_toNat_eq h0)
  obtain ⟨hidx, hidxIn⟩ := part_inRam (b := 2) (k := 2) (n := 2) hs.avail rfl (by omega) (by decide)
  obtain ⟨idx, hidxv⟩ := read16_inRam hidxIn
  have havail : availIdx m q = some idx := by
    unfold availIdx
    rw [hidx]
    exact hidxv
  have hslot := slot_toNat q.lastAvailIdx q.num 4 2 (by decide) (by decide)
  have hmod := Nat.mod_lt q.lastAvailIdx.toNat hpos
  obtain ⟨hhead, hheadIn⟩ := part_inRam (n := 2) hs.avail hslot (by omega) (by decide)
  obtain ⟨head, hheadv⟩ := read16_inRam hheadIn
  obtain ⟨desc, chain, hwalk⟩ := walkChain_some hs (ho.indexed head hheadv) (by omega)
  obtain ⟨hused, husedIn⟩ := part_inRam (b := 2) (k := 2) (n := 2) hs.used rfl (by omega) (by decide)
  obtain ⟨usedIdx, husedv⟩ := read16_inRam husedIn
  have huslot := slot_toNat usedIdx q.num 4 8 (by decide) (by decide)
  have humod := Nat.mod_lt usedIdx.toNat hpos
  obtain ⟨hentry, hentryIn⟩ := part_inRam (n := 8) hs.used huslot (by omega) (by decide)
  obtain ⟨off, hoff⟩ := Option.isSome_iff_exists.1 (inRam_iff.2 hentryIn)
  have hnext : nextAvail m q = some ⟨head, desc :: chain, q.used + 2,
      q.used + (BitVec.ofNat 64 4 + usedIdx.setWidth 64 % q.num.setWidth 64 * BitVec.ofNat 64 8), usedIdx⟩ := by
    unfold nextAvail
    dsimp only
    simp only [show (4 : U64) = BitVec.ofNat 64 4 from rfl, show (2 : U64) = BitVec.ofNat 64 2 from rfl, show (8 : U64) = BitVec.ofNat 64 8 from rfl] at *
    simp only [hhead, hheadv, hwalk, hused, husedv, hentry, hoff, Option.bind_eq_bind, Option.bind_some]
  refine ⟨⟨head, desc :: chain, q.used + 2,
    q.used + (BitVec.ofNat 64 4 + usedIdx.setWidth 64 % q.num.setWidth 64 * BitVec.ofNat 64 8), usedIdx⟩, ?_, List.cons_ne_nil desc chain, hheadv⟩
  unfold consumed
  dsimp only
  rw [← hq, if_neg hs.num, havail, Option.bind_some, if_neg fun he => ho.waiting (by rw [havail, he]), hnext]

/-! ## Chains that are serviced -/

/-- A pass publishes a used entry for a chain and moves on. -/
structure Publishes (qi : Fin 2) (s : VirtioDev × Dma) (a : Avail) (s' : VirtioDev × Dma) : Prop where
  pass : pass qi s.1 s.2 = .next s'
  moved : (s'.1.queues qi).lastAvailIdx = (s.1.queues qi).lastAvailIdx + 1
  head : s'.2.read32 a.usedEntry = some (a.head.setWidth 32)
  index : s'.2.read16 a.usedIndexAddr = some (a.usedIdx + 1)

/-- A pass leaves the request of a chain with the host, and with it where its completion publishes. -/
structure Records (qi : Fin 2) (s : VirtioDev × Dma) (a : Avail) (s' : VirtioDev × Dma) (r : PendingBlockRequest) : Prop where
  pass : pass qi s.1 s.2 = .done s'
  pending : s'.1.pendingBlockRequest = some r
  queue : r.queueIndex = qi
  head : r.head = a.head
  entry : r.usedEntry = a.usedEntry ∧ r.usedIndexAddr = a.usedIndexAddr ∧ r.usedIdx = a.usedIdx

/-- A chain does not stay at the head of its queue. -/
def Handled (qi : Fin 2) (s : VirtioDev × Dma) (a : Avail) : Prop := (∃ s', Publishes qi s a s') ∨ ∃ s' r, Records qi s a s' r

/-- The chain is a header alone, on an in-memory disk that can read it. -/
def LoneHeader (d : VirtioDev) (a : Avail) (m : Dma) : Prop :=
  ∃ disk hdr, d.backend = .block disk ∧ a.chain = [hdr] ∧ m.InRam hdr.addr 16

/-- A queue that the device answers by itself or with the host: any of a disk, the transmit queue of a network device. -/
def Answers (d : VirtioDev) (qi : Fin 2) : Prop :=
  match d.backend with
  | .net _ _ _ => qi = 1
  | _ => True

theorem publishes_of_service {s : VirtioDev × Dma} {a : Avail} (ha : consumed qi s = some a) (written : U32)
    (hs : (s.1.service qi a.chain s.2).1 = some written) : ∃ s', Publishes qi s a s' := by
  rcases hr : s.1.service qi a.chain s.2 with ⟨w, d₁, m₁⟩
  rw [hr] at hs
  obtain rfl : w = some written := hs
  have hk := service_keeps s.1 qi a.chain s.2
  rw [hr] at hk
  obtain ⟨-, hidx, -, hentry⟩ := nextAvail_used (nextAvail_of_consumed ha)
  have hidxIn : (s.2.ram.offset a.usedIndexAddr 2).isSome := by
    rw [← read16_isSome, hidx]
    rfl
  refine ⟨(d₁.advance qi, publish m₁ a.usedEntry a.usedIndexAddr a.head a.usedIdx written), ?_, ?_, ?_, ?_⟩
  · rw [pass_eq, show consumed qi (s.1, s.2) = some a from ha]
    dsimp only
    rw [hr]
  · unfold advance setQueue
    dsimp only at hk ⊢
    rw [if_pos rfl, hk.1]
  · exact publish_head m₁ a.head a.usedIdx written (by rw [hk.2.offset]; exact hentry) (nextAvail_apart (nextAvail_of_consumed ha))
  · exact publish_idx m₁ a.usedEntry a.usedIndexAddr a.head a.usedIdx written (by rw [hk.2.offset]; exact hidxIn)

/-- An in-memory disk answers every chain but a header alone. -/
theorem serviceBlock_some {disk : List U8} {chain : List Descriptor} (hc : chain ≠ []) :
    (∃ written, (serviceBlock disk chain m).1 = some written) ∨ ∃ hdr, chain = [hdr] ∧ m.InRam hdr.addr 16 := by
  obtain ⟨hdr, rest, rfl⟩ := List.exists_cons_of_ne_nil hc
  unfold serviceBlock
  rw [List.head?_cons, List.getLast?_eq_some_getLast hc]
  dsimp only
  cases hg : m.guestSlice hdr.addr 16 with
  | none => exact .inl ⟨0, rfl⟩
  | some header =>
    dsimp only
    split
    · rename_i hlt
      refine .inr ⟨hdr, ?_, ?_⟩
      · cases rest with
        | nil => rfl
        | cons b bs => exact absurd hlt (by simp)
      · rw [← inRam_iff]
        unfold guestSlice at hg
        obtain ⟨off, ho, -⟩ := Option.map_eq_some_iff.1 hg
        exact Option.isSome_iff_exists.2 ⟨off, ho⟩
    · exact .inl ⟨_, rfl⟩

theorem serviceBlock_lone {disk : List U8} {hdr : Descriptor} (h : m.InRam hdr.addr 16) : serviceBlock disk [hdr] m = (none, disk, m) := by
  obtain ⟨off, ho⟩ := Option.isSome_iff_exists.1 (inRam_iff.2 h)
  unfold serviceBlock guestSlice
  rw [List.head?_cons, List.getLast?_singleton]
  dsimp only
  rw [ho]
  rfl

/-- **A chain stays** exactly if it is a header alone on an in-memory disk. -/
theorem handled_iff {s : VirtioDev × Dma} {a : Avail} (hnone : s.1.pendingBlockRequest = none) (hans : s.1.Answers qi)
    (ha : consumed qi s = some a) (hc : a.chain ≠ []) : Handled qi s a ↔ ¬LoneHeader s.1 a s.2 := by
  constructor
  · rintro hh ⟨disk, hdr, hb, hchain, hin⟩
    have hsv : s.1.service qi a.chain s.2 = (none, { s.1 with backend := .block disk }, s.2) := by
      unfold service
      rw [hb, hchain]
      dsimp only
      rw [serviceBlock_lone hin]
    have hpass : pass qi s.1 s.2 = .done ({ s.1 with backend := .block disk }, s.2) := by
      rw [pass_eq, show consumed qi (s.1, s.2) = some a from ha]
      dsimp only
      rw [hsv]
      rfl
    rcases hh with ⟨s', hp⟩ | ⟨s', r, hp⟩
    · have := hp.pass
      rw [hpass] at this
      cases this
    · have := hp.pass
      rw [hpass] at this
      cases this
      have := hp.pending
      cases this
  · intro hn
    cases hb : s.1.backend with
    | block disk =>
      rcases serviceBlock_some (m := s.2) hc with ⟨written, hw⟩ | ⟨hdr, hchain, hin⟩
      · refine .inl (publishes_of_service ha written ?_)
        unfold service
        rw [hb]
        exact hw
      · exact absurd ⟨disk, hdr, hb, hchain, hin⟩ hn
    | externalBlock size pending =>
      have hb' : s.1.backend = .externalBlock size none := by
        unfold pendingBlockRequest at hnone
        rw [hb] at hnone
        rw [hb, show pending = none from hnone]
      rcases service_external hb' qi a.chain s.2 with ⟨written, m₁, hs⟩ | ⟨r, hs, hqi, hq, -, -⟩
      · exact .inl (publishes_of_service ha written (by rw [hs]))
      · refine .inr ⟨(notePending { s.1 with backend := .externalBlock size (some r) } a,
          { s.2 with nextBlockRequestId := s.2.nextBlockRequestId + 1 }), { r with head := a.head, usedIndexAddr := a.usedIndexAddr, usedEntry := a.usedEntry, usedIdx := a.usedIdx },
          ?_, ?_, hq.trans hqi.symm, rfl, rfl, rfl, rfl⟩
        · rw [pass_eq, show consumed qi (s.1, s.2) = some a from ha]
          dsimp only
          rw [hs]
        · exact notePending_request { s.1 with backend := .externalBlock size (some r) } a
    | net mac inbox outbox =>
      unfold Answers at hans
      rw [hb] at hans
      refine .inl (publishes_of_service ha 0 ?_)
      unfold service
      rw [hb, show qi = 1 from hans]
      rfl

/-- The passes of a call leave no request with the host before the last. -/
theorem after_pendingNone {k : ℕ} {s : VirtioDev × Dma} (hnone : d.pendingBlockRequest = none)
    (hs : Loop.after (passBody qi) k (d, m) = some s) : s.1.pendingBlockRequest = none := by
  induction k generalizing d m with
  | zero =>
    obtain rfl : (d, m) = s := Option.some.inj hs
    exact hnone
  | succ k ih =>
    cases hp : pass qi d m with
    | done r =>
      rw [Loop.after, passBody, hp] at hs
      cases hs
    | next t =>
      rw [Loop.after_next (show passBody qi (d, m) = some (.next t) from congrArg some hp)] at hs
      exact ih ((pass_request hnone).1 t.1 t.2 hp) hs

/-- **No chain wedges a queue** but a header alone on an in-memory disk: whatever pass of a call of `process` comes to it, it is published
or left with the host. -/
theorem chain_handled_iff {k : ℕ} {s : VirtioDev × Dma} (hq : d.activeQueue n = some qi) (hs : Loop.after (passBody qi) k (d, m) = some s)
    (hans : s.1.Answers qi) (hset : SetUp (s.1.queues qi) s.2) (hoffers : Offers (s.1.queues qi) s.2) :
    ∃ a, consumed qi s = some a ∧ s.2.read16 (headAddr (s.1.queues qi)) = some a.head ∧ (Handled qi s a ↔ ¬LoneHeader s.1 a s.2) := by
  obtain ⟨a, ha, hc, hhead⟩ := consumed_some (d := s.1) hset hoffers
  exact ⟨a, ha, hhead, handled_iff (after_pendingNone (activeQueue_pending hq) hs) hans ha hc⟩

/-! ## A header alone -/

/-- RAM with one descriptor, a header of 16 bytes, and one entry available. -/
def loneRam : FlatMemory where
  base := RAM_BASE
  len := 4096
  mem := fun i => ([(0x41, 2), (0x43, 0x80), (0x48, 16), (0x102, 1)].lookup i).getD 0
  fits := RAM_page_fits
  len_lt := page_len_lt

def loneDma : Dma := ⟨loneRam, .new 4096, 1⟩

theorem statusDisk_setUp (m : Dma) (h : m.ram.base = RAM_BASE ∧ m.ram.len = 4096) : SetUp (statusDisk.queues 0) m := by
  obtain ⟨hb, hl⟩ := h
  refine ⟨by decide, ?_, ?_, ?_⟩
  all_goals
    unfold Dma.InRam
    rw [hb, hl]
    decide

/-- With a status descriptor after the header. -/
theorem chain_handled_iff_status : ∃ a, consumed 0 (statusDisk, statusDma 2) = some a ∧ Handled 0 (statusDisk, statusDma 2) a := by
  have hoffers : Offers (statusDisk.queues 0) (statusDma 2) := by
    refine ⟨by decide, fun head hh => ?_⟩
    obtain rfl : 0 = head := Option.some.inj ((show (statusDma 2).read16 (headAddr (statusDisk.queues 0)) = some 0 by decide).symm.trans hh)
    refine ⟨by decide, fun flags next hf hne hx => ⟨?_, fun flags' next' hf' hne' _ => ?_⟩⟩
    · obtain rfl : 1 = next := Option.some.inj ((show (statusDma 2).read16 ((statusDisk.queues 0).desc + 0 * 16 + 14) = some 1 by decide).symm.trans hx)
      decide
    · obtain rfl : 1 = next := Option.some.inj ((show (statusDma 2).read16 ((statusDisk.queues 0).desc + 0 * 16 + 14) = some 1 by decide).symm.trans hx)
      trivial
  obtain ⟨a, (ha : consumed 0 (statusDisk, statusDma 2) = some a), -, hiff⟩ :=
    chain_handled_iff (d := statusDisk) (m := statusDma 2) (n := 0) (k := 0) rfl rfl trivial
      (statusDisk_setUp _ ⟨rfl, rfl⟩) hoffers
  refine ⟨a, ha, hiff.2 ?_⟩
  rintro ⟨disk, hdr, -, hchain, -⟩
  have hlen : (consumed 0 (statusDisk, statusDma 2)).all fun a => decide (a.chain.length = 2) := by decide
  rw [ha, Option.all_some, decide_eq_true_eq, hchain] at hlen
  cases hlen

/-- A header alone stays at the head of the queue of an in-memory disk, however often the queue is processed. -/
theorem lone_header_wedges : SetUp (statusDisk.queues 0) loneDma ∧ Offers (statusDisk.queues 0) loneDma ∧
    (∀ fuel, statusDisk.process (fuel + 1) 0 loneDma = some (statusDisk, loneDma)) ∧
      ¬∃ a, consumed 0 (statusDisk, loneDma) = some a ∧ Handled 0 (statusDisk, loneDma) a := by
  have hpass : pass 0 statusDisk loneDma = .done (statusDisk, loneDma) := rfl
  refine ⟨statusDisk_setUp _ ⟨rfl, rfl⟩, ⟨by decide, fun head hh => ?_⟩, fun fuel => ?_, ?_⟩
  · obtain rfl : 0 = head := Option.some.inj ((show loneDma.read16 (headAddr (statusDisk.queues 0)) = some 0 by decide).symm.trans hh)
    refine ⟨by decide, fun flags next hf hne _ => ?_⟩
    obtain rfl : 0 = flags := Option.some.inj ((show loneDma.read16 ((statusDisk.queues 0).desc + 0 * 16 + 12) = some 0 by decide).symm.trans hf)
    exact absurd rfl hne
  · exact Loop.run_done (show passBody 0 (statusDisk, loneDma) = some (.done (statusDisk, loneDma)) from congrArg some hpass) fuel
  · rintro ⟨a, -, ⟨s', hp⟩ | ⟨s', r, hp⟩⟩
    · have := hp.pass
      rw [hpass] at this
      cases this
    · have hd := hp.pass
      rw [hpass] at hd
      cases hd
      have := hp.pending
      cases this

end VirtioDev
end Lish
