import Lish.System.BlockCommit
/-!
# NetFrames — a network device moves whole frames in order

A log beside the device records the frames it accepts from the host, the chains it has handed a frame in, the chains the guest has
submitted and the frames the host has collected.  A frame that passes the test of its size is stored part by part, and is whole if
each part lies in RAM.
-/
namespace Lish
namespace VirtioDev

open Dma

variable {d d' : VirtioDev} {m m' : Dma} {qi : Fin 2} {inbox outbox : List (List U8)} {mac : Fin 6 → U8}

/-! ## A frame over the descriptors of a chain -/

/-- The addresses of a chain that the device may write, in order. -/
def writableBytes (chain : List Descriptor) : List ℕ := bufferBytes ((chain.filter (·.writable)).map fun desc => (desc.addr,
    desc.len))

/-- The parts of the writable descriptors that so many bytes are stored in. -/
def frameParts : ℕ → List Descriptor → List (U64 × ℕ)
  | _, [] => []
  | n, desc :: rest =>
    if !desc.writable ∨ n = 0 then frameParts n rest
    else (desc.addr, min n desc.len.toNat) :: frameParts (n - min n desc.len.toNat) rest

theorem writableBytes_cons (desc : Descriptor) (rest : List Descriptor) : writableBytes (desc :: rest) =
    (if desc.writable then List.range' desc.addr.toNat desc.len.toNat else []) ++ writableBytes rest := by
  unfold writableBytes
  rw [List.filter_cons]
  by_cases hw : desc.writable = true
  · rw [if_pos hw, if_pos hw]
    rfl
  · rw [if_neg hw, if_neg hw]
    rfl

theorem writableBytes_length (chain : List Descriptor) :
    (writableBytes chain).length = ((chain.filter (·.writable)).map (·.len.toNat)).sum := by
  induction chain with
  | nil => rfl
  | cons desc rest ih =>
    rw [writableBytes_cons, List.length_append, ih, List.filter_cons]
    by_cases hw : desc.writable = true
    · rw [if_pos hw, if_pos hw, List.length_range', List.map_cons, List.sum_cons]
    · rw [if_neg hw, if_neg hw, List.length_nil, Nat.zero_add]

/-- **Scattered bytes** are all stored, in order, if their parts lie in RAM. -/
theorem scatter_stored (src : List U8) (chain : List Descriptor) (written : ℕ) (m : Dma)
    (hin : ∀ part ∈ frameParts (src.length - written) chain, m.InRam part.1 part.2) :
    (scatter src chain written m).1 = written + min (src.length - written) (writableBytes chain).length ∧
      ∀ i, (scatter src chain written m).2.ram.mem i =
        (lastStored ((writableBytes chain).zip (src.drop written)) (m.ram.base.toNat + i)).getD (m.ram.mem i) := by
  induction chain generalizing written m with
  | nil => exact ⟨by rw [show (writableBytes []).length = 0 from rfl, Nat.min_zero]; rfl, fun _ => rfl⟩
  | cons desc rest ih =>
    rw [frameParts] at hin
    rw [scatter]
    by_cases hw : !desc.writable ∨ written ≥ src.length
    · rw [if_pos hw]
      rw [if_pos (hw.imp_right (by omega))] at hin
      obtain ⟨hcount, hmem⟩ := ih written m hin
      rcases hw with hw | hw
      · have hw' : ¬desc.writable = true := by simpa using hw
        rw [writableBytes_cons, if_neg hw', List.nil_append]
        exact ⟨hcount, hmem⟩
      · have hdrop : src.drop written = [] := List.drop_eq_nil_of_le hw
        rw [hdrop, List.zip_nil_right] at hmem ⊢
        rw [show src.length - written = 0 by omega, Nat.zero_min] at hcount ⊢
        exact ⟨hcount, hmem⟩
    · have hwritable : desc.writable = true := by
        by_contra hn
        exact hw (Or.inl (by simpa using hn))
      have hlt : written < src.length := by
        by_contra hn
        exact hw (Or.inr (by omega))
      rw [if_neg (by simpa [hwritable] using by omega), List.forall_mem_cons] at hin
      obtain ⟨hpart, hrest⟩ := hin
      -- the part is as much of what is left as the descriptor takes
      have htake : (src.drop written).take (min (src.length - written) desc.len.toNat) =
        (src.drop written).take desc.len.toNat := by
        rw [List.take_eq_take_min (i := desc.len.toNat), List.length_drop, Nat.min_comm]
      have hlen : ((src.drop written).take desc.len.toNat).length = min (src.length - written) desc.len.toNat := by
        rw [List.length_take, List.length_drop, Nat.min_comm]
      have hb : m.InRam desc.addr ((src.drop written).take desc.len.toNat).length := by
        rw [hlen]
        exact hpart
      have hsame := guestWrite_sameRam m desc.addr ((src.drop written).take desc.len.toNat)
      rw [if_neg hw]
      dsimp only
      rw [htake]
      have hfst : (m.guestWrite desc.addr ((src.drop written).take desc.len.toNat)).1 = true := by
        rw [guestWrite_fst]
        exact inRam_iff.2 hb
      rcases hg : m.guestWrite desc.addr ((src.drop written).take desc.len.toNat) with ⟨done, m₁⟩
      rw [hg] at hfst hsame
      obtain rfl : done = true := hfst
      dsimp only at hsame ⊢
      obtain ⟨hcount, hmem⟩ := ih (written + min (src.length - written) desc.len.toNat) m₁ (fun part hp => by
        rw [Nat.sub_add_eq] at hp
        rw [← inRam_iff, hsame.offset, inRam_iff]
        exact hrest part hp)
      rw [writableBytes_cons, if_pos hwritable]
      refine ⟨?_, fun i => ?_⟩
      · rw [hcount, List.length_append, List.length_range']
        omega
      · have hm₁ : m₁.ram.mem i =
            (lastStored ((List.range' desc.addr.toNat desc.len.toNat).zip (src.drop written)) (m.ram.base.toNat + i)).getD
              (m.ram.mem i) := by
          rw [← guestWrite_take hb, hg]
        have hdrop : src.drop (written + min (src.length - written) desc.len.toNat) = (src.drop written).drop desc.len.toNat := by
          rw [List.drop_drop]
          by_cases hle : desc.len.toNat ≤ src.length - written
          · rw [Nat.min_eq_right hle]
          · rw [List.drop_eq_nil_of_le (by omega), List.drop_eq_nil_of_le (by omega)]
        rw [hmem, hsame.1, hm₁, hdrop, zip_append_drop, List.length_range', lastStored_append_getD]

/-! ## The device with its log -/

/-- A chain handed to the guest with a frame: the memory before and after. -/
structure Delivery where
  chain : Avail
  before : Dma
  after : Dma

/-- What has gone through a network device: the frames accepted from the host, the chains handed to the guest,
  the chains the guest has
submitted with the memory they were in, and the frames the host has collected. -/
structure NetLog where
  accepted : List (List U8)
  delivered : List Delivery
  submitted : List (List Descriptor × Dma)
  collected : List (List U8)

def NetLog.empty : NetLog := ⟨[], [], [], []⟩

/-- A pass that consumes a chain has handed it to the guest, or transmitted it. -/
def netPass (qi : Fin 2) (s : (VirtioDev × Dma) × NetLog) :
    Option (Turn ((VirtioDev × Dma) × NetLog) ((VirtioDev × Dma) × NetLog)) :=
  match pass qi s.1.1 s.1.2, consumed qi s.1 with
  | .next t, some a =>
    some (.next (t, if qi = 0 then { s.2 with delivered := s.2.delivered ++ [⟨a, s.1.2, t.2⟩] }
      else { s.2 with submitted := s.2.submitted ++ [(a.chain, s.1.2)] }))
  | .next t, none => some (.next (t, s.2))
  | .done t, _ => some (.done (t, s.2))

/-- `process` with the log. -/
def netProcess (fuel : ℕ) (d : VirtioDev) (qi : ℕ) (m : Dma) (log : NetLog) : Option ((VirtioDev × Dma) × NetLog) :=
  match d.activeQueue qi with
  | none => some ((d, m), log)
  | some qi => Loop.run (netPass qi) fuel ((d, m), log)

/-- The log follows the device: with it, `process` does what it does without. -/
theorem netProcess_fst (fuel : ℕ) (d : VirtioDev) (qi : ℕ) (m : Dma) (log : NetLog) :
    d.process fuel qi m = (netProcess fuel d qi m log).map (·.1) := by
  unfold process netProcess
  cases d.activeQueue qi with
  | none => rfl
  | some qi =>
    have hpass : ∀ s, passBody qi s.1 = (netPass qi s).map (Turn.map (·.1) (·.1)) := by
      intro s
      unfold passBody netPass
      cases pass qi s.1.1 s.1.2 <;> cases consumed qi s.1 <;> rfl
    exact Loop.run_map _ _ hpass fuel ((d, m), log)

/-- The device takes a frame from the host: it is no longer than a frame may be, and there is room in the mailbox. -/
def netAccepts (d : VirtioDev) (frame : List U8) : Bool :=
  match d.backend with
  | .net _ inbox _ => decide (frame.length ≤ NET_MAX_FRAME ∧ inbox.length < NET_QUEUE_LIMIT)
  | _ => false

/-- **Every interleaving** of guest stores, register writes, notifies and polls, and frames put in and collected by the host,
  in which each
pass starts from a state as `P` says; the states between the chains that one poll services are reached too. -/
inductive NetRuns (P : Fin 2 → VirtioDev × Dma → Prop) : VirtioDev → Dma → NetLog → Prop
  | new (mac : Fin 6 → U8) (m : Dma) : NetRuns P (new (.net mac [] [])) m .empty
  | memory {d m m' log} (h : NetRuns P d m log) (hm : SameRam m m') : NetRuns P d m' log
  | write {d m log} (h : NetRuns P d m log) (offset : U64) (val : U32) : NetRuns P (d.write offset val).2 m log
  | input {d m log} (h : NetRuns P d m log) (frame : List U8) :
      NetRuns P (d.netInput frame) m (if d.netAccepts frame then { log with accepted := log.accepted ++ [frame] } else log)
  | takeOutput {d m log} (h : NetRuns P d m log) :
      NetRuns P d.netTakeOutput.2 m { log with collected := log.collected ++ d.netTakeOutput.1 }
  | process {d m log d' m' log'} (h : NetRuns P d m log) (fuel n : ℕ)
      (hP : ∀ qi, d.activeQueue n = some qi → ∀ k t, Loop.after (netPass qi) k ((d, m), log) = some t → P qi t.1)
      (hp : netProcess fuel d n m log = some ((d', m'), log')) : NetRuns P d' m' log'
  | pass {d m log d' m' log'} (h : NetRuns P d m log) (qi : Fin 2) (hP : P qi (d, m))
      (hp : netPass qi ((d, m), log) = some (.next ((d', m'), log'))) : NetRuns P d' m' log'

/-! ## Whole frames -/

/-- A chain holds a whole frame: its writable descriptors are large enough for the header and the frame,
  these are stored over them in
order, and the used entry has their length. -/
structure Whole (dl : Delivery) (frame : List U8) : Prop where
  fits : NET_HDR_LEN + frame.length ≤ (writableBytes dl.chain.chain).length
  head : dl.after.read32 dl.chain.usedEntry = some (dl.chain.head.setWidth 32)
  length : ∃ written, dl.after.read32 (dl.chain.usedEntry + 4) = some written ∧ written.toNat = NET_HDR_LEN + frame.length
  stored : ∀ i, ¬dl.before.Within (dl.chain.usedEntry, 8) i → ¬dl.before.Within (dl.chain.usedIndexAddr, 2) i →
    dl.after.ram.mem i =
      (lastStored ((writableBytes dl.chain.chain).zip (netHdr ++ frame)) (dl.before.ram.base.toNat + i)).getD (dl.before.ram.mem i)

/-- The frame of a submitted chain: its readable descriptors one after the other, without the header. -/
def sentFrame (s : List Descriptor × Dma) : Option (List U8) :=
  ((s.1.filter (!·.writable)).mapM fun desc => s.2.guestSlice desc.addr desc.len.toNat).map fun parts => parts.flatten.drop NET_HDR_LEN

/-- What a network device keeps. -/
structure WholeFrames (inbox outbox : List (List U8)) (log : NetLog) : Prop where
  /-- Each chain handed to the guest holds a whole frame; these, and the frames that wait, are accepted ones,
    in order and each once. -/
  received : ∃ frames, List.Forall₂ Whole log.delivered frames ∧ (frames ++ inbox).Sublist log.accepted
  /-- The frames collected, and those that wait, are those of submitted chains, in order and each once. -/
  collected : (log.collected ++ outbox).Sublist (log.submitted.filterMap sentFrame)
  inbox : inbox.length ≤ NET_QUEUE_LIMIT ∧ ∀ f ∈ inbox, f.length ≤ NET_MAX_FRAME
  outbox : outbox.length ≤ NET_QUEUE_LIMIT ∧ ∀ f ∈ outbox, f.length ≤ NET_MAX_FRAME

/-- A frame that passes the test of its size is stored in RAM: each part of the chain's writable descriptors that it reaches lies there. -/
def RxInRam (qi : Fin 2) (s : VirtioDev × Dma) : Prop :=
  ∀ mac frame rest outbox a, qi = 0 → s.1.backend = .net mac (frame :: rest) outbox → consumed qi s = some a →
    NET_HDR_LEN + frame.length ≤ (writableBytes a.chain).length → ∀ part ∈ frameParts (NET_HDR_LEN + frame.length) a.chain,
      s.2.InRam part.1 part.2

/-! ## One step -/

variable {log log' : NetLog}

theorem WholeFrames.input (h : WholeFrames inbox outbox log) {frame : List U8} (hlen : frame.length ≤ NET_MAX_FRAME)
    (hroom : inbox.length < NET_QUEUE_LIMIT) :
    WholeFrames (inbox ++ [frame]) outbox { log with accepted := log.accepted ++ [frame] } where
  received := by
    obtain ⟨frames, hwhole, hsub⟩ := h.received
    refine ⟨frames, hwhole, ?_⟩
    rw [← List.append_assoc]
    exact hsub.append (List.Sublist.refl [frame])
  collected := h.collected
  inbox := by
    refine ⟨by rw [List.length_append, List.length_singleton]; omega, fun f hf => ?_⟩
    rcases List.mem_append.1 hf with hf | hf
    · exact h.inbox.2 f hf
    · rw [List.mem_singleton.1 hf]
      exact hlen
  outbox := h.outbox

theorem WholeFrames.takeOutput (h : WholeFrames inbox outbox log) :
    WholeFrames inbox [] { log with collected := log.collected ++ outbox } where
  received := h.received
  collected := by
    rw [List.append_nil]
    exact h.collected
  inbox := h.inbox
  outbox := ⟨Nat.zero_le _, fun _ hf => absurd hf List.not_mem_nil⟩

/-- The oldest frame is dropped. -/
theorem WholeFrames.drop {frame : List U8} (h : WholeFrames (frame :: inbox) outbox log) : WholeFrames inbox outbox log where
  received := by
    obtain ⟨frames, hwhole, hsub⟩ := h.received
    exact ⟨frames, hwhole, ((List.Sublist.refl frames).append (List.sublist_cons_self frame inbox)).trans hsub⟩
  collected := h.collected
  inbox := ⟨(Nat.le_succ _).trans h.inbox.1, fun f hf => h.inbox.2 f (List.mem_cons_of_mem _ hf)⟩
  outbox := h.outbox

/-- The oldest frame is handed to the guest. -/
theorem WholeFrames.deliver {frame : List U8} (h : WholeFrames (frame :: inbox) outbox log) {dl : Delivery} (hw : Whole dl frame) :
    WholeFrames inbox outbox { log with delivered := log.delivered ++ [dl] } where
  received := by
    obtain ⟨frames, hwhole, hsub⟩ := h.received
    refine ⟨frames ++ [frame], List.rel_append hwhole (.cons hw .nil), ?_⟩
    rw [List.append_assoc]
    exact hsub
  collected := h.collected
  inbox := h.drop.inbox
  outbox := h.outbox

/-- A submitted chain is transmitted, or dropped. -/
theorem WholeFrames.submit (h : WholeFrames inbox outbox log) (chain : List Descriptor) (m : Dma) :
    WholeFrames inbox (serviceTx outbox chain m) { log with submitted := log.submitted ++ [(chain, m)] } where
  received := h.received
  collected := by
    rw [List.filterMap_append]
    unfold serviceTx
    cases hp : (chain.filter (!·.writable)).mapM fun desc => m.guestSlice desc.addr desc.len.toNat with
    | none => exact h.collected.trans (List.sublist_append_left _ _)
    | some parts =>
      dsimp only
      split_ifs
      · have hsent : [(chain, m)].filterMap sentFrame = [parts.flatten.drop NET_HDR_LEN] := by
          unfold sentFrame
          rw [List.filterMap_cons, hp]
          rfl
        rw [hsent, ← List.append_assoc]
        exact h.collected.append (List.Sublist.refl _)
      · exact h.collected.trans (List.sublist_append_left _ _)
  inbox := h.inbox
  outbox := by
    unfold serviceTx
    split
    · exact h.outbox
    · dsimp only
      split_ifs with hc
      · obtain ⟨-, hmax, hroom⟩ := hc
        refine ⟨by rw [List.length_append, List.length_singleton]; omega, fun f hf => ?_⟩
        rcases List.mem_append.1 hf with hf | hf
        · exact h.outbox.2 f hf
        · rw [List.mem_singleton.1 hf, List.length_drop]
          exact hmax
      · exact h.outbox

/-- **A frame that is stored in RAM** is handed to the guest whole. -/
theorem whole_of_inRam {a : Avail} {frame : List U8} (hc : consumed qi (d, m) = some a)
    (hfits : NET_HDR_LEN + frame.length ≤ (writableBytes a.chain).length) (hlen : frame.length ≤ NET_MAX_FRAME)
    (hin : ∀ part ∈ frameParts (NET_HDR_LEN + frame.length) a.chain, m.InRam part.1 part.2) :
    Whole ⟨a, m, publish (scatter (netHdr ++ frame) a.chain 0 m).2 a.usedEntry a.usedIndexAddr a.head a.usedIdx
      (BitVec.ofNat 32 (scatter (netHdr ++ frame) a.chain 0 m).1)⟩ frame := by
  have hsrc : (netHdr ++ frame).length = NET_HDR_LEN + frame.length := by rw [List.length_append]; rfl
  have ha := nextAvail_of_consumed hc
  have hap := nextAvail_apart ha
  obtain ⟨hcount, hmem⟩ := scatter_stored (netHdr ++ frame) a.chain 0 m (by rw [hsrc]; exact hin)
  rw [hsrc, Nat.sub_zero, Nat.zero_add, Nat.min_eq_left hfits] at hcount
  have hsame : SameRam m (scatter (netHdr ++ frame) a.chain 0 m).2 := scatter_rel dmaRel_sameRam _ _ _ _
  have hentry : ((scatter (netHdr ++ frame) a.chain 0 m).2.ram.offset a.usedEntry 8).isSome := by
    rw [hsame.offset]
    exact nextAvail_entry ha
  refine ⟨hfits, publish_head _ _ _ _ hentry hap, ⟨_, publish_written _ _ _ _ hentry hap, ?_⟩, fun i h8 h2 => ?_⟩
  · rw [hcount, BitVec.toNat_ofNat, Nat.mod_eq_of_lt]
    have : NET_HDR_LEN = 12 := rfl
    have : NET_MAX_FRAME = 1600 := rfl
    omega
  · rw [publish_outside _ _ _ _ i hentry (by rw [hsame.within]; exact h8) (by rw [hsame.within]; exact h2), hmem]
    rfl

/-- **A pass** over a network device. -/
theorem netPass_whole (hb : d.backend = .net mac inbox outbox) (h : WholeFrames inbox outbox log) (hP : RxInRam qi (d, m))
    {t : Turn ((VirtioDev × Dma) × NetLog) ((VirtioDev × Dma) × NetLog)} (hp : netPass qi ((d, m), log) = some t)
    (s : (VirtioDev × Dma) × NetLog) (ht : t = .next s ∨ t = .done s) :
    ∃ inbox' outbox', s.1.1.backend = .net mac inbox' outbox' ∧ WholeFrames inbox' outbox' s.2 := by
  unfold netPass at hp
  dsimp only at hp
  rw [pass_eq] at hp
  cases hc : consumed qi (d, m) with
  | none =>
    rw [hc] at hp
    obtain rfl := Option.some.inj hp
    rcases ht with ht | ht <;> cases ht
    exact ⟨inbox, outbox, hb, h⟩
  | some a =>
    rw [hc] at hp
    dsimp only at hp
    unfold service at hp
    rw [hb] at hp
    dsimp only at hp
    by_cases hqi : qi = 0
    · rw [if_pos hqi] at hp
      cases inbox with
      | nil =>
        obtain rfl := Option.some.inj hp
        rcases ht with ht | ht <;> cases ht
        exact ⟨[], outbox, rfl, h⟩
      | cons frame inbox =>
        unfold serviceRx at hp
        dsimp only at hp
        rw [← writableBytes_length] at hp
        by_cases hcap : (writableBytes a.chain).length < NET_HDR_LEN + frame.length
        · rw [if_pos hcap] at hp
          obtain rfl := Option.some.inj hp
          rcases ht with ht | ht <;> cases ht
          exact ⟨inbox, outbox, rfl, h.drop⟩
        · rw [if_neg hcap] at hp
          dsimp only at hp
          rw [if_pos hqi] at hp
          obtain rfl := Option.some.inj hp
          rcases ht with ht | ht <;> cases ht
          have hfits := Nat.not_lt.1 hcap
          exact ⟨inbox, outbox, rfl, h.deliver (whole_of_inRam hc hfits (h.inbox.2 frame List.mem_cons_self)
            (hP mac frame inbox outbox a hqi hb hc hfits))⟩
    · rw [if_neg hqi] at hp
      dsimp only at hp
      rw [if_neg hqi] at hp
      obtain rfl := Option.some.inj hp
      rcases ht with ht | ht <;> cases ht
      exact ⟨inbox, serviceTx outbox a.chain m, rfl, h.submit a.chain m⟩

/-! ## Runs -/

/-- A register write leaves the mailboxes. -/
theorem write_net (hb : d.backend = .net mac inbox outbox) (offset : U64) (val : U32) :
    (d.write offset val).2.backend = .net mac inbox outbox := by
  by_cases hreset : offset.toNat = 0x070 ∧ val = 0
  · rw [write_reset d offset val hreset]
    unfold reset
    dsimp only
    rw [hb]
    rfl
  · rw [(write_keeps d offset val hreset).1, hb]

/-- Processing a queue whose passes store their frames in RAM. -/
theorem netProcess_whole (hb : d.backend = .net mac inbox outbox) (h : WholeFrames inbox outbox log) {fuel n : ℕ}
    (hP : ∀ qi, d.activeQueue n = some qi → ∀ k t, Loop.after (netPass qi) k ((d, m), log) = some t → RxInRam qi t.1)
    (hp : netProcess fuel d n m log = some ((d', m'), log')) :
    ∃ inbox' outbox', d'.backend = .net mac inbox' outbox' ∧ WholeFrames inbox' outbox' log' := by
  unfold netProcess at hp
  cases hq : d.activeQueue n with
  | none =>
    rw [hq] at hp
    cases hp
    exact ⟨inbox, outbox, hb, h⟩
  | some qi =>
    rw [hq] at hp
    refine Loop.run_invariant
      (J := fun s => (∃ k, Loop.after (netPass qi) k ((d, m), log) = some s) ∧
        ∃ inbox' outbox', s.1.1.backend = .net mac inbox' outbox' ∧ WholeFrames inbox' outbox' s.2)
      (Q := fun s => ∃ inbox' outbox', s.1.1.backend = .net mac inbox' outbox' ∧ WholeFrames inbox' outbox' s.2)
      ?_ ?_ ⟨⟨0, rfl⟩, inbox, outbox, hb, h⟩ hp
    · rintro s t ⟨⟨k, hk⟩, inbox', outbox', hb', h'⟩ hbody
      refine ⟨⟨k + 1, ?_⟩, netPass_whole hb' h' (hP qi hq k s hk) hbody t (Or.inl rfl)⟩
      rw [Loop.after_succ hk, hbody]
    · rintro s t ⟨⟨k, hk⟩, inbox', outbox', hb', h'⟩ hbody
      exact netPass_whole hb' h' (hP qi hq k s hk) hbody t (Or.inr rfl)

/-- **A network device moves whole frames in order** if each frame it hands to the guest is stored in RAM,
  whatever the interleaving. -/
theorem frames_whole (d : VirtioDev) (m : Dma) (log : NetLog) (h : NetRuns RxInRam d m log) :
    ∃ mac inbox outbox, d.backend = .net mac inbox outbox ∧ WholeFrames inbox outbox log := by
  induction h with
  | new mac m =>
    exact ⟨mac, [], [], rfl, ⟨[], .nil, .slnil⟩, .slnil, ⟨Nat.zero_le _, fun _ hf => absurd hf List.not_mem_nil⟩,
      Nat.zero_le _, fun _ hf => absurd hf List.not_mem_nil⟩
  | memory _ _ ih => exact ih
  | write _ offset val ih =>
    obtain ⟨mac, inbox, outbox, hb, hw⟩ := ih
    exact ⟨mac, inbox, outbox, write_net hb offset val, hw⟩
  | @input d m log _ frame ih =>
    obtain ⟨mac, inbox, outbox, hb, hw⟩ := ih
    unfold netInput netAccepts
    rw [hb]
    dsimp only
    by_cases hc : frame.length ≤ NET_MAX_FRAME ∧ inbox.length < NET_QUEUE_LIMIT
    · rw [if_pos hc, if_pos (decide_eq_true hc)]
      exact ⟨mac, inbox ++ [frame], outbox, rfl, hw.input hc.1 hc.2⟩
    · rw [if_neg hc, if_neg (by rw [decide_eq_false hc]; exact Bool.false_ne_true)]
      exact ⟨mac, inbox, outbox, hb, hw⟩
  | @takeOutput d m log _ ih =>
    obtain ⟨mac, inbox, outbox, hb, hw⟩ := ih
    unfold netTakeOutput
    rw [hb]
    exact ⟨mac, inbox, [], rfl, hw.takeOutput⟩
  | process _ fuel n hP hp ih =>
    obtain ⟨mac, inbox, outbox, hb, hw⟩ := ih
    obtain ⟨inbox', outbox', hb', hw'⟩ := netProcess_whole hb hw hP hp
    exact ⟨mac, inbox', outbox', hb', hw'⟩
  | pass _ qi hP hp ih =>
    obtain ⟨mac, inbox, outbox, hb, hw⟩ := ih
    obtain ⟨inbox', outbox', hb', hw'⟩ := netPass_whole hb hw hP hp _ (Or.inl rfl)
    exact ⟨mac, inbox', outbox', hb', hw'⟩

/-! ## A frame in two parts -/

/-- RAM with a chain of two writable descriptors, of 8 and 16 bytes, the second at an address whose last byte is given. -/
def rxDma (second : U8) : Dma where
  ram := {
    base := RAM_BASE
    len := 4096
    mem := fun i => ([(0x01, 2), (0x03, 0x80), (0x08, 8), (0x0c, 3), (0x0e, 1), (0x11, 3), (0x13, second), (0x18, 16), (0x1c, 2),
      (0x102, 1)].lookup i).getD 0
    fits := RAM_page_fits
    len_lt := page_len_lt }
  jit := .new 4096
  nextBlockRequestId := 1

/-- A network device with its receive queue set up and one frame that waits. -/
def rxDevice : VirtioDev :=
  ([(0x030, 0), (0x038, 2), (0x080, RAM_BASE.setWidth 32), (0x090, (RAM_BASE + 0x100).setWidth 32), (0x0a0,
    (RAM_BASE + 0x180).setWidth 32),
    (0x044, 1)].foldl (fun d (reg : U64 × U32) => (d.write reg.1 reg.2).2) (new (.net (fun _ => 0) [] []))).netInput [7]

theorem rxDevice_runs (P : Fin 2 → VirtioDev × Dma → Prop) (second : U8) :
    NetRuns P rxDevice (rxDma second) { NetLog.empty with accepted := [[7]] } :=
  ((((((((NetRuns.new (fun _ => 0) (rxDma second)).write 0x030 0).write 0x038 2).write 0x080 _).write 0x090 _).write 0x0a0 _).write
    0x044 1).input [7])

/-- Both descriptors lie in RAM. -/
theorem frames_whole_rx : ∃ d m log, NetRuns RxInRam d m log ∧ log.delivered.length = 1 ∧
    ∃ mac inbox outbox, d.backend = .net mac inbox outbox ∧ WholeFrames inbox outbox log := by
  have hP : RxInRam 0 (rxDevice, rxDma 0x80) := by
    intro mac frame rest outbox a _ hb hc _
    obtain ⟨rfl, rfl, rfl⟩ : [7] = frame ∧ [] = rest ∧ [] = outbox := by
      injection hb with h1 h2 h3
      injection h2 with h4 h5
      exact ⟨h4, h5, h3⟩
    have hparts : (consumed 0 (rxDevice, rxDma 0x80)).all fun (a : Avail) =>
        (frameParts (NET_HDR_LEN + 1) a.chain).all fun part => decide ((rxDma 0x80).InRam part.1 part.2) := by
      decide
    rw [hc] at hparts
    exact fun part hp => of_decide_eq_true (List.all_eq_true.1 hparts part hp)
  have hrun : (netPass 0 ((rxDevice, rxDma 0x80), { NetLog.empty with accepted := [[7]] })).any fun t =>
      match t with
      | .next s => s.2.delivered.length == 1
      | .done _ => false := by
    decide
  obtain ⟨t, hp, ht⟩ := (Option.any_eq_true _ _).1 hrun
  cases t with
  | done s => cases ht
  | next s =>
    have hreach := (rxDevice_runs RxInRam 0x80).pass 0 hP hp
    exact ⟨_, _, _, hreach, by simpa using ht, frames_whole _ _ _ hreach⟩

/-- **A chain whose second descriptor is not in RAM** passes the test of its size,
  and is handed to the guest with 8 bytes of the frame. -/
theorem frame_cut_short : ∃ d m log dl, NetRuns (fun _ _ => True) d m log ∧ log.accepted = [[7]] ∧ dl ∈ log.delivered ∧
    dl.after.read32 (dl.chain.usedEntry + 4) = some 8 ∧ ∀ inbox outbox, ¬WholeFrames inbox outbox log := by
  have hrun : (netProcess 2 rxDevice 0 (rxDma 0) { NetLog.empty with accepted := [[7]] }).any fun s =>
      decide (s.2.accepted = [[7]]) && s.2.delivered.any fun dl => decide (dl.after.read32 (dl.chain.usedEntry + 4) = some 8) := by
    decide
  obtain ⟨⟨⟨d, m⟩, log⟩, hp, hs⟩ := (Option.any_eq_true _ _).1 hrun
  rw [Bool.and_eq_true, decide_eq_true_iff] at hs
  obtain ⟨dl, hdl, hread⟩ := List.any_eq_true.1 hs.2
  refine ⟨d, m, log, dl, (rxDevice_runs _ 0).process 2 0 (fun _ _ _ _ _ => trivial) hp, hs.1, hdl, of_decide_eq_true hread, ?_⟩
  rintro inbox outbox ⟨⟨frames, hwhole, -⟩, -⟩
  obtain ⟨n, rfl⟩ := List.get_of_mem hdl
  have hw := hwhole.get n.2 (by rw [← hwhole.length_eq]; exact n.2)
  obtain ⟨written, hwritten, hlen⟩ := hw.length
  obtain rfl := Option.some.inj (hwritten.symm.trans (of_decide_eq_true hread))
  rw [show (8 : U32).toNat = 8 from rfl, show NET_HDR_LEN = 12 from rfl] at hlen
  omega

end VirtioDev
end Lish
