import Lish.System.VirtioEnds
/-!
# ExternalBlock — each request of an external disk is completed once and in order

A ledger beside the device records the entries it takes from an available ring and the used entries it publishes since its
last reset.  Whatever the guest writes, however queues are polled and whatever the host completes, what it has published is
what it has taken, less the one request that may be with the host.
-/
namespace Lish

/-- A used-ring entry: the head of a chain and where it is published. -/
structure UsedEntry where
  head : U16
  entry : U64
  indexAddr : U64
  idx : U16
  deriving DecidableEq

def PendingBlockRequest.used (r : PendingBlockRequest) : UsedEntry := ⟨r.head, r.usedEntry, r.usedIndexAddr, r.usedIdx⟩

/-- What a device has taken from each available ring since its reset, with the ring index, and what it has published. -/
structure Ledger where
  taken : Fin 2 → List (U16 × UsedEntry)
  published : Fin 2 → List UsedEntry

namespace Ledger

def empty : Ledger := ⟨fun _ => [], fun _ => []⟩

def take (l : Ledger) (qi : Fin 2) (t : U16 × UsedEntry) : Ledger :=
  { l with taken := fun i => if i = qi then l.taken i ++ [t] else l.taken i }

def publish (l : Ledger) (qi : Fin 2) (u : UsedEntry) : Ledger :=
  { l with published := fun i => if i = qi then l.published i ++ [u] else l.published i }

end Ledger

namespace VirtioDev

open Dma

def Avail.used (a : Avail) : UsedEntry := ⟨a.head, a.usedEntry, a.usedIndexAddr, a.usedIdx⟩

/-! ## The device with its ledger -/

/-- A pass: a chain that is serviced is taken and published, one left with the host is taken. -/
def ledgerPass (qi : Fin 2) (s : (VirtioDev × Dma) × Ledger) :
    Option (Turn ((VirtioDev × Dma) × Ledger) ((VirtioDev × Dma) × Ledger)) :=
  let q := s.1.1.queues qi
  let took := fun (a : Avail) => s.2.take qi (q.lastAvailIdx, Avail.used a)
  match pass qi s.1.1 s.1.2, nextAvail s.1.2 q with
  | .next t, some a => some (.next (t, (took a).publish qi (Avail.used a)))
  | .next t, none => some (.next (t, s.2))
  | .done t, some a => some (.done (t, if t.1.pendingBlockRequest.isSome then took a else s.2))
  | .done t, none => some (.done (t, s.2))

/-- `process` with the ledger. -/
def ledgerProcess (fuel : ℕ) (d : VirtioDev) (qi : ℕ) (m : Dma) (l : Ledger) : Option ((VirtioDev × Dma) × Ledger) :=
  match d.activeQueue qi with
  | none => some ((d, m), l)
  | some qi => Loop.run (ledgerPass qi) fuel ((d, m), l)

/-- A register write; a reset starts a new ledger. -/
def ledgerWrite (offset : U64) (val : U32) (l : Ledger) : Ledger :=
  if offset.toNat = 0x070 ∧ val = 0 then .empty else l

/-- A completion publishes what the request was to publish. -/
def ledgerComplete (d : VirtioDev) (done : Bool) (l : Ledger) : Ledger :=
  match done, d.pendingBlockRequest with
  | true, some r => l.publish r.queueIndex r.used
  | _, _ => l

/-- The ledger follows the device: with it, `process` does what it does without. -/
theorem ledgerProcess_fst (fuel : ℕ) (d : VirtioDev) (qi : ℕ) (m : Dma) (l : Ledger) :
    d.process fuel qi m = (ledgerProcess fuel d qi m l).map (·.1) := by
  unfold process ledgerProcess
  cases d.activeQueue qi with
  | none => rfl
  | some qi =>
    have hpass : ∀ s, passBody qi s.1 = (ledgerPass qi s).map (Turn.map (·.1) (·.1)) := by
      intro s
      unfold passBody ledgerPass
      dsimp only
      cases pass qi s.1.1 s.1.2 <;> cases nextAvail s.1.2 (s.1.1.queues qi) <;> rfl
    exact Loop.run_map _ _ hpass fuel ((d, m), l)

/-- **Every interleaving** of guest stores, register writes, polls and notifies, and completions by the host; the states
between the chains that one poll services are reached too. -/
inductive Reaches (size : U64) : VirtioDev → Dma → Ledger → Prop
  | new (m : Dma) : Reaches size (new (.externalBlock size none)) m .empty
  | memory {d m m' l} (h : Reaches size d m l) (hm : SameRam m m') : Reaches size d m' l
  | write {d m l} (h : Reaches size d m l) (offset : U64) (val : U32) :
      Reaches size (d.write offset val).2 m (ledgerWrite offset val l)
  | process {d m l d' m' l'} (h : Reaches size d m l) (fuel qi : ℕ)
      (hp : ledgerProcess fuel d qi m l = some ((d', m'), l')) : Reaches size d' m' l'
  | pass {d m l d' m' l'} (h : Reaches size d m l) (qi : Fin 2) (hnone : d.pendingBlockRequest = none)
      (hp : ledgerPass qi ((d, m), l) = some (.next ((d', m'), l'))) : Reaches size d' m' l'
  | complete {d m l d' m'} (h : Reaches size d m l) (id : U64) (data : List U8) (ok : Bool) {done : Bool}
      (hc : d.completeBlockRequest id data ok m = (done, d', m')) : Reaches size d' m' (ledgerComplete d done l)

variable {d d' : VirtioDev} {m m' : Dma} {qi : Fin 2} {size : U64} {l l' : Ledger}

/-! ## One step -/

/-- The used entries a queue has still to publish: that of the request with the host. -/
def outstanding (d : VirtioDev) (qi : Fin 2) : List UsedEntry :=
  match d.pendingBlockRequest with
  | some r => if r.queueIndex = qi then [r.used] else []
  | none => []

/-- The ring indices of a number of entries, from 0. -/
def ringIndices (n : ℕ) : List U16 := (List.range n).map (BitVec.ofNat 16)

/-- The ledger of an external disk. -/
structure Settled (size : U64) (d : VirtioDev) (m : Dma) (l : Ledger) : Prop where
  backend : ∃ pending, d.backend = .externalBlock size pending
  count : ∀ qi, (d.queues qi).lastAvailIdx = BitVec.ofNat 16 (l.published qi).length
  indices : ∀ qi, (l.taken qi).map (·.1) = ringIndices (l.taken qi).length
  entries : ∀ qi, (l.taken qi).map (·.2) = l.published qi ++ d.outstanding qi
  targets : ∀ r, d.pendingBlockRequest = some r → completionTargetsValid r m
  apart : ∀ r, d.pendingBlockRequest = some r → r.usedIndexAddr.toNat + 2 ≤ r.usedEntry.toNat

theorem settled_new (m : Dma) : Settled size (new (.externalBlock size none)) m .empty where
  backend := ⟨none, rfl⟩
  count _ := rfl
  indices _ := rfl
  entries _ := rfl
  targets _ h := nomatch h
  apart _ h := nomatch h

theorem Settled.memory (h : Settled size d m l) (hm : SameRam m m') : Settled size d m' l where
  backend := h.backend
  count := h.count
  indices := h.indices
  entries := h.entries
  targets r hr := by
    have ht := h.targets r hr
    unfold completionTargetsValid at ht ⊢
    simpa only [hm.offset] using ht
  apart := h.apart

/-! ### Register writes -/

/-- A register write other than a reset leaves the request, and of the queues the consumed index. -/
theorem write_keeps (d : VirtioDev) (offset : U64) (val : U32) (h : ¬ (offset.toNat = 0x070 ∧ val = 0)) :
    (d.write offset val).2.backend = d.backend ∧
      ∀ qi, ((d.write offset val).2.queues qi).lastAvailIdx = (d.queues qi).lastAvailIdx := by
  have hmodify : ∀ g : Queue → Queue, (∀ q, (g q).lastAvailIdx = q.lastAvailIdx) →
      (d.modifyQueue g).backend = d.backend ∧ ∀ qi, ((d.modifyQueue g).queues qi).lastAvailIdx = (d.queues qi).lastAvailIdx := by
    refine fun g hg => ⟨rfl, fun qi => ?_⟩
    unfold modifyQueue setQueue
    dsimp only
    split_ifs with hq
    · rw [hg, hq]
    · rfl
  unfold write
  split
  case h_8 hoff =>
    dsimp only
    rw [if_neg fun hv => h ⟨hoff, hv⟩]
    exact ⟨rfl, fun _ => rfl⟩
  all_goals first
    | exact ⟨rfl, fun _ => rfl⟩
    | exact hmodify _ fun _ => rfl

theorem write_reset (d : VirtioDev) (offset : U64) (val : U32) (h : offset.toNat = 0x070 ∧ val = 0) :
    (d.write offset val).2 = { d with status := val }.reset := by
  unfold write
  rw [h.1]
  exact if_pos h.2

theorem Settled.write (h : Settled size d m l) (offset : U64) (val : U32) :
    Settled size (d.write offset val).2 m (ledgerWrite offset val l) := by
  obtain ⟨pending, hb⟩ := h.backend
  unfold ledgerWrite
  by_cases hr : offset.toNat = 0x070 ∧ val = 0
  · have hpend : (d.write offset val).2.pendingBlockRequest = none := by
      rw [write_reset d offset val hr, pendingBlockRequest, reset]
      dsimp only
      rw [hb]
      rfl
    rw [if_pos hr]
    exact {
      backend := ⟨none, by rw [write_reset d offset val hr, reset]; dsimp only; rw [hb]; rfl⟩
      count := fun qi => by rw [write_reset d offset val hr]; rfl
      indices := fun _ => rfl
      entries := fun qi => by unfold outstanding; rw [hpend]; rfl
      targets := fun r hp => by rw [hpend] at hp; cases hp
      apart := fun r hp => by rw [hpend] at hp; cases hp }
  · obtain ⟨hback, hlast⟩ := write_keeps d offset val hr
    have hpend : (d.write offset val).2.pendingBlockRequest = d.pendingBlockRequest := by
      unfold pendingBlockRequest
      rw [hback]
    rw [if_neg hr]
    exact {
      backend := ⟨pending, hback.trans hb⟩
      count := fun qi => (hlast qi).trans (h.count qi)
      indices := h.indices
      entries := fun qi => by unfold outstanding; rw [hpend]; exact h.entries qi
      targets := fun r hp => h.targets r (hpend ▸ hp)
      apart := fun r hp => h.apart r (hpend ▸ hp) }

/-! ### Processing -/

theorem foldlM_invariant {α β : Type} {P : α → Prop} {f : α → β → Option α} {as : List β}
    (step : ∀ a b a', b ∈ as → P a → f a b = some a' → P a') {a a' : α} (ha : P a) (h : as.foldlM f a = some a') : P a' := by
  induction as generalizing a with
  | nil => exact Option.some.inj h ▸ ha
  | cons b as ih =>
    rw [List.foldlM_cons] at h
    obtain ⟨a₁, hstep, hrest⟩ := Option.bind_eq_some_iff.1 h
    refine ih (fun a b a' hb => step a b a' (List.mem_cons_of_mem _ hb)) ?_ hrest
    exact step a b a₁ List.mem_cons_self ha hstep

/-- The buffers of a read lie in RAM. -/
theorem blockBody_buffers {kind : BlockRequestKind} {body : List Descriptor} {bodyLen : U64} {readBuffers : List (U64 × U32)}
    (h : blockBody kind m body = some (bodyLen, readBuffers)) :
    ∀ b ∈ readBuffers, (m.ram.offset b.1 b.2.toNat).isSome := by
  unfold blockBody at h
  refine foldlM_invariant (P := fun acc => ∀ b ∈ acc.2, (m.ram.offset b.1 b.2.toNat).isSome) ?_ (fun b hb => absurd hb List.not_mem_nil) h
  rintro ⟨len, buffers⟩ desc acc - hacc hstep b hb
  by_cases hk : kind = .read
  · subst hk
    simp only [if_true] at hstep
    split_ifs at hstep with hv
    obtain ⟨next, -, hn⟩ := Option.bind_eq_some_iff.1 hstep
    split_ifs at hn
    obtain rfl := Option.some.inj hn
    rcases List.mem_append.1 hb with hb | hb
    · exact hacc b hb
    · rw [List.mem_singleton] at hb
      rw [hb]
      simp only [Bool.not_eq_true', Bool.not_eq_false, Bool.and_eq_true] at hv
      exact hv.2
  · simp only [if_neg hk] at hstep
    split_ifs at hstep
    obtain ⟨next, -, hn⟩ := Option.bind_eq_some_iff.1 hstep
    split_ifs at hn
    obtain rfl := Option.some.inj hn
    exact hacc b hb

theorem blockRequest_keeps {chain : List Descriptor} {hdr last : Descriptor} {r : PendingBlockRequest}
    (h : blockRequest size qi chain hdr last m = some r) :
    r.queueIndex = qi ∧ r.statusAddr = last.addr ∧ ∀ b ∈ r.readBuffers, (m.ram.offset b.1 b.2.toNat).isSome := by
  unfold blockRequest at h
  simp only [Option.bind_eq_bind, Option.bind_eq_some_iff] at h
  obtain ⟨-, -, header, -, kind, -, offset, -, ⟨bodyLen, readBuffers⟩, hbody, -, -, rangeEnd, -, -, -, hr⟩ := h
  obtain rfl := Option.some.inj hr
  exact ⟨rfl, rfl, blockBody_buffers hbody⟩

/-- What servicing a chain does to an external disk with no request: it answers, or it leaves one with the host. -/
theorem service_external (hb : d.backend = .externalBlock size none) (qi : Fin 2) (chain : List Descriptor) (m : Dma) :
    (∃ written m₁, d.service qi chain m = (some written, d, m₁)) ∨
    ∃ r, d.service qi chain m = (none, { d with backend := .externalBlock size (some r) },
        { m with nextBlockRequestId := m.nextBlockRequestId + 1 }) ∧
      qi = 0 ∧ r.queueIndex = 0 ∧ (m.ram.offset r.statusAddr 1).isSome ∧
      ∀ b ∈ r.readBuffers, (m.ram.offset b.1 b.2.toNat).isSome := by
  have hd : ∀ (w : U32) (m₁ : Dma), (some w, { d with backend := .externalBlock size none }, m₁) = (some w, d, m₁) := by
    intro w m₁
    rw [← hb]
  unfold service
  rw [hb]
  dsimp only
  unfold serviceExternal
  by_cases hqi : qi ≠ 0
  · rw [if_pos hqi]
    exact Or.inl ⟨0, m, hd _ _⟩
  · rw [if_neg hqi, if_neg (by decide)]
    cases chain.head? with
    | none => exact Or.inl ⟨0, m, hd _ _⟩
    | some hdr =>
      cases chain.getLast? with
      | none => exact Or.inl ⟨0, m, hd _ _⟩
      | some last =>
        dsimp only
        by_cases hlast : last.len < 1 ∨ !last.writable ∨ (m.ram.offset last.addr 1).isNone
        · rw [if_pos hlast]
          exact Or.inl ⟨0, m, hd _ _⟩
        · rw [if_neg hlast]
          cases hr : blockRequest size qi chain hdr last m with
          | none => exact Or.inl ⟨1, _, hd _ _⟩
          | some r =>
            obtain ⟨hq, hs, hbuf⟩ := blockRequest_keeps hr
            refine Or.inr ⟨r, rfl, not_not.1 hqi, hq.trans (not_not.1 hqi), ?_, hbuf⟩
            push Not at hlast
            rw [hs, Option.isSome_iff_ne_none]
            simpa using hlast.2.2

/-- A queue has nothing more to take: nothing is available, or the next entry cannot be read. -/
def Drained (d : VirtioDev) (qi : Fin 2) (m : Dma) : Prop :=
  (d.queues qi).num = 0 ∨ availIdx m (d.queues qi) = none ∨ availIdx m (d.queues qi) = some (d.queues qi).lastAvailIdx ∨
    nextAvail m (d.queues qi) = none

/-- What a pass that ends the loop has done: nothing, or it has left a chain with the host. -/
theorem pass_done (hb : d.backend = .externalBlock size none) (h : pass qi d m = .done (d', m')) :
    (d' = d ∧ m' = m ∧ Drained d qi m) ∨
    ∃ a r, nextAvail m (d.queues qi) = some a ∧ qi = 0 ∧ r.queueIndex = 0 ∧ r.used = Avail.used a ∧
      d' = { d with backend := .externalBlock size (some r) } ∧
      m' = { m with nextBlockRequestId := m.nextBlockRequestId + 1 } ∧ (m.ram.offset r.statusAddr 1).isSome ∧
      ∀ b ∈ r.readBuffers, (m.ram.offset b.1 b.2.toNat).isSome := by
  have hstay : Drained d qi m → (Turn.done (d, m) : Turn (VirtioDev × Dma) (VirtioDev × Dma)) = .done (d', m') →
      d' = d ∧ m' = m ∧ Drained d qi m := fun hd he => by
    cases he
    exact ⟨rfl, rfl, hd⟩
  unfold pass at h
  dsimp only at h
  split_ifs at h with hnum
  · exact Or.inl (hstay (Or.inl hnum) h)
  cases hi : availIdx m (d.queues qi) with
  | none =>
    rw [hi] at h
    exact Or.inl (hstay (Or.inr (Or.inl hi)) h)
  | some idx =>
    rw [hi] at h
    dsimp only at h
    split_ifs at h with hne
    · exact Or.inl (hstay (Or.inr (Or.inr (Or.inl (by rw [hi, hne])))) h)
    cases ha : nextAvail m (d.queues qi) with
    | none =>
      rw [ha] at h
      exact Or.inl (hstay (Or.inr (Or.inr (Or.inr ha))) h)
    | some a =>
      rw [ha] at h
      dsimp only at h
      rcases service_external hb qi a.chain m with ⟨written, m₁, hs⟩ | ⟨r, hs, hqi, hq, hstatus, hbuf⟩
      · rw [hs] at h
        cases h
      · rw [hs] at h
        cases h
        exact Or.inr ⟨a, { r with head := a.head, usedIndexAddr := a.usedIndexAddr, usedEntry := a.usedEntry, usedIdx := a.usedIdx },
          rfl, hqi, hq, rfl, rfl, rfl, hstatus, hbuf⟩

theorem pending_of_backend {pending : Option PendingBlockRequest} (hb : d.backend = .externalBlock size pending) :
    d.pendingBlockRequest = pending := by
  unfold pendingBlockRequest
  rw [hb]

theorem Settled.backend_eq (h : Settled size d m l) : d.backend = .externalBlock size d.pendingBlockRequest := by
  obtain ⟨pending, hb⟩ := h.backend
  rw [pending_of_backend hb, hb]

theorem outstanding_none (h : d.pendingBlockRequest = none) (qi : Fin 2) : d.outstanding qi = [] := by
  unfold outstanding
  rw [h]

theorem ringIndices_succ (n : ℕ) : ringIndices (n + 1) = ringIndices n ++ [BitVec.ofNat 16 n] := by
  unfold ringIndices
  rw [List.range_succ, List.map_append, List.map_singleton]

/-- Without a request with the host, everything taken is published. -/
theorem Settled.taken_length (h : Settled size d m l) (hp : d.pendingBlockRequest = none) (qi : Fin 2) :
    (l.taken qi).length = (l.published qi).length := by
  have he := h.entries qi
  rw [outstanding_none hp, List.append_nil] at he
  rw [← he, List.length_map]

/-- The next entry to take has the next ring index. -/
theorem Settled.take_indices (h : Settled size d m l) (hp : d.pendingBlockRequest = none) (qi i : Fin 2) (u : UsedEntry) :
    ((l.take qi ((d.queues qi).lastAvailIdx, u)).taken i).map (·.1) =
      ringIndices ((l.take qi ((d.queues qi).lastAvailIdx, u)).taken i).length := by
  unfold Ledger.take
  dsimp only
  by_cases hi : i = qi
  · subst hi
    rw [if_pos rfl, List.map_append, h.indices, List.length_append, List.length_singleton, ringIndices_succ, h.count,
      h.taken_length hp]
    rfl
  · rw [if_neg hi, h.indices]

theorem Settled.pass_next (h : Settled size d m l) (hp : d.pendingBlockRequest = none) {a : Avail}
    (ha : nextAvail m (d.queues qi) = some a) (hn : pass qi d m = .next (d', m')) :
    Settled size d' m' ((l.take qi ((d.queues qi).lastAvailIdx, Avail.used a)).publish qi (Avail.used a)) ∧
      d'.pendingBlockRequest = none := by
  have hb := h.backend_eq
  rw [hp] at hb
  have hs := VirtioDev.pass_next hn
  obtain ⟨a', written, d₁, m₁, ha', hserv, hd', -⟩ := hs.step
  obtain rfl : a = a' := Option.some.inj (ha.symm.trans ha')
  have hd₁ : d₁ = d := by
    rcases service_external hb qi a.chain m with ⟨w, m₂, hs'⟩ | ⟨r, hs', -⟩
    · rw [hserv] at hs'
      cases hs'
      rfl
    · rw [hserv] at hs'
      cases hs'
  subst hd₁
  have hb' : d'.backend = .externalBlock size none := by rw [hd']; exact hb
  have hpend := pending_of_backend hb'
  refine ⟨?_, hpend⟩
  exact {
    backend := ⟨none, hb'⟩
    count := fun i => by
      unfold Ledger.publish Ledger.take
      dsimp only
      by_cases hi : i = qi
      · subst hi
        rw [if_pos rfl, hs.queues, h.count, List.length_append, List.length_singleton, BitVec.ofNat_add]
        rfl
      · rw [if_neg hi, ← h.count i, hd']
        unfold advance setQueue
        dsimp only
        rw [if_neg hi]
    indices := fun i => h.take_indices hp qi i (Avail.used a)
    entries := fun i => by
      have he := h.entries i
      rw [outstanding_none hp, List.append_nil] at he
      rw [outstanding_none hpend, List.append_nil]
      unfold Ledger.publish Ledger.take
      dsimp only
      by_cases hi : i = qi
      · rw [if_pos hi, if_pos hi, List.map_append, he, List.map_singleton]
      · rw [if_neg hi, if_neg hi, he]
    targets := fun r hr => by rw [hpend] at hr; cases hr
    apart := fun r hr => by rw [hpend] at hr; cases hr }

theorem Settled.pass_done (h : Settled size d m l) (hp : d.pendingBlockRequest = none) (hn : pass qi d m = .done (d', m')) :
    (d'.pendingBlockRequest = none → Settled size d' m' l) ∧
    ∀ a, nextAvail m (d.queues qi) = some a → d'.pendingBlockRequest.isSome →
      Settled size d' m' (l.take qi ((d.queues qi).lastAvailIdx, Avail.used a)) := by
  have hb := h.backend_eq
  rw [hp] at hb
  rcases VirtioDev.pass_done hb hn with ⟨rfl, rfl, -⟩ | ⟨a, r, ha, rfl, hq, hu, rfl, rfl, hstatus, hbuf⟩
  · refine ⟨fun _ => h, fun a _ hs => ?_⟩
    rw [hp] at hs
    cases hs
  · refine ⟨fun hnone => (nomatch hnone), fun a' ha' _ => ?_⟩
    obtain rfl : a = a' := Option.some.inj (ha.symm.trans ha')
    have hused : r.usedEntry = a.usedEntry ∧ r.usedIndexAddr = a.usedIndexAddr :=
      ⟨congrArg UsedEntry.entry hu, congrArg UsedEntry.indexAddr hu⟩
    exact {
      backend := ⟨some r, rfl⟩
      count := h.count
      indices := fun i => h.take_indices hp 0 i (Avail.used a)
      entries := fun i => by
        have he := h.entries i
        rw [outstanding_none hp, List.append_nil] at he
        unfold Ledger.take outstanding pendingBlockRequest
        dsimp only
        rw [hq]
        by_cases hi : i = 0
        · rw [if_pos hi, if_pos hi.symm, List.map_append, he, List.map_singleton, hu]
        · rw [if_neg hi, if_neg (Ne.symm hi), he, List.append_nil]
      targets := fun r' hr' => by
        obtain rfl : r = r' := Option.some.inj hr'
        have hread : (m.ram.offset a.usedIndexAddr 2).isSome := by
          rw [← read16_isSome]
          exact Option.isSome_iff_exists.2 ⟨_, (nextAvail_used ha).2.1⟩
        unfold completionTargetsValid
        rw [hused.1, hused.2]
        simp only [Bool.and_eq_true, Bool.or_eq_true, List.all_eq_true]
        exact ⟨⟨⟨Or.inr fun b hmem => hbuf b hmem, hstatus⟩, nextAvail_entry ha⟩, hread⟩
      apart := fun r' hr' => by
        obtain rfl : r = r' := Option.some.inj hr'
        rw [hused.1, hused.2]
        exact nextAvail_apart ha }

theorem activeQueue_pending {n : ℕ} (h : d.activeQueue n = some qi) : d.pendingBlockRequest = none := by
  unfold activeQueue at h
  split_ifs at h with h1 h2
  push Not at h2
  rw [← Option.not_isSome_iff_eq_none]
  exact h2.2

theorem Settled.ledgerPass_next (h : Settled size d m l) (hnone : d.pendingBlockRequest = none)
    (hp : ledgerPass qi ((d, m), l) = some (.next ((d', m'), l'))) :
    Settled size d' m' l' ∧ d'.pendingBlockRequest = none := by
  unfold ledgerPass at hp
  dsimp only at hp
  cases hpass : pass qi d m with
  | done r => cases ha : nextAvail m (d.queues qi) <;> rw [hpass, ha] at hp <;> cases hp
  | next r =>
    rw [hpass] at hp
    cases ha : nextAvail m (d.queues qi) with
    | none =>
      obtain ⟨a, -, -, -, ha', -⟩ := (VirtioDev.pass_next hpass).step
      rw [ha] at ha'
      cases ha'
    | some a =>
      rw [ha] at hp
      cases hp
      exact h.pass_next hnone ha hpass

theorem Settled.ledgerPass_done (h : Settled size d m l) (hnone : d.pendingBlockRequest = none)
    (hp : ledgerPass qi ((d, m), l) = some (.done ((d', m'), l'))) : Settled size d' m' l' := by
  unfold ledgerPass at hp
  dsimp only at hp
  cases hpass : pass qi d m with
  | next r => cases ha : nextAvail m (d.queues qi) <;> rw [hpass, ha] at hp <;> cases hp
  | done r =>
    rw [hpass] at hp
    have hdone := h.pass_done hnone hpass
    cases ha : nextAvail m (d.queues qi) with
    | none =>
      rw [ha] at hp
      cases hp
      refine hdone.1 ?_
      rcases VirtioDev.pass_done (by rw [← hnone]; exact h.backend_eq) hpass with ⟨hd, -⟩ | ⟨a, r', ha', -⟩
      · rw [hd]
        exact hnone
      · rw [ha] at ha'
        cases ha'
    | some a =>
      rw [ha] at hp
      cases hp
      split_ifs with hsome
      · exact hdone.2 a ha hsome
      · exact hdone.1 (Option.not_isSome_iff_eq_none.1 hsome)

theorem Settled.process (h : Settled size d m l) {fuel n : ℕ} (hp : ledgerProcess fuel d n m l = some ((d', m'), l')) :
    Settled size d' m' l' := by
  unfold ledgerProcess at hp
  cases hq : d.activeQueue n with
  | none =>
    rw [hq] at hp
    cases hp
    exact h
  | some qi =>
    rw [hq] at hp
    exact Loop.run_invariant (J := fun s => Settled size s.1.1 s.1.2 s.2 ∧ s.1.1.pendingBlockRequest = none)
      (Q := fun s => Settled size s.1.1 s.1.2 s.2) (fun _ _ hs hb => hs.1.ledgerPass_next hs.2 hb)
      (fun _ _ hs hb => hs.1.ledgerPass_done hs.2 hb) ⟨h, activeQueue_pending hq⟩ hp

/-! ### Completion -/

/-- What a completion does: nothing, or it publishes the request. -/
theorem complete_cases {id : U64} {data : List U8} {ok done : Bool} (h : Settled size d m l)
    (hc : d.completeBlockRequest id data ok m = (done, d', m')) :
    (done = false ∧ d' = d ∧ m' = m) ∨
    ∃ r, d.pendingBlockRequest = some r ∧ r.id = id ∧ done = true ∧
      d' = { d with backend := .externalBlock size none }.advance r.queueIndex ∧ m' = commitCompletion r data ok m := by
  unfold completeBlockRequest at hc
  rw [h.backend_eq] at hc
  cases hp : d.pendingBlockRequest with
  | none =>
    rw [hp] at hc
    cases hc
    exact Or.inl ⟨rfl, rfl, rfl⟩
  | some r =>
    rw [hp] at hc
    dsimp only at hc
    split_ifs at hc with hid htarget
    · cases hc
      exact Or.inl ⟨rfl, rfl, rfl⟩
    · cases hc
      exact Or.inl ⟨rfl, rfl, rfl⟩
    · cases hc
      exact Or.inr ⟨r, rfl, not_not.1 hid, rfl, rfl, rfl⟩

/-- The request with the host is completed by its id. -/
theorem Settled.complete_pending (h : Settled size d m l) {r : PendingBlockRequest} (hr : d.pendingBlockRequest = some r)
    (data : List U8) (ok : Bool) : d.completeBlockRequest r.id data ok m =
      (true, { d with backend := .externalBlock size none }.advance r.queueIndex, commitCompletion r data ok m) := by
  unfold completeBlockRequest
  rw [h.backend_eq, hr]
  dsimp only
  rw [if_neg (not_not.2 rfl), if_neg (by rw [h.targets r hr]; decide)]

theorem Settled.complete (h : Settled size d m l) {id : U64} {data : List U8} {ok done : Bool}
    (hc : d.completeBlockRequest id data ok m = (done, d', m')) : Settled size d' m' (ledgerComplete d done l) := by
  rcases complete_cases h hc with ⟨rfl, rfl, rfl⟩ | ⟨r, hr, -, rfl, rfl, rfl⟩
  · exact h
  · have hpend : ({ d with backend := .externalBlock size none }.advance r.queueIndex).pendingBlockRequest = none := rfl
    unfold ledgerComplete
    rw [hr]
    dsimp only
    exact {
      backend := ⟨none, rfl⟩
      count := fun qi => by
        unfold Ledger.publish advance setQueue
        dsimp only
        by_cases hi : qi = r.queueIndex
        · rw [if_pos hi, if_pos hi, ← hi]
          dsimp only
          rw [h.count, List.length_append, List.length_singleton, BitVec.ofNat_add]
          rfl
        · rw [if_neg hi, if_neg hi, h.count]
      indices := h.indices
      entries := fun qi => by
        have he := h.entries qi
        rw [outstanding_none hpend, List.append_nil]
        unfold outstanding at he
        rw [hr] at he
        unfold Ledger.publish
        dsimp only at he ⊢
        by_cases hi : qi = r.queueIndex
        · rw [if_pos hi.symm] at he
          rw [if_pos hi, he]
        · rw [if_neg (Ne.symm hi), List.append_nil] at he
          rw [if_neg hi, he]
      targets := fun r' hr' => by rw [hpend] at hr'; cases hr'
      apart := fun r' hr' => by rw [hpend] at hr'; cases hr' }

theorem settled_of_reaches (h : Reaches size d m l) : Settled size d m l := by
  induction h with
  | new m => exact settled_new m
  | memory _ hm ih => exact ih.memory hm
  | write _ offset val ih => exact ih.write offset val
  | process _ fuel qi hp ih => exact ih.process hp
  | pass _ qi hnone hp ih => exact (ih.ledgerPass_next hnone hp).1
  | complete _ id data ok hc ih => exact ih.complete hc

/-! ## Exactly once -/

/-- A completion publishes its request: the head in the used entry, and an index one more than when the entry was taken. -/
theorem commitCompletion_used {r : PendingBlockRequest} {data : List U8} {ok : Bool} (ht : completionTargetsValid r m)
    (hap : r.usedIndexAddr.toNat + 2 ≤ r.usedEntry.toNat) :
    (commitCompletion r data ok m).read16 r.usedIndexAddr = some (r.usedIdx + 1) ∧
      (commitCompletion r data ok m).read32 r.usedEntry = some (r.head.setWidth 32) := by
  have hcopy : ∀ (buffers : List (U64 × U32)) (data : List U8) (m : Dma), SameRam m (copyBuffers buffers data m).2 := by
    intro buffers
    induction buffers with
    | nil => exact fun _ m => .refl m
    | cons b buffers ih => exact fun data m => (guestWrite_sameRam m _ _).trans (ih _ _)
  unfold completionTargetsValid at ht
  simp only [Bool.and_eq_true] at ht
  obtain ⟨⟨⟨-, -⟩, hentry⟩, hidx⟩ := ht
  unfold commitCompletion
  dsimp only
  generalize (ok && _) = success
  have hram : SameRam m (if success && r.kind == .read then copyBuffers r.readBuffers data m else (success, m)).2 := by
    split_ifs
    · exact hcopy _ _ _
    · exact .refl m
  generalize (if success && r.kind == .read then copyBuffers r.readBuffers data m else (success, m)) = copied at hram
  have hall := hram.trans (guestWrite_sameRam copied.2 r.statusAddr [if copied.1 then 0 else 1])
  refine ⟨publish_idx _ _ _ _ _ _ ?_, publish_head _ _ _ _ ?_ hap⟩
  · rwa [hall.offset]
  · rwa [hall.offset]

/-- A queue that has been processed is drained, or its next chain is with the host. -/
theorem process_drains (hb : d.backend = .externalBlock size none) {fuel n : ℕ} (hq : d.activeQueue n = some qi)
    (hp : d.process fuel n m = some (d', m')) :
    (∃ r, d'.pendingBlockRequest = some r ∧ m'.read16 r.usedIndexAddr = some r.usedIdx) ∨ Drained d' qi m' := by
  unfold process at hp
  rw [hq] at hp
  refine Loop.run_invariant (J := fun s => s.1.backend = .externalBlock size none)
    (Q := fun s => (∃ r, s.1.pendingBlockRequest = some r ∧ s.2.read16 r.usedIndexAddr = some r.usedIdx) ∨
      Drained s.1 qi s.2) ?_ ?_ hb hp
  · rintro ⟨d, m⟩ ⟨d₁, m₁⟩ hb hbody
    obtain ⟨a, written, d₂, m₂, -, hs, rfl, -⟩ := (VirtioDev.pass_next (Option.some.inj hbody)).step
    rcases service_external hb qi a.chain m with ⟨w, m₃, hs'⟩ | ⟨r, hs', -⟩
    · rw [hs] at hs'
      cases hs'
      exact hb
    · rw [hs] at hs'
      cases hs'
  · rintro ⟨d, m⟩ ⟨d₁, m₁⟩ hb hbody
    rcases VirtioDev.pass_done hb (Option.some.inj hbody) with ⟨rfl, rfl, hd⟩ | ⟨a, r, ha, -, -, hu, rfl, rfl, -, -⟩
    · exact Or.inr hd
    · refine Or.inl ⟨r, rfl, ?_⟩
      have hidx : r.usedIndexAddr = a.usedIndexAddr ∧ r.usedIdx = a.usedIdx :=
        ⟨congrArg UsedEntry.indexAddr hu, congrArg UsedEntry.idx hu⟩
      rw [hidx.1, hidx.2]
      exact (nextAvail_used ha).2.1

/-- What holds of an external disk in every state. -/
structure ExactlyOnce (d : VirtioDev) (m : Dma) (l : Ledger) : Prop where
  /-- What is published is what was taken, in the order it was taken, less the request with the host. -/
  inOrder : ∀ qi, (l.taken qi).map (·.2) = l.published qi ++ d.outstanding qi
  /-- The entries taken are those of the ring indices 0, 1, 2 and so on, each once. -/
  indices : ∀ qi, (l.taken qi).map (·.1) = ringIndices (l.taken qi).length
  consumed : ∀ qi, (d.queues qi).lastAvailIdx = BitVec.ofNat 16 (l.published qi).length
  onePending : (l.taken 0).length + (l.taken 1).length ≤ (l.published 0).length + (l.published 1).length + 1
  /-- With a request with the host, polls and notifies do nothing. -/
  blocked : d.pendingBlockRequest.isSome → ∀ fuel qi, d.process fuel qi m = some (d, m)
  /-- A register write other than a reset leaves the request and what is consumed. -/
  held : ∀ (offset : U64) (val : U32), ¬ (offset.toNat = 0x070 ∧ val = 0) →
    (d.write offset val).2.pendingBlockRequest = d.pendingBlockRequest ∧
      ∀ qi, ((d.write offset val).2.queues qi).lastAvailIdx = (d.queues qi).lastAvailIdx
  /-- A completion of anything but the request with the host is refused and changes nothing. -/
  stale : ∀ id data ok, (∀ r, d.pendingBlockRequest = some r → r.id ≠ id) →
    d.completeBlockRequest id data ok m = (false, d, m)
  /-- The completion of the request with the host publishes it, at an index one more than when it was taken. -/
  completes : ∀ r data ok, d.pendingBlockRequest = some r → ∃ d' m', d.completeBlockRequest r.id data ok m = (true, d', m') ∧
    d'.pendingBlockRequest = none ∧ m'.read16 r.usedIndexAddr = some (r.usedIdx + 1) ∧
      m'.read32 r.usedEntry = some (r.head.setWidth 32)
  /-- A chain that is serviced at once is published, at an index one more than it was. -/
  publishes : ∀ qi d' m', pass qi d m = .next (d', m') → ∃ a, nextAvail m (d.queues qi) = some a ∧
    m.read16 a.usedIndexAddr = some a.usedIdx ∧ m'.read16 a.usedIndexAddr = some (a.usedIdx + 1) ∧
      m'.read32 a.usedEntry = some (a.head.setWidth 32)
  /-- A queue that is processed is drained, or its next chain is with the host and its used index is as it was. -/
  drains : ∀ fuel n qi d' m', d.activeQueue n = some qi → d.process fuel n m = some (d', m') →
    (∃ r, d'.pendingBlockRequest = some r ∧ m'.read16 r.usedIndexAddr = some r.usedIdx) ∨ Drained d' qi m'

/-- RAM with a flush request: two descriptors, the header and the status byte, and one entry available. -/
def flushDma : Dma where
  ram := {
    base := RAM_BASE
    len := 4096
    mem := fun i => ([(0x01, 2), (0x03, 0x80), (0x08, 16), (0x0c, 1), (0x0e, 1), (0x11, 3), (0x13, 0x80), (0x18, 1), (0x1c, 2),
      (0x102, 1), (0x200, 4)].lookup i).getD 0
    fits := RAM_page_fits
    len_lt := page_len_lt }
  jit := .new 4096
  nextBlockRequestId := 1

end VirtioDev
end Lish
