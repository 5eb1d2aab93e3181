import Lish.System.VirtioQueue
/-!
# VirtioEnds — when queue processing ends

The loop compares its own index with the one in guest RAM, which the device may itself overwrite.  Processing ends within the
chains available at the call if no range the device writes reaches that index, and exactly if the device does not move it and
go on.
-/
namespace Lish
namespace VirtioDev

open Dma

variable {d d' : VirtioDev} {m m' : Dma} {qi : Fin 2} {n : ℕ}

/-! ## When processing ends -/

/-- The chains the guest has made available and the device not yet consumed. -/
def available (d : VirtioDev) (qi : Fin 2) (m : Dma) : ℕ :=
  match availIdx m (d.queues qi) with
  | some idx => (idx - (d.queues qi).lastAvailIdx).toNat
  | none => 0

theorem availIdx_isSome (h : SameRam m m') {q q' : Queue} (ha : q'.avail = q.avail) :
    (availIdx m' q').isSome = (availIdx m q).isSome := by
  unfold availIdx
  rw [ha]
  cases checkedAdd q.avail 2 with
  | none => rfl
  | some addr =>
    rw [Option.bind_some, Option.bind_some, read16_isSome, read16_isSome, h.offset]

/-- The device has moved the available index when it has serviced all the chains available at the call, and goes on. -/
def Overruns (qi : Fin 2) (d : VirtioDev) (m : Dma) : Prop :=
  ∃ s t, Loop.after (passBody qi) (available d qi m) (d, m) = some s ∧
    availIdx s.2 (s.1.queues qi) ≠ availIdx m (d.queues qi) ∧ pass qi s.1 s.2 = .next t

theorem passes_bounded_iff (qi : Fin 2) (d : VirtioDev) (m : Dma) :
    (Loop.run (passBody qi) (available d qi m + 1) (d, m)).isSome ↔ ¬ Overruns qi d m := by
  rw [Loop.run_isSome_iff]
  constructor
  · rintro ⟨k, hk, s, r, ha, hd⟩ ⟨s', t, ha', -, hn⟩
    have hlt := Loop.le_of_done ha hd ha'
    obtain rfl : k = available d qi m := by omega
    obtain rfl : s = s' := Option.some.inj (ha.symm.trans ha')
    cases (Option.some.inj hd).symm.trans hn
  · intro hno
    by_contra hall
    have hafter : ∀ k ≤ available d qi m + 1, ∃ s, Loop.after (passBody qi) k (d, m) = some s := by
      intro k
      induction k with
      | zero => exact fun _ => ⟨_, rfl⟩
      | succ k ih =>
        intro hk
        obtain ⟨s, hs⟩ := ih (by omega)
        rw [Loop.after_succ hs]
        cases hp : pass qi s.1 s.2 with
        | done r => exact absurd ⟨k, by omega, s, r, hs, congrArg some hp⟩ hall
        | next t => exact ⟨t, by rw [passBody, hp]⟩
    obtain ⟨s, hs⟩ := hafter (available d qi m) (by omega)
    obtain ⟨t, ht⟩ := hafter (available d qi m + 1) le_rfl
    rw [Loop.after_succ hs, passBody] at ht
    cases hp : pass qi s.1 s.2 with
    | done r => rw [hp] at ht; cases ht
    | next u =>
      obtain ⟨d', m'⟩ := u
      refine hno ⟨s, (d', m'), hs, fun heq => ?_, hp⟩
      obtain ⟨hq, hram⟩ := after_passes hs
      obtain ⟨idx, hidx, hne⟩ := (pass_next hp).waiting
      rw [heq] at hidx
      apply hne
      rw [hq]
      unfold available
      rw [hidx]
      dsimp only
      rw [BitVec.ofNat_toNat, BitVec.setWidth_eq]
      abel

/-- Two ranges of addresses have no address in common. -/
def Apart (r r' : U64 × ℕ) : Prop := r.1.toNat + r.2 ≤ r'.1.toNat ∨ r'.1.toNat + r'.2 ≤ r.1.toNat

instance (r r' : U64 × ℕ) : Decidable (Apart r r') := inferInstanceAs (Decidable (_ ∨ _))

/-- No range that the next pass may write reaches the available index. -/
def Clear (qi : Fin 2) (s : VirtioDev × Dma) : Prop :=
  ∀ range ∈ s.1.writeRanges qi s.2, Apart range ((s.1.queues qi).avail + 2, 2)

instance (qi : Fin 2) (s : VirtioDev × Dma) : Decidable (Clear qi s) := inferInstanceAs (Decidable (∀ _ ∈ _, _))

theorem Serviced.availIdx_eq (h : Serviced qi d m d' m') (hc : Clear qi (d, m)) :
    availIdx m' (d'.queues qi) = availIdx m (d.queues qi) := by
  have ha : (d'.queues qi).avail = (d.queues qi).avail := by rw [h.queues]
  unfold availIdx
  rw [ha]
  cases haddr : checkedAdd (d.queues qi).avail 2 with
  | none => rfl
  | some addr =>
    obtain rfl := checkedAdd_some haddr
    rw [Option.bind_some, Option.bind_some]
    apply read16_congr h.sameRam
    intro i hi
    refine h.outside i fun range hr hw => ?_
    obtain ⟨h1, h2⟩ := hi.within
    obtain ⟨h3, h4⟩ := hw
    dsimp only at h1 h2
    rcases hc range hr with hlt | hlt
    · dsimp only at hlt; omega
    · dsimp only at hlt; omega

theorem after_availIdx (h : ∀ n s, Loop.after (passBody qi) n (d, m) = some s → Clear qi s) {n : ℕ} {s : VirtioDev × Dma}
    (hs : Loop.after (passBody qi) n (d, m) = some s) : availIdx s.2 (s.1.queues qi) = availIdx m (d.queues qi) := by
  induction n generalizing s with
  | zero =>
    obtain rfl : (d, m) = s := Option.some.inj hs
    rfl
  | succ n ih =>
    obtain ⟨s', hs'⟩ := Loop.after_of_succ hs
    rw [Loop.after_succ hs', passBody] at hs
    cases hp : pass qi s'.1 s'.2 with
    | done r => rw [hp] at hs; cases hs
    | next t =>
      rw [hp] at hs
      obtain rfl : t = s := Option.some.inj hs
      rw [(pass_next hp).availIdx_eq (h n s' hs'), ih hs']

/-- The passes a call of `process` may need: one for each chain available, and the one that finds no more. -/
def passBound (d : VirtioDev) (qi : ℕ) (m : Dma) : ℕ :=
  match d.activeQueue qi with
  | some q => available d q m + 1
  | none => 0

theorem process_mono {fuel fuel' : ℕ} {r : VirtioDev × Dma} (h : d.process fuel n m = some r) (hf : fuel ≤ fuel') :
    d.process fuel' n m = some r := by
  unfold process at h ⊢
  cases hq : d.activeQueue n with
  | none => rw [hq] at h; exact h
  | some q =>
    rw [hq] at h
    exact Loop.run_mono h hf

theorem process_isSome_iff (d : VirtioDev) (qi : ℕ) (m : Dma) :
    (d.process (passBound d qi m) qi m).isSome ↔ ∀ q, d.activeQueue qi = some q → ¬ Overruns q d m := by
  unfold process passBound
  cases hq : d.activeQueue qi with
  | none => exact ⟨fun _ q h => (nomatch h), fun _ => rfl⟩
  | some q =>
    dsimp only
    rw [passes_bounded_iff]
    exact ⟨fun h q' hq' => Option.some.inj hq' ▸ h, fun h => h q rfl⟩

/-- RAM of 4 KiB, zero except for one byte: a queue with one chain available. -/
def oneChainRam : FlatMemory where
  base := RAM_BASE
  len := 4096
  mem := fun i => if i = 0x102 then 1 else 0
  fits := RAM_page_fits
  len_lt := page_len_lt

def oneChainDma : Dma := ⟨oneChainRam, .new 4096, 1⟩

/-- An external disk of which the guest has set up one queue. -/
def queueDevice (sel num : U32) (desc avail used : U64) : VirtioDev :=
  [(0x030, sel), (0x038, num), (0x080, desc.setWidth 32), (0x090, avail.setWidth 32), (0x0a0, used.setWidth 32),
    (0x044, 1)].foldl (fun d (reg : U64 × U32) => (d.write reg.1 reg.2).2) (new (.externalBlock 0 none))

/-- A second queue of one slot, with its used ring at an address. -/
def oneChainDevice (used : U64) : VirtioDev := queueDevice 1 1 RAM_BASE (RAM_BASE + 0x100) used

/-- A used ring that lies on the available ring: what the device publishes is available again. -/
structure Chasing (s : VirtioDev × Dma) : Prop where
  backend : s.1.backend = .externalBlock 0 none
  ram : s.2.ram.base = RAM_BASE ∧ s.2.ram.len = 4096
  queue : ∃ l, s.1.queues 1 = ⟨1, 1, RAM_BASE, RAM_BASE + 0x100, RAM_BASE + 0x100, l⟩ ∧
    s.2.read16 (RAM_BASE + 0x102) = some (l + 1)
  desc : ∀ i < 16, s.2.ram.mem i = 0
  slot : ∀ i, 0x104 ≤ i → i < 0x10c → s.2.ram.mem i = 0

theorem Chasing.offset {s : VirtioDev × Dma} (h : Chasing s) (addr : U64) (n : ℕ) :
    s.2.ram.offset addr n = oneChainRam.offset addr n := FlatMemory.offset_congr h.ram.1 h.ram.2 addr n

theorem Chasing.read_desc {s : VirtioDev × Dma} (h : Chasing s) {addr : U64} {n : ℕ} (off : ℕ)
    (ho : oneChainRam.offset addr n = some off) (hn : off + n ≤ 16) : s.2.read addr n = some 0 :=
  read_zero ((h.offset addr n).trans ho) fun i hi => h.desc _ (by omega)

theorem Chasing.nextAvail {s : VirtioDev × Dma} (h : Chasing s) {l : U16}
    (hl : s.1.queues 1 = ⟨1, 1, RAM_BASE, RAM_BASE + 0x100, RAM_BASE + 0x100, l⟩)
    (hidx : s.2.read16 (RAM_BASE + 0x102) = some (l + 1)) :
    nextAvail s.2 (s.1.queues 1) = some ⟨0, [⟨0, 0, false⟩], RAM_BASE + 0x102, RAM_BASE + 0x104, l + 1⟩ := by
  have hhead : s.2.read16 (RAM_BASE + 0x104) = some 0 := by
    unfold Dma.read16
    rw [read_zero ((h.offset _ _).trans (show oneChainRam.offset (RAM_BASE + 0x104) 2 = some 0x104 by decide))
      fun i hi => h.slot _ (by omega) (by omega)]
    rfl
  have hchain : walkChain s.2 RAM_BASE 1 0 = some [⟨0, 0, false⟩] := by
    have haddr : s.2.read64 RAM_BASE = some 0 := h.read_desc 0 (by decide) (by decide)
    have hlen : s.2.read32 (RAM_BASE + 8) = some 0 := by
      unfold Dma.read32
      rw [h.read_desc 8 (by decide) (by decide)]
      rfl
    have hflags : s.2.read16 (RAM_BASE + 12) = some 0 := by
      unfold Dma.read16
      rw [h.read_desc 12 (by decide) (by decide)]
      rfl
    rw [walkChain, show checkedMul 0 16 = some 0 by decide]
    simp only [Option.bind_eq_bind, Option.bind_some, show checkedAdd RAM_BASE 0 = some RAM_BASE by decide, haddr,
      show checkedAdd RAM_BASE 8 = some (RAM_BASE + 8) by decide, hlen,
      show checkedAdd RAM_BASE 12 = some (RAM_BASE + 12) by decide, hflags]
    rfl
  have hslot : ∀ v : U16, v.setWidth 64 % (1#32).setWidth 64 = (0 : U64) := fun v => by
    apply BitVec.eq_of_toNat_eq
    rw [BitVec.toNat_umod]
    exact Nat.mod_one _
  have hentry : s.2.ram.offset (RAM_BASE + 0x104) 8 = some 0x104 := (h.offset _ _).trans (by decide)
  rw [hl]
  unfold VirtioDev.nextAvail
  dsimp only
  simp only [show (1 : U32) = 1#32 from rfl, hslot, Option.bind_eq_bind, Option.bind_some,
    show checkedAdd (RAM_BASE + 0x100) (4 + 0 * 2) = some (RAM_BASE + 0x104) by decide, hhead,
    show (BitVec.setWidth 64 (0 : U16)) = (0 : U64) from rfl, show (1#32).toNat = 1 from rfl, hchain,
    show checkedAdd (RAM_BASE + 0x100) 2 = some (RAM_BASE + 0x102) by decide, hidx,
    show checkedAdd (RAM_BASE + 0x100) (4 + 0 * 8) = some (RAM_BASE + 0x104) by decide, hentry]

/-- **A pass** over such a ring goes on and leaves such a ring. -/
theorem Chasing.pass {s : VirtioDev × Dma} (h : Chasing s) : ∃ s', passBody 1 s = some (.next s') ∧ Chasing s' := by
  obtain ⟨l, hl, hidx⟩ := h.queue
  have hentry : s.2.ram.offset (RAM_BASE + 0x104) 4 = some 0x104 := (h.offset _ _).trans (by decide)
  have hservice : s.1.service 1 [⟨0, 0, false⟩] s.2 = (some 0, s.1, s.2) := by
    unfold service
    rw [h.backend]
    dsimp only
    rw [serviceExternal, if_pos (by decide)]
    dsimp only
    rw [← h.backend]
  have hpass : VirtioDev.pass 1 s.1 s.2 =
      .next (s.1.advance 1, publish s.2 (RAM_BASE + 0x104) (RAM_BASE + 0x102) 0 (l + 1) 0) := by
    have havail : availIdx s.2 (s.1.queues 1) = some (l + 1) := by
      rw [hl, availIdx, show checkedAdd (RAM_BASE + 0x100) 2 = some (RAM_BASE + 0x102) by decide, Option.bind_some, hidx]
    unfold VirtioDev.pass
    dsimp only
    rw [if_neg (by rw [hl]; exact (by decide : ¬ (1 : U32) = 0)), havail]
    dsimp only
    rw [if_neg (by rw [hl]; exact fun hc => absurd (left_eq_add.1 hc) (by decide)), h.nextAvail hl hidx]
    dsimp only
    rw [hservice]
  refine ⟨_, congrArg some hpass, ?_⟩
  have hram := publish_rel dmaRel_sameRam s.2 (RAM_BASE + 0x104) (RAM_BASE + 0x102) 0 (l + 1) 0
  have hzero : ∀ i, i ≠ 0x102 → i ≠ 0x103 → s.2.ram.mem i = 0 →
      (publish s.2 (RAM_BASE + 0x104) (RAM_BASE + 0x102) 0 (l + 1) 0).ram.mem i = 0 := by
    intro i h2 h3 hz
    unfold publish
    rw [write16_outside]
    · exact write_zero (write_zero hz)
    · intro hw
      rw [((write32_sameRam _ _ _).trans (write32_sameRam _ _ _)).within] at hw
      unfold Dma.Within at hw
      rw [h.ram.1] at hw
      have : (RAM_BASE + 0x102).toNat = RAM_BASE.toNat + 0x102 := by decide
      dsimp only at hw
      omega
  exact {
    backend := h.backend
    ram := ⟨hram.1.trans h.ram.1, hram.2.trans h.ram.2⟩
    queue := by
      refine ⟨l + 1, ?_, ?_⟩
      · unfold advance setQueue
        dsimp only
        rw [if_pos rfl, hl]
      · unfold publish
        dsimp only
        rw [read16_write16]
        rw [((write32_sameRam _ _ _).trans (write32_sameRam _ _ _)).offset, h.offset]
        decide
    desc := fun i hi => hzero i (by omega) (by omega) (h.desc i hi)
    slot := fun i h1 h2 => hzero i (by omega) (by omega) (h.slot i h1 h2) }

end VirtioDev
end Lish
