import Mathlib.Logic.Relation
import Lish.System.BusFrame
import Lish.System.Slices
/-!
# Clock — the guest's time does not go backward

Instructions, slept ticks and the host's clock are merged by `syncDevices`, which makes the time the hart reads continuous:
the next clock is at least what was visible, and what is visible next is that clock.
-/
namespace Lish
namespace VirtMachine

/-- One thing that happens to the machine. -/
inductive ClockStep : VirtMachine → VirtMachine → Prop
  /-- Any computation of the hart: instructions, traps, polls. -/
  | hart {α : Type} (m : VirtMachine) (p : Hart α) : ClockStep m { m with hart := (p.run Machine.exec m.hart).2 }
  /-- Compiled code retires instructions. -/
  | retire (m : VirtMachine) (n : U64) : ClockStep m (m.mapCpu fun c => { c with insnCount := c.insnCount + n })
  | sync (m : VirtMachine) : ClockStep m m.syncDevices
  | advance (m : VirtMachine) (ns : U64) : ClockStep m (m.advanceRealtimeNs ns)
  /-- A WFI that ends a slice. -/
  | sleep (m : VirtMachine) : ClockStep m m.sleep.1
  | sbi (m : VirtMachine) : ClockStep m m.serviceSbi
  | poll (m : VirtMachine) : ClockStep m (m.mapBus VirtBus.pollVirtio)
  | complete (m : VirtMachine) (id : U64) (data : List U8) (ok : Bool) : ClockStep m (m.completeBlockRequest id data ok).2
  | input (m : VirtMachine) (bytes : List U8) : ClockStep m (m.consoleInput bytes)
  | netInput (m : VirtMachine) (frame : List U8) : ClockStep m (m.netInput frame)
  | netOutput (m : VirtMachine) : ClockStep m m.netTakeOutput
  | setRtc (m : VirtMachine) (ns : U64) : ClockStep m (m.setRtcUnixNs ns)
  /-- Decoded code is cached, the power goes off. -/
  | host (m : VirtMachine) (cache : CodePageCache) (off : Bool) : ClockStep m { m with codeCache := cache, powerOff := off }

/-- A machine after reset, with its ratio of instructions to ticks. -/
def Boots (m : VirtMachine) : Prop :=
  ∃ ram virtio directSbi dtbAddr dynAddr passes insnsPerTick, insnsPerTick ≠ 0 ∧
    m = { new ram virtio directSbi dtbAddr dynAddr passes with insnsPerTick := insnsPerTick }

/-- No sum of the clocks wraps: the instruction time while it is used, and the time the hart reads. -/
structure Fits (m : VirtMachine) : Prop where
  instruction : m.realtimeTicks = none → m.hart.cpu.insnCount.toNat / m.insnsPerTick.toNat + m.idleTicks.toNat < 2 ^ 64
  visible : ∀ t scale offset, m.hart.cpu.clocks = some (t, scale, offset) → scale ≠ 0 →
    m.hart.cpu.insnCount.toNat / scale.toNat + offset.toNat < 2 ^ 64

/-- Neither a counter of the clocks nor a sum of them wraps in a step. -/
structure NoWrap (m m' : VirtMachine) : Prop where
  insns : m.hart.cpu.insnCount ≤ m'.hart.cpu.insnCount
  idle : m.idleTicks ≤ m'.idleTicks
  fits : Fits m'

/-- **A run** in which no clock wraps. -/
inductive ClockRun : VirtMachine → VirtMachine → Prop
  | refl (m : VirtMachine) : ClockRun m m
  | step {m m' m''} (h : ClockRun m m') (hs : ClockStep m' m'') (hw : NoWrap m' m'') : ClockRun m m''

/-! ## Readings -/

variable {m m' m'' : VirtMachine}

/-- The time by instructions. -/
def instructionTime (m : VirtMachine) : ℕ := m.hart.cpu.insnCount.toNat / m.insnsPerTick.toNat + m.idleTicks.toNat

/-- The time the hart reads, from what it is made of. -/
def reading (insnCount : U64) (c : U64 × U64 × U64) : U64 := if c.2.1 = 0 then c.1 else insnCount / c.2.1 + c.2.2

theorem visibleTime_eq {c : U64 × U64 × U64} (h : m.hart.cpu.clocks = some c) : m.visibleTime = reading m.hart.cpu.insnCount c := by
  unfold visibleTime reading
  unfold Cpu.clocks at h
  cases hs : m.hart.cpu.sys with
  | none => rw [hs] at h; cases h
  | some s =>
    rw [hs] at h
    obtain rfl := Option.some.inj h
    rfl

/-- The TIME register reads the visible time, in every mode. -/
theorem csrRead_time (h : m.hart.cpu.clocks.isSome) : m.hart.cpu.csrRead TIME = some m.visibleTime := by
  unfold Cpu.clocks at h
  cases hs : m.hart.cpu.sys with
  | none => rw [hs] at h; cases h
  | some s =>
    unfold Cpu.csrRead visibleTime
    rw [hs, if_neg (by simp [TIME])]
    rfl

theorem reading_toNat {m : VirtMachine} (hf : Fits m) {c : U64 × U64 × U64} (h : m.hart.cpu.clocks = some c) (hc : c.2.1 ≠ 0) :
    (reading m.hart.cpu.insnCount c).toNat = m.hart.cpu.insnCount.toNat / c.2.1.toNat + c.2.2.toNat := by
  unfold reading
  rw [if_neg hc, BitVec.toNat_add, BitVec.toNat_udiv, Nat.mod_eq_of_lt (hf.visible c.1 c.2.1 c.2.2 h hc)]

/-- What a machine keeps while its clocks run: the scale, and while time is made of instructions nothing read is later. -/
structure Running (m : VirtMachine) : Prop where
  perTick : m.insnsPerTick ≠ 0
  system : ∃ t scale offset, m.hart.cpu.clocks = some (t, scale, offset) ∧ (scale = 0 ∨ scale = m.insnsPerTick)
  behind : m.realtimeTicks = none → m.hart.bus.mtime.toNat ≤ m.instructionTime ∧ m.visibleTime.toNat ≤ m.instructionTime

/-- What is read does not go back, and the machine keeps running. -/
structure Onward (m m' : VirtMachine) : Prop where
  running : Running m'
  visible : m.visibleTime ≤ m'.visibleTime
  mtime : m.hart.bus.mtime ≤ m'.hart.bus.mtime

/-- A step that leaves the clocks, while instructions may retire and ticks be slept. -/
theorem Running.onward (h : Running m) (hf : Fits m) (hw : NoWrap m m') (hc : m'.hart.cpu.clocks = m.hart.cpu.clocks) (hm : m'.hart.bus.mtime = m.hart.bus.mtime)
    (hk : m'.insnsPerTick = m.insnsPerTick) (hd : m'.realtimeTicks = none → m.realtimeTicks = none) : Onward m m' := by
  have hf' := hw.fits
  obtain ⟨t, scale, offset, hcl, hscale⟩ := h.system
  have hcl' : m'.hart.cpu.clocks = some (t, scale, offset) := hc.trans hcl
  have hi' := BitVec.le_def.1 hw.insns
  have hidle := BitVec.le_def.1 hw.idle
  have hvis : m.visibleTime ≤ m'.visibleTime := by
    rw [visibleTime_eq hcl, visibleTime_eq hcl']
    by_cases hz : scale = 0
    · unfold reading
      rw [if_pos hz, if_pos hz]
      exact BitVec.le_refl _
    · rw [BitVec.le_def, reading_toNat hf hcl hz, reading_toNat hf' hcl' hz]
      have := Nat.div_le_div_right (c := scale.toNat) hi'
      dsimp only
      omega
  refine ⟨⟨hk ▸ h.perTick, ⟨t, scale, offset, hcl', hk ▸ hscale⟩, fun hr => ?_⟩, hvis, hm ▸ BitVec.le_refl _⟩
  obtain ⟨hb1, hb2⟩ := h.behind (hd hr)
  have hgrow : m.instructionTime ≤ m'.instructionTime := by
    unfold instructionTime
    rw [hk]
    exact Nat.add_le_add (Nat.div_le_div_right hi') hidle
  refine ⟨by rw [hm]; omega, ?_⟩
  rw [visibleTime_eq hcl'] at *
  rw [visibleTime_eq hcl] at hb2
  rcases hscale with hz | hz
  · unfold reading at hb2 ⊢
    rw [if_pos hz] at hb2 ⊢
    omega
  · have hne : scale ≠ 0 := hz ▸ h.perTick
    rw [reading_toNat hf hcl hne] at hb2
    rw [reading_toNat hf' hcl' hne]
    unfold instructionTime at hb2 ⊢
    rw [hk, ← hz]
    rw [← hz] at hb2
    dsimp only at hb2 ⊢
    omega

/-! ## Synchronization -/

theorem sync_mtime (m : VirtMachine) : m.syncDevices.hart.bus.mtime = m.nextMtime := rfl

theorem sync_insnCount (m : VirtMachine) : m.syncDevices.hart.cpu.insnCount = m.hart.cpu.insnCount := rfl

theorem sync_clocks (m : VirtMachine) {c : U64 × U64 × U64} (h : m.hart.cpu.clocks = some c) :
    m.syncDevices.hart.cpu.clocks = some (m.nextMtime, m.interpolation m.nextMtime) := by
  unfold syncDevices Cpu.clocks mapCpu mapBus Cpu.modifySys
  unfold Cpu.clocks at h
  cases hs : m.hart.cpu.sys with
  | none => rw [hs] at h; cases h
  | some s =>
    dsimp only
    rw [hs, Option.map_some, Option.map_some]
    split_ifs <;> rfl

theorem le_later (a b : U64) : a ≤ later a b ∧ b ≤ later a b := by
  unfold later
  split_ifs with h
  · exact ⟨h, BitVec.le_refl b⟩
  · exact ⟨BitVec.le_refl a, BitVec.le_of_lt (BitVec.not_le.1 h)⟩

/-- What is read right after a sync is the clock. -/
theorem reading_interpolation (hk : m.insnsPerTick ≠ 0) (t : U64) :
    reading m.hart.cpu.insnCount (t, m.interpolation t) = t ∧
      ((m.interpolation t).1 = 0 ∨ (m.interpolation t).1 = m.insnsPerTick) := by
  unfold reading interpolation
  dsimp only
  by_cases h : (m.realtimeTicks.all fun wall => decide (t ≤ wall)) ∧ m.hart.cpu.insnCount / m.insnsPerTick ≤ t
  · rw [if_pos h]
    refine ⟨?_, Or.inr rfl⟩
    dsimp only
    rw [if_neg hk, BitVec.add_comm, BitVec.sub_add_cancel]
  · rw [if_neg h]
    exact ⟨if_pos rfl, Or.inl rfl⟩

/-- **A sync** brings the clock up to what was read, and what is read to the clock. -/
theorem Running.sync (h : Running m) (hf : Fits m) :
    Onward m m.syncDevices ∧ m.syncDevices.visibleTime = m.syncDevices.hart.bus.mtime := by
  obtain ⟨t, scale, offset, hcl, -⟩ := h.system
  have hcl' := sync_clocks m hcl
  obtain ⟨hread, hscale⟩ := reading_interpolation h.perTick m.nextMtime
  have hvis : m.syncDevices.visibleTime = m.nextMtime := by
    rw [visibleTime_eq hcl', sync_insnCount, hread]
  have hnext : m.hart.bus.mtime ≤ m.nextMtime ∧ m.visibleTime ≤ m.nextMtime ∧
      (m.realtimeTicks = none → m.nextMtime.toNat = m.instructionTime) := by
    unfold nextMtime
    cases hr : m.realtimeTicks with
    | some wall =>
      obtain ⟨h1, -⟩ := le_later m.hart.bus.mtime wall
      obtain ⟨h2, h3⟩ := le_later (later m.hart.bus.mtime wall) m.visibleTime
      exact ⟨BitVec.le_trans h1 h2, h3, fun hn => nomatch hn⟩
    | none =>
      obtain ⟨h1, h2⟩ := h.behind hr
      have heq : (m.hart.cpu.insnCount / m.insnsPerTick + m.idleTicks).toNat = m.instructionTime := by
        rw [BitVec.toNat_add, BitVec.toNat_udiv, Nat.mod_eq_of_lt (hf.instruction hr)]
        rfl
      exact ⟨by rw [BitVec.le_def, heq]; exact h1, by rw [BitVec.le_def, heq]; exact h2, fun _ => heq⟩
  refine ⟨⟨⟨h.perTick, ⟨_, _, _, hcl', hscale⟩, fun hr => ?_⟩, by rw [hvis]; exact hnext.2.1, hnext.1⟩, hvis⟩
  have hins : m.syncDevices.instructionTime = m.instructionTime := rfl
  rw [hins, hvis, sync_mtime, hnext.2.2 hr]
  exact ⟨le_rfl, le_rfl⟩

/-! ## Steps -/

/-- Everything time is made of, but for the instruction count. -/
structure SameClocks (m m' : VirtMachine) : Prop where
  clocks : m'.hart.cpu.clocks = m.hart.cpu.clocks
  mtime : m'.hart.bus.mtime = m.hart.bus.mtime
  perTick : m'.insnsPerTick = m.insnsPerTick
  idle : m'.idleTicks = m.idleTicks
  realtime : m'.realtimeTicks = m.realtimeTicks

theorem Running.sameClocks (h : Running m) (hf : Fits m) (hw : NoWrap m m') (hs : SameClocks m m') : Onward m m' :=
  h.onward hf hw hs.clocks hs.mtime hs.perTick fun hr => hs.realtime ▸ hr

/-- **A computation of the hart** leaves the clocks. -/
theorem sameClocks_hart {α : Type} (m : VirtMachine) (p : Hart α) :
    SameClocks m { m with hart := (p.run Machine.exec m.hart).2 } := by
  refine ⟨?_, (Machine.run_bus VirtBus.busRel_steady p m.hart).mtime, rfl, rfl, rfl⟩
  exact Program.run_invariant (P := fun _ _ => True) (J := fun s : Machine VirtBus => s.cpu.clocks = m.hart.cpu.clocks)
    (fun s o hs _ => (Machine.exec_clocks VirtBus.busRel_steady o s).1.trans hs) p rfl (Program.guarded_true _ _ _)

theorem sameClocks_mapBus (m : VirtMachine) {g : VirtBus → VirtBus} (hg : (g m.hart.bus).mtime = m.hart.bus.mtime) :
    SameClocks m (m.mapBus g) := ⟨rfl, hg, rfl, rfl, rfl⟩

theorem sameClocks_setTimer (m : VirtMachine) (deadline : U64) : SameClocks m (m.setTimer deadline) :=
  ⟨Cpu.clocks_modifySys m.hart.cpu fun _ => rfl, rfl, rfl, rfl, rfl⟩

theorem sameClocks_sbi (m : VirtMachine) : SameClocks m m.serviceSbi ∧ m.serviceSbi.hart.cpu.insnCount = m.hart.cpu.insnCount := by
  have hcall : ∀ ext function arg0 arg1, SameClocks m (m.sbiCall ext function arg0 arg1).2.2 ∧
      (m.sbiCall ext function arg0 arg1).2.2.hart.cpu.insnCount = m.hart.cpu.insnCount := by
    intro ext function arg0 arg1
    have hrefl : SameClocks m m := ⟨rfl, rfl, rfl, rfl, rfl⟩
    unfold sbiCall
    split
    all_goals first
      | exact ⟨hrefl, rfl⟩
      | exact ⟨sameClocks_setTimer m _, rfl⟩
      | exact ⟨⟨rfl, rfl, rfl, rfl, rfl⟩, rfl⟩
      | skip
    split_ifs
    · exact ⟨⟨rfl, rfl, rfl, rfl, rfl⟩, rfl⟩
    · exact ⟨hrefl, rfl⟩
  obtain ⟨h, hi⟩ := hcall (m.hart.cpu.x 17) (m.hart.cpu.x 16) (m.hart.cpu.x 10) (m.hart.cpu.x 11)
  exact ⟨⟨h.clocks, h.mtime, h.perTick, h.idle, h.realtime⟩, hi⟩

theorem sync_keeps (m : VirtMachine) : m.syncDevices.insnsPerTick = m.insnsPerTick ∧
    m.syncDevices.idleTicks = m.idleTicks ∧ m.syncDevices.realtimeTicks = m.realtimeTicks := ⟨rfl, rfl, rfl⟩

theorem SameClocks.fits (h : SameClocks m m') (hi : m'.hart.cpu.insnCount = m.hart.cpu.insnCount) (hf : Fits m) : Fits m' where
  instruction hr := by rw [hi, h.perTick, h.idle]; exact hf.instruction (h.realtime ▸ hr)
  visible t scale offset hc := by rw [hi]; exact hf.visible t scale offset (h.clocks ▸ hc)

/-- A completion is followed by a sync. -/
theorem complete_clocks (m : VirtMachine) (id : U64) (data : List U8) (ok : Bool) :
    ∃ m₁, SameClocks m m₁ ∧ m₁.hart.cpu.insnCount = m.hart.cpu.insnCount ∧
      ((m.completeBlockRequest id data ok).2 = m₁ ∨ (m.completeBlockRequest id data ok).2 = m₁.syncDevices) := by
  have hrefl : SameClocks m m := ⟨rfl, rfl, rfl, rfl, rfl⟩
  unfold completeBlockRequest
  dsimp only
  cases m.hart.bus.virtio.findIdx? (·.pendingBlockRequest.isSome) with
  | none => exact ⟨m, hrefl, rfl, Or.inl rfl⟩
  | some i =>
    dsimp only
    cases m.hart.bus.virtio[i]? with
    | none => exact ⟨m, hrefl, rfl, Or.inl rfl⟩
    | some dev =>
      dsimp only
      rcases dev.completeBlockRequest id data ok m.hart.bus.dma with ⟨done, dev', dma⟩
      refine ⟨m.mapBus fun b => { b.setDma dma with virtio := b.virtio.set i dev' }, sameClocks_mapBus m rfl, rfl, ?_⟩
      cases done
      · exact Or.inl rfl
      · exact Or.inr rfl

/-- **Every step** goes on. -/
theorem ClockStep.onward (hs : ClockStep m m') (h : Running m) (hf : Fits m) (hw : NoWrap m m') : Onward m m' := by
  cases hs with
  | hart _ p => exact h.sameClocks hf hw (sameClocks_hart m p)
  | retire _ n => exact h.sameClocks hf hw ⟨rfl, rfl, rfl, rfl, rfl⟩
  | sync => exact (h.sync hf).1
  | advance _ ns => exact h.onward hf hw rfl rfl rfl fun hr => nomatch hr
  | sleep =>
    have hsleep : m.sleep.1.hart = m.hart ∧ m.sleep.1.insnsPerTick = m.insnsPerTick ∧
        m.sleep.1.realtimeTicks = m.realtimeTicks := by
      unfold VirtMachine.sleep
      dsimp only
      split_ifs <;> exact ⟨rfl, rfl, rfl⟩
    exact h.onward hf hw (by rw [hsleep.1]) (by rw [hsleep.1]) hsleep.2.1 fun hr => hsleep.2.2 ▸ hr
  | sbi => exact h.sameClocks hf hw (sameClocks_sbi m).1
  | poll => exact h.sameClocks hf hw (sameClocks_mapBus m (VirtBus.steady_pollVirtio _).mtime)
  | complete _ id data ok =>
    obtain ⟨m₁, hs₁, hi₁, he | he⟩ := complete_clocks m id data ok
    · rw [he] at hw ⊢
      exact h.sameClocks hf hw hs₁
    · have hf₁ := hs₁.fits hi₁ hf
      have h₁ := h.sameClocks hf ⟨by rw [hi₁]; exact BitVec.le_refl _, by rw [hs₁.idle]; exact BitVec.le_refl _, hf₁⟩ hs₁
      have h₂ := (h₁.running.sync hf₁).1
      rw [he]
      exact ⟨h₂.running, BitVec.le_trans h₁.visible h₂.visible, BitVec.le_trans h₁.mtime h₂.mtime⟩
  | input _ bytes => exact h.sameClocks hf hw (sameClocks_mapBus m rfl)
  | netInput _ frame =>
    refine h.sameClocks hf hw (sameClocks_mapBus m ?_)
    cases m.hart.bus.virtio.findIdx? isNet <;> rfl
  | netOutput =>
    refine h.sameClocks hf hw (sameClocks_mapBus m ?_)
    cases m.hart.bus.virtio.findIdx? isNet <;> rfl
  | setRtc _ ns => exact h.sameClocks hf hw (sameClocks_mapBus m rfl)
  | host _ cache off => exact h.sameClocks hf hw ⟨rfl, rfl, rfl, rfl, rfl⟩

/-! ## Runs -/

theorem Boots.running (h : Boots m) : Running m ∧ Fits m := by
  obtain ⟨ram, virtio, directSbi, dtbAddr, dynAddr, passes, insnsPerTick, hk, rfl⟩ := h
  have hclocks : ∀ k, ({ new ram virtio directSbi dtbAddr dynAddr passes with insnsPerTick := k } :
      VirtMachine).hart.cpu.clocks = some (0, 0, 0) := by
    intro k
    cases directSbi <;> rfl
  have hinsn : ∀ k, ({ new ram virtio directSbi dtbAddr dynAddr passes with insnsPerTick := k } :
      VirtMachine).hart.cpu.insnCount = 0 := by
    intro k
    cases directSbi <;> rfl
  refine ⟨⟨hk, ⟨0, 0, 0, hclocks insnsPerTick, Or.inl rfl⟩, fun _ => ⟨Nat.zero_le _, ?_⟩⟩, fun _ => ?_, fun t scale offset hc hs => ?_⟩
  · rw [visibleTime_eq (hclocks insnsPerTick)]
    exact Nat.zero_le _
  · rw [hinsn]
    exact lt_of_eq_of_lt (Nat.add_zero _) (Nat.lt_of_le_of_lt (Nat.div_le_self _ _) (BitVec.isLt _))
  · rw [hclocks] at hc
    cases hc
    exact absurd rfl hs

/-- Along a run, what is read does not go back. -/
theorem ClockRun.onward (hr : ClockRun m m') (h : Running m) (hf : Fits m) : Onward m m' ∧ Fits m' := by
  induction hr with
  | refl => exact ⟨⟨h, BitVec.le_refl _, BitVec.le_refl _⟩, hf⟩
  | step _ hs hw ih =>
    obtain ⟨h₁, hf₁⟩ := ih
    have h₂ := hs.onward h₁.running hf₁ hw
    exact ⟨⟨h₂.running, BitVec.le_trans h₁.visible h₂.visible, BitVec.le_trans h₁.mtime h₂.mtime⟩, hw.fits⟩

/-- A machine without RAM. -/
def emptyMachine : VirtMachine := new ⟨0, fun _ => 0, 0, by decide, FlatMemory.fits_empty⟩ [] false 0 0 1

/-- It sleeps till the deadline a guest has set just before the clock wraps, and synchronizes. -/
def lateMachine : VirtMachine :=
  let hart := ((Hart.write .w8 0x02004000 (BitVec.allOnes 64 - 1)).run Machine.exec emptyMachine.hart).2
  { emptyMachine with hart := hart }.sleep.1.syncDevices

end VirtMachine
end Lish
