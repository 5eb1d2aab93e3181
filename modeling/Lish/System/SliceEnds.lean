import Lish.Core.Tlb
import Lish.System.Progress
import Lish.System.SliceRuns
import Lish.System.VirtioEnds
/-!
# SliceEnds — when a slice returns

A slice runs chunks that each retire, so it returns if its chunks do: always, but for a single-stepping loop under a predicate
whose guest comes to spin, and for queues whose processing does not end.
-/
namespace Lish
namespace VirtMachine

open Machine Loop

variable {S : Type} {host : Option HostFp} {backend : Interpreter S} {fuel fuel' : ℕ} {maxInsns : U64} {m m' : VirtMachine}
  {watch watch' : S} {l l' : Slice S}

/-! ## More turns change nothing -/

theorem interpreter_mono {r : InterpreterStop × VirtMachine × S} (hr : backend.run host fuel maxInsns m watch = some r)
    (hf : fuel ≤ fuel') : backend.run host fuel' maxInsns m watch = some r := by
  cases backend with
  | legacy compiled =>
    obtain ⟨l, hl, rfl⟩ := Option.map_eq_some_iff.1 hr
    refine Option.map_eq_some_iff.2 ⟨l, ?_, rfl⟩
    cases compiled with
    | none => exact hl
    | some compiled => exact run_mono hl hf
  | cached contains observe stopCapable =>
    obtain ⟨l, hl, rfl⟩ := Option.map_eq_some_iff.1 hr
    exact Option.map_eq_some_iff.2 ⟨l, run_mono hl hf, rfl⟩

theorem sliceTurn_mono {t : Turn (Slice S) (Slice S)} (ht : sliceTurn host fuel backend l = some t) (hf : fuel ≤ fuel') :
    sliceTurn host fuel' backend l = some t := by
  unfold sliceTurn at ht ⊢
  by_cases hd : l.remaining = 0 ∨ l.machine.powerOff
  · rw [if_pos hd] at ht ⊢
    exact ht
  · rw [if_neg hd] at ht ⊢
    obtain ⟨r, hr, he⟩ := Option.map_eq_some_iff.1 ht
    exact Option.map_eq_some_iff.2 ⟨r, interpreter_mono hr hf, he⟩

/-- The loop of a slice ends. -/
def LoopEnds (host : Option HostFp) (backend : Interpreter S) (l : Slice S) : Prop :=
  ∃ fuel, (Loop.run (sliceTurn host fuel backend) fuel l).isSome

theorem loopEnds_of_turn {t : Turn (Slice S) (Slice S)} (ht : sliceTurn host fuel backend l = some t)
    (hnext : ∀ l', t = .next l' → LoopEnds host backend l') : LoopEnds host backend l := by
  cases t with
  | done r => exact ⟨fuel + 1, by rw [run_done (sliceTurn_mono ht (Nat.le_succ fuel))]; rfl⟩
  | next l' =>
    obtain ⟨n, hn⟩ := hnext l' rfl
    obtain ⟨r, hr⟩ := Option.isSome_iff_exists.1 hn
    refine ⟨fuel + n + 1, ?_⟩
    have hbody : ∀ s t, sliceTurn host n backend s = some t → sliceTurn host (fuel + n + 1) backend s = some t :=
      fun s t hs => sliceTurn_mono hs (by omega)
    rw [run_next (sliceTurn_mono ht (by omega)), run_mono (run_of_body hbody hr) (by omega)]
    rfl

/-! ## Chunks -/

/-- The next chunk does not return. -/
def ChunkHangs (host : Option HostFp) (backend : Interpreter S) (l : Slice S) : Prop :=
  ¬ (l.remaining = 0 ∨ l.machine.powerOff) ∧
    ∀ fuel, backend.run host fuel (l.machine.chunk backend l.remaining) l.machine l.watch = none

theorem chunk_le (m : VirtMachine) (backend : Interpreter S) (remaining : U64) : m.chunk backend remaining ≤ remaining := by
  unfold chunk
  split_ifs with h
  · exact h.2
  · exact BitVec.le_refl _

theorem afterEcall_next {l l' : Slice S} (h : afterEcall backend l = .next l') :
    l'.remaining = l.remaining ∧ l'.machine.codeCache = l.machine.codeCache := by
  have hcode : ∀ m : VirtMachine, m.serviceSbi.codeCache = m.codeCache := by
    intro m
    have hcall : ∀ ext function arg0 arg1, (m.sbiCall ext function arg0 arg1).2.2.codeCache = m.codeCache := by
      intro ext function arg0 arg1
      unfold sbiCall
      split
      all_goals first
        | rfl
        | skip
      split_ifs <;> rfl
    exact hcall _ _ _ _
  unfold afterEcall at h
  dsimp only at h
  split_ifs at h
  cases h
  exact ⟨rfl, hcode _⟩

theorem afterBudget_next {retired : U64} {l l' : Slice S} (h : afterBudget backend retired l = .next l') :
    retired ≠ 0 ∧ l'.remaining = l.remaining ∧ l'.machine.codeCache = l.machine.codeCache := by
  unfold afterBudget at h
  dsimp only at h
  split_ifs at h with h1 h2 h3
  cases h
  exact ⟨h2, rfl, rfl⟩

/-- A turn that goes on leaves less to run. -/
theorem sliceTurn_next (hc : l.machine.codeCache.Filled) (ht : sliceTurn host fuel backend l = some (.next l')) :
    l'.machine.codeCache.Filled ∧ l'.remaining < l.remaining := by
  unfold sliceTurn at ht
  by_cases hd : l.remaining = 0 ∨ l.machine.powerOff
  · rw [if_pos hd] at ht
    cases ht
  rw [if_neg hd] at ht
  obtain ⟨⟨stop, m, watch⟩, hr, he⟩ := Option.map_eq_some_iff.1 ht
  obtain ⟨hrun, hfill⟩ := Interpreter.run_chunk hc hr
  dsimp only at he
  have hle : m.hart.cpu.insnCount - l.machine.hart.cpu.insnCount ≤ l.remaining :=
    BitVec.le_trans (BitVec.le_def.2 hrun.retired) (chunk_le _ _ _)
  rw [if_pos hle] at he
  have hless : m.hart.cpu.insnCount - l.machine.hart.cpu.insnCount ≠ 0 →
      l.remaining - (m.hart.cpu.insnCount - l.machine.hart.cpu.insnCount) < l.remaining := by
    intro hne
    have hpos : 0 < (m.hart.cpu.insnCount - l.machine.hart.cpu.insnCount).toNat := by
      by_contra hz
      exact hne (BitVec.eq_of_toNat_eq (by rw [Nat.eq_zero_of_not_pos hz]; rfl))
    rw [BitVec.lt_def, BitVec.toNat_sub_of_le hle]
    have := BitVec.le_def.1 hle
    omega
  by_cases hecall : stop = .cpu .ecall ∧ m.hart.bus.directSbi
  · rw [if_pos hecall] at he
    obtain ⟨hrem, hcode⟩ := afterEcall_next he
    refine ⟨hcode ▸ hfill, hrem ▸ hless fun hz => ?_⟩
    have := hrun.ecall hecall.1
    unfold retired at this
    rw [hz] at this
    exact absurd this (by decide)
  · rw [if_neg hecall] at he
    by_cases hb : stop = .cpu .budget ∧ l.remaining - (m.hart.cpu.insnCount - l.machine.hart.cpu.insnCount) ≠ 0
    · rw [if_pos hb] at he
      obtain ⟨hne, hrem, hcode⟩ := afterBudget_next he
      exact ⟨hcode ▸ hfill, hrem ▸ hless hne⟩
    · rw [if_neg hb] at he
      cases he

/-- **The loop of a slice** ends exactly if no chunk it comes to hangs. -/
theorem loopEnds_iff (hc : l.machine.codeCache.Filled) :
    LoopEnds host backend l ↔ ¬ ∃ fuel n l', after (sliceTurn host fuel backend) n l = some l' ∧ ChunkHangs host backend l' := by
  constructor
  · rintro ⟨N, hN⟩ ⟨fuel, n, l', hl', hgo, hhang⟩
    obtain ⟨r, hr⟩ := Option.isSome_iff_exists.1 hN
    have hl'' : after (sliceTurn host (fuel + N) backend) n l = some l' :=
      after_of_body (fun s t hs => sliceTurn_mono hs (by omega)) hl'
    have hr' : Loop.run (sliceTurn host (fuel + N) backend) N l = some r :=
      run_of_body (fun s t hs => sliceTurn_mono hs (by omega)) hr
    obtain ⟨k, hk⟩ := ends_of_after hl'' ⟨N, by rw [hr']; rfl⟩
    have hnone : sliceTurn host (fuel + N) backend l' = none := by
      unfold sliceTurn
      rw [if_neg hgo]
      dsimp only
      rw [hhang]
      rfl
    cases k with
    | zero => cases hk
    | succ k => rw [Loop.run, hnone] at hk; cases hk
  · intro hno
    induction hd : l.remaining.toNat using Nat.strong_induction_on generalizing l with
    | _ d ih =>
      have hsome : ∃ fuel t, sliceTurn host fuel backend l = some t := by
        by_cases hgo : l.remaining = 0 ∨ l.machine.powerOff
        · exact ⟨0, _, if_pos hgo⟩
        · by_contra hall
          refine hno ⟨0, 0, l, rfl, hgo, fun fuel => ?_⟩
          by_contra hne
          obtain ⟨r, hr⟩ := Option.ne_none_iff_exists'.1 hne
          refine hall ⟨fuel, Option.isSome_iff_exists.1 ?_⟩
          unfold sliceTurn
          rw [if_neg hgo]
          dsimp only
          rw [hr]
          rfl
      obtain ⟨fuel, t, ht⟩ := hsome
      refine loopEnds_of_turn ht fun l' he => ?_
      subst he
      obtain ⟨hc', hlt⟩ := sliceTurn_next hc ht
      refine ih l'.remaining.toNat (by rw [← hd]; exact BitVec.lt_def.1 hlt) hc' (fun hbad => hno ?_) rfl
      obtain ⟨fuel', n, l'', hl'', hhang⟩ := hbad
      refine ⟨fuel + fuel', n + 1, l'', ?_, hhang⟩
      rw [after_next (sliceTurn_mono ht (by omega))]
      exact after_of_body (fun s t hs => sliceTurn_mono hs (by omega)) hl''

/-- Only a single-stepping loop under a predicate hangs, and only if the guest comes to spin. -/
theorem chunkHangs_iff (hc : l.machine.codeCache.Filled) :
    ChunkHangs host backend l ↔ ∃ compiled, backend = .legacy (some compiled) ∧ ¬ (l.remaining = 0 ∨ l.machine.powerOff) ∧
      ComesToSpin host compiled (l.machine.chunk backend l.remaining) ⟨l.machine.hart, l.watch⟩ := by
  unfold ChunkHangs
  match backend with
  | .legacy none =>
    refine ⟨fun h => absurd (h.2 0) nofun, ?_⟩
    rintro ⟨compiled, he, -⟩
    cases he
  | .legacy (some compiled) =>
    generalize l.machine.chunk (.legacy (some compiled)) l.remaining = maxInsns
    have hrun : (∀ fuel, (Interpreter.legacy (some compiled)).run host fuel maxInsns l.machine l.watch = none) ↔
        ¬ Ends (stepUntil host compiled l.machine.hart.cpu.insnCount maxInsns) ⟨l.machine.hart, l.watch⟩ := by
      constructor
      · rintro h ⟨n, hn⟩
        have hn' : (runCpuUntil host n (some compiled) maxInsns ⟨l.machine.hart, l.watch⟩).isSome := hn
        rw [Option.map_eq_none_iff.1 (h n)] at hn'
        cases hn'
      · intro h fuel
        refine Option.map_eq_none_iff.2 ?_
        by_contra hne
        exact h ⟨fuel, Option.isSome_iff_ne_none.2 hne⟩
    rw [hrun, stepUntil_ends_iff compiled ⟨l.machine.hart, l.watch⟩, not_not]
    constructor
    · exact fun h => ⟨compiled, rfl, h.1, h.2⟩
    · rintro ⟨compiled', he, h⟩
      cases he
      exact h
  | .cached contains observe stopCapable =>
    constructor
    · intro h
      generalize l.machine.chunk (.cached contains observe stopCapable) l.remaining = maxInsns at h
      obtain ⟨n, hn⟩ : ∃ fuel, (runCachedCpu host fuel contains observe stopCapable maxInsns l.machine.hart l.machine.codeCache
        l.watch).isSome := runCachedCpu_ends contains observe stopCapable l.machine.hart hc l.watch
      obtain ⟨r, hr⟩ := Option.isSome_iff_exists.1 hn
      have hnone := Option.map_eq_none_iff.1 (h.2 n)
      rw [hr] at hnone
      cases hnone
    · rintro ⟨compiled, he, -⟩
      cases he

/-! ## Slices -/

/-- The guest comes to spin in some chunk of a slice that single-steps under a predicate. -/
def GuestSpins (host : Option HostFp) (backend : Interpreter S) (maxInsns : U64) (m : VirtMachine) (watch : S) : Prop :=
  ∃ compiled, backend = .legacy (some compiled) ∧ m.startSlice.pendingBlockRequest = none ∧
    ∃ fuel n l, after (sliceTurn host fuel backend) n ⟨m.startSlice, watch, maxInsns, .cpu .budget⟩ = some l ∧
      ¬ (l.remaining = 0 ∨ l.machine.powerOff) ∧
        ComesToSpin host compiled (l.machine.chunk backend l.remaining) ⟨l.machine.hart, l.watch⟩

theorem after_filled (hc : l.machine.codeCache.Filled) {n : ℕ} (h : after (sliceTurn host fuel backend) n l = some l') :
    l'.machine.codeCache.Filled :=
  after_invariant (J := fun l : Slice S => l.machine.codeCache.Filled) (fun _ _ hc ht => (sliceTurn_next hc ht).1) hc h

/-- The loops of a slice end exactly if the guest does not spin. -/
theorem slice_isSome_iff (hc : m.codeCache.Filled) :
    (∃ fuel, (m.runSliceBackend host fuel backend maxInsns watch).isSome) ↔ ¬ GuestSpins host backend maxInsns m watch := by
  have hstart : m.startSlice.codeCache.Filled := hc
  unfold runSliceBackend
  dsimp only
  cases hp : m.startSlice.pendingBlockRequest with
  | some r =>
    simp only [Option.isSome_some, if_true]
    refine ⟨fun _ => ?_, fun _ => ⟨0, trivial⟩⟩
    rintro ⟨compiled, -, hnone, -⟩
    rw [hp] at hnone
    cases hnone
  | none =>
    have hloop : LoopEnds host backend ⟨m.startSlice, watch, maxInsns, .cpu .budget⟩ ↔ _ := loopEnds_iff hstart
    have hmap : ∀ fuel, ((Loop.run (sliceTurn host fuel backend) fuel ⟨m.startSlice, watch, maxInsns, .cpu .budget⟩).map
        (finishSlice m.hart.cpu.insnCount)).isSome =
        (Loop.run (sliceTurn host fuel backend) fuel ⟨m.startSlice, watch, maxInsns, .cpu .budget⟩).isSome :=
      fun fuel => Option.isSome_map
    simp only [Option.isSome_none, Bool.false_eq_true, if_false, hmap]
    refine hloop.trans (not_congr ?_)
    constructor
    · rintro ⟨fuel, n, l, hl, hh⟩
      obtain ⟨compiled, hb, hgo, hspin⟩ := (chunkHangs_iff (after_filled hstart hl)).1 hh
      exact ⟨compiled, hb, hp, fuel, n, l, hl, hgo, hspin⟩
    · rintro ⟨compiled, hb, -, fuel, n, l, hl, hgo, hspin⟩
      exact ⟨fuel, n, l, hl, (chunkHangs_iff (after_filled hstart hl)).2 ⟨compiled, hb, hgo, hspin⟩⟩

theorem slice_mono {r : RunSliceOutcome × VirtMachine × S} (hr : m.runSliceBackend host fuel backend maxInsns watch = some r)
    (hf : fuel ≤ fuel') : m.runSliceBackend host fuel' backend maxInsns watch = some r := by
  unfold runSliceBackend at hr ⊢
  dsimp only at hr ⊢
  split_ifs at hr ⊢
  · exact hr
  · obtain ⟨l, hl, he⟩ := Option.map_eq_some_iff.1 hr
    exact Option.map_eq_some_iff.2 ⟨l, run_mono (run_of_body (fun s t hs => sliceTurn_mono hs hf) hl) hf, he⟩

/-- What a slice returns does not depend on the bound of the model. -/
theorem slice_unique {r r' : RunSliceOutcome × VirtMachine × S}
    (hr : m.runSliceBackend host fuel backend maxInsns watch = some r)
    (hr' : m.runSliceBackend host fuel' backend maxInsns watch = some r') : r = r' := by
  have h := slice_mono hr (Nat.le_max_left fuel fuel')
  rw [slice_mono hr' (Nat.le_max_right fuel fuel')] at h
  exact (Option.some.inj h).symm

/-! ## Queues -/

/-- A bound on the passes over a queue to follow. -/
def withPasses (m : VirtMachine) (passes : ℕ) : VirtMachine := m.mapBus fun b => { b with passes := passes, hung := false }

/-- A slice returns: its loops end, and no queue it processes takes more passes than some bound. -/
def Returns (host : Option HostFp) (backend : Interpreter S) (maxInsns : U64) (m : VirtMachine) (watch : S) : Prop :=
  ∃ passes fuel r m' watch', (m.withPasses passes).runSliceBackend host fuel backend maxInsns watch = some (r, m', watch') ∧
    m'.hart.bus.hung = false

/-- No call of `process` in the slice is cut off. -/
def QueuesEnd (host : Option HostFp) (backend : Interpreter S) (maxInsns : U64) (m : VirtMachine) (watch : S) : Prop :=
  ∀ fuel r m' watch', m.runSliceBackend host fuel backend maxInsns watch = some (r, m', watch') → m'.hart.bus.hung = false

/-- A call that is cut off stays so, till the end of the slice. -/
theorem ClockStep.hung (hs : ClockStep m m') (hh : m.hart.bus.hung = true) : m'.hart.bus.hung = true := by
  cases hs with
  | hart _ p => exact (run_bus VirtBus.busRel_steady p m.hart).hung hh
  | poll => exact (VirtBus.steady_pollVirtio _).hung hh
  | sleep =>
    unfold VirtMachine.sleep
    dsimp only
    split_ifs <;> exact hh
  | sbi =>
    have hcall : ∀ ext function arg0 arg1, (m.sbiCall ext function arg0 arg1).2.2.hart.bus.hung = true := by
      intro ext function arg0 arg1
      unfold sbiCall
      split
      all_goals first
        | exact hh
        | skip
      split_ifs <;> exact hh
    exact hcall _ _ _ _
  | complete _ id data ok =>
    unfold completeBlockRequest
    dsimp only
    cases m.hart.bus.virtio.findIdx? (·.pendingBlockRequest.isSome) with
    | none => exact hh
    | some i =>
      dsimp only
      cases m.hart.bus.virtio[i]? with
      | none => exact hh
      | some dev =>
        dsimp only
        rcases dev.completeBlockRequest id data ok m.hart.bus.dma with ⟨done, dev', dma⟩
        cases done <;> exact hh
  | netInput _ frame =>
    unfold VirtMachine.netInput mapBus
    dsimp only
    cases m.hart.bus.virtio.findIdx? isNet <;> exact hh
  | netOutput =>
    unfold VirtMachine.netTakeOutput mapBus
    dsimp only
    cases m.hart.bus.virtio.findIdx? isNet <;> exact hh
  | _ => exact hh

theorem slice_hung {r : RunSliceOutcome} (hr : m.runSliceBackend host fuel backend maxInsns watch = some (r, m', watch'))
    (hh : m.hart.bus.hung = true) : m'.hart.bus.hung = true := by
  have hs := slice_clockSteps hr
  clear hr
  induction hs with
  | refl => exact hh
  | tail _ hs ih => exact hs.hung ih

/-- With room for a full queue, a call is cut off only where the device moves the index it waits for. -/
theorem processQueue_hung {b : VirtBus} {i qi : ℕ} (hp : 2 ^ 16 ≤ b.passes) (hb : b.hung = false)
    (hh : (b.processQueue i qi).hung = true) :
    ∃ dev q, b.virtio[i]? = some dev ∧ dev.activeQueue qi = some q ∧ VirtioDev.Overruns q dev b.dma := by
  unfold VirtBus.processQueue at hh
  cases hd : b.virtio[i]? with
  | none =>
    rw [hd] at hh
    exact absurd (hh.symm.trans hb) (by decide)
  | some dev =>
    rw [hd] at hh
    dsimp only at hh
    by_contra hall
    have hends := (dev.process_isSome_iff qi b.dma).2 fun q hq hov => hall ⟨dev, q, rfl, hq, hov⟩
    obtain ⟨r, hr⟩ := Option.isSome_iff_exists.1 hends
    have hle : dev.passBound qi b.dma ≤ b.passes := by
      refine le_trans ?_ hp
      unfold VirtioDev.passBound VirtioDev.available
      cases dev.activeQueue qi with
      | none => exact Nat.zero_le _
      | some q =>
        dsimp only
        cases VirtioDev.availIdx b.dma (dev.queues q) with
        | none => exact (by decide : 0 + 1 ≤ 2 ^ 16)
        | some idx => exact (idx - (dev.queues q).lastAvailIdx).isLt
    rw [VirtioDev.process_mono hr hle] at hh
    exact absurd (hh.symm.trans hb) (by decide)

/-- A dispatcher that never stops a run over cached blocks. -/
def neverStops : Interpreter Unit := .cached (fun _ _ => false) (fun w _ => (false, w)) false

/-- The hart's handler cannot be fetched, and no interrupt is enabled. -/
structure Spinning (h : Machine VirtBus) : Prop where
  sys : ∃ s, h.cpu.sys = some s ∧ s.mode = .machine ∧ s.mtvec = 0 ∧ s.mie = 0
  tlb : ∀ i, h.cpu.tlbTag 0 i = TLB_INVALID
  pc : h.cpu.pc = 0 ∨ h.cpu.pc = RAM_BASE
  ram : h.bus.ram.len = 0

theorem Spinning.poll {h : Machine VirtBus} (hs : Spinning h) : Spinning (Hart.poll.run exec h).2 := by
  obtain ⟨s, hsys, hmode, htvec, hmie⟩ := hs.sys
  unfold Hart.poll
  simp only [Program.bind_eq]
  rw [run_get, if_neg (by rw [hsys]; exact nofun)]
  split_ifs
  · have hlines : ∀ m : Machine VirtBus, exec .irqLines m = (.ok m.bus.lines, { m with bus := m.bus.refreshPlic }) := fun _ => rfl
    have hsys' : ((CpuOp.latch h.bus.lines).apply ((CpuOp.pollCd IRQ_POLL_INTERVAL).apply h.cpu)).sys =
        some { s with mip := (s.mip &&& ~~~hwLines) ||| (h.bus.lines &&& hwLines) } := by
      unfold CpuOp.apply Cpu.modifySys
      dsimp only
      rw [hsys]
      rfl
    have hfind : Hart.irqPriority.find?
        (Hart.deliverable { s with mip := (s.mip &&& ~~~hwLines) ||| (h.bus.lines &&& hwLines) }) = none := by
      rw [List.find?_eq_none]
      intro irq _
      unfold Hart.deliverable
      dsimp only
      rw [hmie]
      simp
    rw [run_upd, Program.run_bind, Hart.checkInterrupts]
    simp only [Program.bind_eq]
    rw [run_get, if_neg (by unfold CpuOp.apply; rw [hsys]; exact nofun), Hart.irqLines, Program.op_bind, Program.run_op_ok (hlines _),
      Program.pure_bind, run_upd, run_get]
    dsimp only
    rw [hsys']
    dsimp only
    unfold Hart.takeInterrupt
    rw [hfind]
    exact ⟨⟨_, hsys', hmode, htvec, hmie⟩, hs.tlb, hs.pc, hs.ram⟩
  · exact ⟨⟨s, hsys, hmode, htvec, hmie⟩, hs.tlb, hs.pc, hs.ram⟩

theorem Spinning.offset {h : Machine VirtBus} (hs : Spinning h) (addr : U64) {n : ℕ} (hn : 0 < n) :
    h.bus.ram.flat.offset addr n = none := by
  unfold FlatMemory.offset
  split_ifs with h1
  · rfl
  · have hlen : h.bus.ram.flat.len = 0 := hs.ram
    dsimp only
    rw [hlen, if_neg (by omega)]

/-- Fetching fails: there is nothing at the pc. -/
theorem Spinning.step {h : Machine VirtBus} (hs : Spinning h) (host : Option HostFp) :
    (Hart.step host).run exec h = (.error (.instructionAccessFault h.cpu.pc), h) := by
  obtain ⟨s, hsys, hmode, -, -⟩ := hs.sys
  have htranslate : exec (.translate h.cpu.pc .fetch) h = (.ok h.cpu.pc, h) := by
    change h.translate h.cpu.pc .fetch = _
    have htag : h.cpu.tlbTag Access.fetch.row (Cpu.tlbIndex h.cpu.pc) ≠ h.cpu.translationTag h.cpu.pc := by
      rw [show Access.fetch.row = 0 from rfl, hs.tlb]
      exact (tagOf_ne_invalid h.cpu.translationContext_lt _).symm
    unfold Machine.translate
    rw [hsys]
    dsimp only
    rw [if_neg htag]
    unfold translateSlow
    rw [hsys]
    dsimp only
    rw [if_pos (Or.inr (by unfold Cpu.effMode; rw [if_neg (by simp), hmode]))]
  have hmmio : h.bus.mmioRead h.cpu.pc 2 = (none, h.bus) := by
    unfold VirtBus.mmioRead
    rcases hs.pc with hp | hp <;> rw [hp] <;> rfl
  have hread : exec (.fetch16 h.cpu.pc) h = (.error (.instructionAccessFault h.cpu.pc), h) := by
    have hbus : VirtBus.busRead .w2 h.bus h.cpu.pc = (.error (.loadAccessFault h.cpu.pc), h.bus) := by
      unfold VirtBus.busRead
      rw [hs.offset _ (by decide)]
      dsimp only
      rw [show Width.bytes .w2 = 2 from rfl, hmmio]
    have hfetch : Bus.fetch16 h.bus h.cpu.pc = (.error (.instructionAccessFault h.cpu.pc), h.bus) := by
      simp only [Bus.fetch16, hbus]
    change h.onBus (Bus.fetch16 h.bus h.cpu.pc) = _
    rw [hfetch]
    rfl
  have hword : exec (.fetch32IfSafe h.cpu.pc) h = (.ok none, h) := by
    change (Except.ok ((h.bus.ram.flat.offset h.cpu.pc 4).map _), h) = _
    rw [hs.offset _ (by decide)]
    rfl
  have heven : ¬ h.cpu.pc &&& 1 ≠ 0 := by rcases hs.pc with hp | hp <;> rw [hp] <;> decide
  have hoff : h.cpu.pc &&& 0xfff ≠ 0xffe := by rcases hs.pc with hp | hp <;> rw [hp] <;> decide
  rw [Hart.step_eq, run_get, if_neg heven]
  unfold Hart.fetchInsn Hart.translate
  simp only [Program.bind_eq, Program.bind_assoc, Program.op_bind, Program.pure_bind]
  rw [Program.run_op_ok htranslate]
  unfold Hart.fetchWord Hart.fetch32IfSafe
  rw [if_pos hoff, Program.op_bind, Program.run_op_ok hword, Program.pure_bind]
  unfold Hart.fetchLow Hart.fetch16
  dsimp only [Program.bind_eq]
  rw [Program.op_bind, Program.op_bind, Program.run_op_error hread]

/-- The trap goes to the handler that cannot be fetched. -/
theorem Spinning.trap {h : Machine VirtBus} (hs : Spinning h) (cause tval : U64) :
    Spinning { h with cpu := h.cpu.takeTrap cause tval false } := by
  obtain ⟨s, hsys, hmode, htvec, hmie⟩ := hs.sys
  have hcount : ∀ c : Cpu, (c.countTrap cause false).sys = c.sys ∧ (c.countTrap cause false).tlbTag = c.tlbTag := by
    intro c
    unfold Cpu.countTrap
    cases cause == 8 <;> exact ⟨rfl, rfl⟩
  obtain ⟨hc1, hc2⟩ := hcount { h.cpu with irqPollCd := 0, reservation := none }
  have hdel : Cpu.delegated s cause false = false := by
    unfold Cpu.delegated
    rw [hmode]
    simp
  have htrap : (h.cpu.takeTrap cause tval false).sys = some (Cpu.trapToM s
      ({ h.cpu with irqPollCd := 0, reservation := none }.countTrap cause false).pc cause tval) ∧
      (h.cpu.takeTrap cause tval false).tlbTag = h.cpu.tlbTag ∧ (h.cpu.takeTrap cause tval false).pc = 0 := by
    unfold Cpu.takeTrap
    dsimp only
    generalize Cpu.countTrap _ cause false = c at hc1 hc2 ⊢
    dsimp only at hc1 hc2
    rw [hc1, hsys]
    dsimp only
    rw [hdel]
    refine ⟨rfl, hc2, ?_⟩
    change Cpu.trapVector s.mtvec cause false = 0
    rw [htvec]
    simp [Cpu.trapVector]
  exact ⟨⟨_, htrap.1, rfl, htvec, hmie⟩, fun i => by rw [htrap.2.1]; exact hs.tlb i, Or.inl htrap.2.2, hs.ram⟩

/-- An attempt traps to where it came from. -/
theorem Spinning.runOne {h : Machine VirtBus} (hs : Spinning h) (host : Option HostFp) :
    (h.runOne host).1 = none ∧ Spinning (h.runOne host).2 ∧ (h.runOne host).2.cpu.insnCount = h.cpu.insnCount := by
  have hpoll := hs.poll
  obtain ⟨taken, h₁, hp, hcount⟩ := poll_polled h
  rw [hp] at hpoll
  obtain ⟨s, hsys, -⟩ := hs.sys
  obtain ⟨s₁, hsys₁, hmode₁, htvec₁, hmie₁⟩ := hpoll.sys
  unfold Machine.runOne
  dsimp only
  rw [hp]
  dsimp only
  rw [hpoll.step host]
  dsimp only
  rw [if_pos (by rw [hsys]; rfl), exceptionToTrap_run]
  exact ⟨rfl, hpoll.trap _ _, (Cpu.clocks_takeTrap _ _ _ _).2.trans hcount.insnCount⟩

/-- The guest spins wherever the predicate accepts no pc. -/
theorem Spinning.spins {l : Stepping Unit} (hs : Spinning l.hart) (host : Option HostFp) :
    Spins host (fun w _ => (false, w)) l := by
  intro n
  have hattempt : ∀ l : Stepping Unit, Spinning l.hart → attempt host (fun w _ => (false, w)) l =
      some (.next ⟨(l.hart.runOne host).2, l.watch⟩) := by
    intro l hs
    obtain ⟨h1, -, -⟩ := hs.runOne host
    unfold attempt
    rw [run_one, h1]
    rfl
  have hafter : ∀ n, ∃ l', after (attempt host fun w _ => (false, w)) n l = some l' ∧ Spinning l'.hart ∧
      l'.hart.cpu.insnCount = l.hart.cpu.insnCount := by
    intro n
    induction n with
    | zero => exact ⟨l, rfl, hs, rfl⟩
    | succ n ih =>
      obtain ⟨l', hl', hs', hi⟩ := ih
      obtain ⟨-, h2, h3⟩ := hs'.runOne host
      exact ⟨_, by rw [after_succ hl', hattempt l' hs'], h2, h3.trans hi⟩
  obtain ⟨l', hl', -, hi⟩ := hafter n
  exact ⟨l', hl', hi⟩

end VirtMachine
end Lish
