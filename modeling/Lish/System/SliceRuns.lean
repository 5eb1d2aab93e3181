import Lish.System.Clock
/-!
# SliceRuns — slices are sequences of computations

Whatever loop the interpreter uses, it changes the hart and its bus by computations of the hart only, one after another; a
slice interleaves them with polls, syncs, host calls and sleep.
-/
namespace Lish

open Relation Machine

/-- Computations of the hart, one after another. -/
def HartSteps : Machine VirtBus → Machine VirtBus → Prop := ReflTransGen fun h h' => ∃ (α : Type) (p : Hart α), h' = (p.run exec h).2

namespace HartSteps

variable {S : Type} {h h' h'' : Machine VirtBus}

theorem refl (h : Machine VirtBus) : HartSteps h h := ReflTransGen.refl

theorem trans (h₁ : HartSteps h h') (h₂ : HartSteps h' h'') : HartSteps h h'' := ReflTransGen.trans h₁ h₂

theorem of_run {α : Type} (p : Hart α) (h : Machine VirtBus) : HartSteps h (p.run exec h).2 := ReflTransGen.single ⟨α, p, rfl⟩

/-- What every computation keeps, they all keep. -/
theorem invariant {Inv : Machine VirtBus → Prop} (step : ∀ h {α : Type} (p : Hart α), Inv h → Inv (p.run exec h).2)
    (hs : HartSteps h h') (hi : Inv h) : Inv h' := by
  induction hs with
  | refl => exact hi
  | tail _ hs ih =>
    obtain ⟨α, p, rfl⟩ := hs
    exact step _ p ih

theorem runOne (host : Option HostFp) (h : Machine VirtBus) : HartSteps h (h.runOne host).2 := by
  have h1 := of_run Hart.poll h
  have h2 := of_run (Hart.step host) (Hart.poll.run exec h).2
  unfold Machine.runOne
  dsimp only
  rcases hr : (Hart.step host).run exec (Hart.poll.run exec h).2 with ⟨e | stop, h'⟩
  · rw [hr] at h2
    dsimp only
    split_ifs
    · exact (h1.trans h2).trans (of_run _ _)
    · exact h1.trans h2
  · rw [hr] at h2
    exact h1.trans h2

theorem run (host : Option HostFp) (n : ℕ) (h : Machine VirtBus) : HartSteps h (h.run host n).2 := by
  induction n generalizing h with
  | zero => exact refl h
  | succ n ih =>
    have h1 := runOne host h
    rw [Machine.run]
    rcases hr : h.runOne host with ⟨_ | stop, h'⟩
    · rw [hr] at h1
      exact h1.trans (ih h')
    · rw [hr] at h1
      exact h1

theorem executeOne (host : Option HostFp) (d : DecodedInsn) (h : Machine VirtBus) : HartSteps h (h.executeOne host d).2 := by
  have h1 := of_run (Hart.executeDecoded host d) h
  unfold Machine.executeOne
  dsimp only
  rcases hr : (Hart.executeDecoded host d).run exec h with ⟨e | stop, h'⟩
  · rw [hr] at h1
    dsimp only
    split_ifs
    · exact h1.trans (of_run _ _)
    · exact h1
  · rw [hr] at h1
    exact h1

theorem runDecoded (host : Option HostFp) (block : List DecodedInsn) (h : Machine VirtBus) :
    HartSteps h (h.runDecoded host block).2 := by
  induction block generalizing h with
  | nil => exact refl h
  | cons d rest ih =>
    have h1 := of_run Hart.pollTaken h
    rw [Machine.runDecoded]
    rcases hr : Hart.pollTaken.run exec h with ⟨e | taken, h'⟩
    · rw [hr] at h1
      exact h1
    · rw [hr] at h1
      cases taken with
      | true => exact h1
      | false =>
        have h2 := executeOne host d h'
        dsimp only
        rcases he : h'.executeOne host d with ⟨_ | out, h''⟩
        · rw [he] at h2
          dsimp only
          split_ifs
          · exact h1.trans h2
          · exact (h1.trans h2).trans (ih h'')
        · rw [he] at h2
          exact h1.trans h2

theorem jitProbeFetch (h : Machine VirtBus) (va : U64) : HartSteps h (h.jitProbeFetch va).2 := by
  have h1 := of_run (Hart.translate va .fetch) h
  have h2 : ((Hart.translate va .fetch).run exec h).2 = (h.translate va .fetch).2 := by
    rw [Hart.translate, Program.run_op, show exec (.translate va .fetch) h = h.translate va .fetch from rfl]
    rcases h.translate va .fetch with ⟨e | pa, h'⟩ <;> rfl
  rw [h2] at h1
  unfold Machine.jitProbeFetch
  rcases hr : h.translate va .fetch with ⟨e | pa, h'⟩ <;> rw [hr] at h1 <;> exact h1

/-! ## The loops -/

/-- What a turn of a loop does to the hart. -/
def TurnSteps {σ ρ : Type} (hart : σ → Machine VirtBus) (hart' : ρ → Machine VirtBus) (h : Machine VirtBus) : Turn σ ρ → Prop
  | .next s => HartSteps h (hart s)
  | .done r => HartSteps h (hart' r)

theorem stepUntil {host : Option HostFp} {compiled : S → U64 → Bool × S} {start maxInsns : U64} {l : Stepping S}
    {t : Turn (Stepping S) (InterpreterStop × Stepping S)} (ht : Lish.stepUntil host compiled start maxInsns l = some t) :
    TurnSteps (·.hart) (·.2.hart) l.hart t := by
  have h1 := run host 1 l.hart
  unfold Lish.stepUntil at ht
  split_ifs at ht
  · rcases hrun : l.hart.run host 1 with ⟨stop, h'⟩
    rw [hrun] at h1 ht
    cases stop with
    | budget =>
      dsimp only at ht
      cases hc : (compiled l.watch h'.cpu.pc).1 <;> rw [hc] at ht <;> cases ht <;> exact h1
    | _ => cases ht; exact h1
  · cases ht
    exact refl _

theorem runCpuUntil {host : Option HostFp} {fuel : ℕ} {compiled : Option (S → U64 → Bool × S)} {maxInsns : U64} {l : Stepping S}
    {r : InterpreterStop × Stepping S} (hr : Lish.runCpuUntil host fuel compiled maxInsns l = some r) :
    HartSteps l.hart r.2.hart := by
  unfold Lish.runCpuUntil at hr
  cases compiled with
  | none =>
    obtain rfl := Option.some.inj hr
    exact run host maxInsns.toNat l.hart
  | some compiled =>
    have hnext : ∀ s t, HartSteps l.hart s.hart → Lish.stepUntil host compiled l.hart.cpu.insnCount maxInsns s = some (.next t) →
        HartSteps l.hart t.hart := fun s t hs ht => hs.trans (stepUntil ht)
    have hlast : ∀ s r, HartSteps l.hart s.hart → Lish.stepUntil host compiled l.hart.cpu.insnCount maxInsns s = some (.done r) →
        HartSteps l.hart r.2.hart := fun s r hs ht => hs.trans (stepUntil ht)
    exact Loop.run_invariant (J := fun s => HartSteps l.hart s.hart) (Q := fun r => HartSteps l.hart r.2.hart) hnext hlast (refl _) hr

theorem observeBlock_hart (observe : S → U64 → Bool × S) (l : Blocks S) : (observeBlock observe l).2.hart = l.hart := by
  unfold observeBlock
  split_ifs <;> rfl

theorem blockAt (l : Blocks S) : HartSteps l.hart (Lish.blockAt l).2.hart := by
  have h1 := jitProbeFetch l.hart l.hart.cpu.pc
  unfold Lish.blockAt
  dsimp only
  rcases hp : l.hart.jitProbeFetch l.hart.cpu.pc with ⟨_ | physical, h'⟩
  · rw [hp] at h1
    exact h1
  · rw [hp] at h1
    dsimp only
    split_ifs <;> exact h1

theorem runUncachedOne (host : Option HostFp) (l : Blocks S) :
    TurnSteps (·.hart) (·.2.hart) l.hart (Lish.runUncachedOne host l) := by
  have h1 := run host 1 l.hart
  unfold Lish.runUncachedOne
  rcases hrun : l.hart.run host 1 with ⟨stop, h'⟩
  rw [hrun] at h1
  dsimp only
  by_cases hs : stop = .budget
  · rw [if_pos hs]
    exact h1
  · rw [if_neg hs]
    exact h1

theorem runBlock (host : Option HostFp) (block : List DecodedInsn) (l : Blocks S) :
    TurnSteps (·.hart) (·.2.hart) l.hart (Lish.runBlock host block l) := by
  have h1 := runDecoded host block l.hart
  unfold Lish.runBlock
  rcases hrun : l.hart.runDecoded host block with ⟨stop | _, h'⟩
  · rw [hrun] at h1
    cases stop <;> exact h1
  · rw [hrun] at h1
    exact h1

theorem TurnSteps.of_steps {σ ρ : Type} {hart : σ → Machine VirtBus} {hart' : ρ → Machine VirtBus} {t : Turn σ ρ}
    (hs : HartSteps h h') (ht : TurnSteps hart hart' h' t) : TurnSteps hart hart' h t := by
  cases t <;> exact hs.trans ht

theorem blockTurn {host : Option HostFp} {contains : S → U64 → Bool} {observe : S → U64 → Bool × S} {stopCapable : Bool}
    {start maxInsns : U64} {l : Blocks S} {t : Turn (Blocks S) (InterpreterStop × Blocks S)}
    (ht : Lish.blockTurn host contains observe stopCapable start maxInsns l = some t) :
    TurnSteps (·.hart) (·.2.hart) l.hart t := by
  have ho := observeBlock_hart observe l
  unfold Lish.blockTurn at ht
  rcases hobs : observeBlock observe l with ⟨_ | _, l₁⟩
  · rw [hobs] at ho ht
    dsimp only at ho ht
    rw [← ho]
    by_cases hb : l₁.hart.cpu.insnCount - start ≥ maxInsns ∨ l₁.stalledTraps ≥ maxInsns
    · rw [if_pos hb] at ht
      cases ht
      exact refl _
    · rw [if_neg hb] at ht
      have h1 := blockAt l₁
      rcases hba : Lish.blockAt l₁ with ⟨_ | block, l₂⟩
      · rw [hba] at h1 ht
        obtain rfl := Option.some.inj ht
        exact .of_steps h1 (runUncachedOne host l₂)
      · rw [hba] at h1 ht
        obtain rfl := Option.some.inj ht
        exact .of_steps h1 (runBlock host _ l₂)
  · rw [hobs] at ho ht
    cases ht
    exact ho ▸ refl _

theorem runCachedCpu {host : Option HostFp} {fuel : ℕ} {contains : S → U64 → Bool} {observe : S → U64 → Bool × S}
    {stopCapable : Bool} {maxInsns : U64} {hart : Machine VirtBus} {cache : CodePageCache} {watch : S}
    {r : InterpreterStop × Blocks S}
    (hr : Lish.runCachedCpu host fuel contains observe stopCapable maxInsns hart cache watch = some r) :
    HartSteps hart r.2.hart := by
  have hnext : ∀ l l', HartSteps hart l.hart →
      Lish.blockTurn host contains observe stopCapable hart.cpu.insnCount maxInsns l = some (.next l') → HartSteps hart l'.hart :=
    fun l l' hs ht => hs.trans (blockTurn ht)
  have hlast : ∀ l r, HartSteps hart l.hart →
      Lish.blockTurn host contains observe stopCapable hart.cpu.insnCount maxInsns l = some (.done r) → HartSteps hart r.2.hart :=
    fun l r hs ht => hs.trans (blockTurn ht)
  exact Loop.run_invariant (J := fun l => HartSteps hart l.hart) (Q := fun r => HartSteps hart r.2.hart) hnext hlast (refl _) hr

/-- **Every interpreter** runs computations of the hart. -/
theorem interpreter {host : Option HostFp} {fuel : ℕ} {maxInsns : U64} {m m' : VirtMachine} {watch watch' : S}
    {backend : Interpreter S} {stop : InterpreterStop} (hr : backend.run host fuel maxInsns m watch = some (stop, m', watch')) :
    HartSteps m.hart m'.hart ∧ ∃ cache, m' = { m with hart := m'.hart, codeCache := cache } := by
  cases backend with
  | legacy compiled =>
    obtain ⟨⟨stop', l⟩, hl, he⟩ := Option.map_eq_some_iff.1 hr
    cases he
    exact ⟨runCpuUntil hl, m.codeCache, rfl⟩
  | cached contains observe stopCapable =>
    obtain ⟨⟨stop', l⟩, hl, he⟩ := Option.map_eq_some_iff.1 hr
    cases he
    exact ⟨runCachedCpu hl, l.cache, rfl⟩

end HartSteps

namespace VirtMachine

variable {S : Type} {m m' : VirtMachine}

/-! ## Slices and the clocks -/

/-- Things that happen to the machine, one after another. -/
abbrev ClockSteps : VirtMachine → VirtMachine → Prop := ReflTransGen ClockStep

theorem clockSteps_of_hart {h : Machine VirtBus} (hs : HartSteps m.hart h) : ClockSteps m { m with hart := h } := by
  induction hs with
  | refl => exact .refl
  | tail _ hs ih =>
    obtain ⟨α, p, rfl⟩ := hs
    exact ih.tail (.hart _ p)

theorem interpreter_clockSteps {host : Option HostFp} {fuel : ℕ} {maxInsns : U64} {watch watch' : S} {backend : Interpreter S}
    {stop : InterpreterStop} (hr : backend.run host fuel maxInsns m watch = some (stop, m', watch')) : ClockSteps m m' := by
  obtain ⟨hs, cache, he⟩ := HartSteps.interpreter hr
  rw [he]
  exact (clockSteps_of_hart hs).tail (.host _ cache m.powerOff)

/-- What a turn of the loop of a slice does to the machine. -/
def SliceSteps (m : VirtMachine) : Turn (Slice S) (Slice S) → Prop
  | .next l => ClockSteps m l.machine
  | .done l => ClockSteps m l.machine

theorem afterEcall_clockSteps (backend : Interpreter S) (l : Slice S) : SliceSteps l.machine (afterEcall backend l) := by
  have hs : ClockSteps l.machine l.machine.serviceSbi := .single (.sbi _)
  unfold afterEcall
  dsimp only
  by_cases hu : l.machine.serviceSbi.unsupportedSbi.isSome
  · rw [if_pos hu]
    exact hs.tail (.host _ l.machine.serviceSbi.codeCache true)
  · rw [if_neg hu]
    by_cases hp : l.machine.serviceSbi.powerOff
    · rw [if_pos hp]
      exact hs
    · rw [if_neg hp]
      by_cases hc : (backend.shouldStop l.watch l.machine.serviceSbi.hart.cpu.pc).1
      · rw [if_pos hc]
        exact hs
      · rw [if_neg hc]
        exact hs

theorem afterBudget_clockSteps (backend : Interpreter S) (retired : U64) (l : Slice S) :
    SliceSteps l.machine (afterBudget backend retired l) := by
  have hs : ClockSteps l.machine l.machine.syncDevices := .single (.sync _)
  unfold afterBudget
  dsimp only
  by_cases hp : l.machine.syncDevices.pendingBlockRequest.isSome
  · rw [if_pos hp]
    exact hs
  · rw [if_neg hp]
    by_cases hr : retired = 0
    · rw [if_pos hr]
      exact hs
    · rw [if_neg hr]
      cases (!backend.needsPeriodicSync && !l.machine.syncDevices.hasExternalDisk) <;> exact hs

theorem SliceSteps.of_steps {t : Turn (Slice S) (Slice S)} (hs : ClockSteps m m') (ht : SliceSteps m' t) : SliceSteps m t := by
  cases t <;> exact hs.trans ht

theorem sliceTurn_clockSteps {host : Option HostFp} {fuel : ℕ} {backend : Interpreter S} {l : Slice S}
    {t : Turn (Slice S) (Slice S)} (ht : sliceTurn host fuel backend l = some t) : SliceSteps l.machine t := by
  unfold sliceTurn at ht
  by_cases hd : l.remaining = 0 ∨ l.machine.powerOff
  · rw [if_pos hd] at ht
    cases ht
    exact .refl
  · rw [if_neg hd] at ht
    obtain ⟨⟨stop, m, watch⟩, hr, rfl⟩ := Option.map_eq_some_iff.1 ht
    have hs := interpreter_clockSteps hr
    dsimp only
    generalize m.hart.cpu.insnCount - l.machine.hart.cpu.insnCount = retired
    generalize (if retired ≤ l.remaining then l.remaining - retired else 0) = remaining
    by_cases he : stop = .cpu .ecall ∧ m.hart.bus.directSbi
    · rw [if_pos he]
      exact .of_steps hs (afterEcall_clockSteps backend ⟨m, watch, remaining, stop⟩)
    · rw [if_neg he]
      by_cases hb : stop = .cpu .budget ∧ remaining ≠ 0
      · rw [if_pos hb]
        exact .of_steps hs (afterBudget_clockSteps backend retired ⟨m, watch, remaining, stop⟩)
      · rw [if_neg hb]
        exact hs

theorem finishSlice_clockSteps (start : U64) (l : Slice S) : ClockSteps l.machine (finishSlice start l).2.1 := by
  unfold finishSlice
  dsimp only
  generalize hw : (if l.stop = .cpu .wfi then l.machine.sleep else (l.machine, false)) = w
  have hs : ClockSteps l.machine w.1 := by
    rw [← hw]
    split_ifs
    · exact .single (.sleep _)
    · exact .refl
  exact (hs.tail (.sync _)).tail (.host _ w.1.syncDevices.codeCache _)

/-- **A slice** is made of steps of the clocks, whatever runs it. -/
theorem slice_clockSteps {host : Option HostFp} {fuel : ℕ} {backend : Interpreter S} {maxInsns : U64} {watch watch' : S}
    {r : RunSliceOutcome} (hr : m.runSliceBackend host fuel backend maxInsns watch = some (r, m', watch')) : ClockSteps m m' := by
  have hstart : ClockSteps m m.startSlice := (ReflTransGen.single (.poll m)).tail (.sync _)
  unfold runSliceBackend at hr
  dsimp only at hr
  by_cases hp : m.startSlice.pendingBlockRequest.isSome
  · rw [if_pos hp] at hr
    cases hr
    exact hstart
  · rw [if_neg hp] at hr
    obtain ⟨l, hl, he⟩ := Option.map_eq_some_iff.1 hr
    have hloop : ClockSteps m.startSlice l.machine := by
      refine Loop.run_invariant (J := fun l => ClockSteps m.startSlice l.machine)
        (Q := fun l => ClockSteps m.startSlice l.machine) ?_ ?_ .refl hl
      · exact fun _ _ hs ht => hs.trans (sliceTurn_clockSteps ht)
      · exact fun _ _ hs ht => hs.trans (sliceTurn_clockSteps ht)
    have hend := finishSlice_clockSteps m.hart.cpu.insnCount l
    rw [he] at hend
    exact (hstart.trans hloop).trans hend

end VirtMachine
end Lish
