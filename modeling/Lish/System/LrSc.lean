import Mathlib.Data.List.Induction
import Lish.Core.Reservation
import Lish.System.CodeEvents
import Lish.System.Slices
/-!
# LrSc — what a successful SC tells

Runs of the machine as one agent after another: instructions, compiled code, devices and the host.  A reservation is an address
that an LR leaves in the hart; traps and SCs clear it, and nothing else does.
-/
namespace Lish

open Program Machine

/-- An event outside the interpreter: compiled code, the dispatcher, devices. -/
def CodeEvent.Outside : CodeEvent → Prop
  | .step _ | .decoded _ _ | .trap _ | .poll => False
  | _ => True

/-- What can happen to a machine. -/
inductive SystemEvent
  /-- The interrupt poll before an instruction, in the stepping interpreter and in a decoded block. -/
  | poll
  | pollTaken
  /-- An instruction is fetched and executed, or traps. -/
  | step (host : Option HostFp)
  /-- An instruction of a decoded block is executed, or traps. -/
  | decoded (host : Option HostFp) (d : DecodedInsn)
  | code (e : CodeEvent) (h : e.Outside)
  | pollVirtio
  | syncDevices
  | sleep
  | advance (ns : U64)
  | sbi
  | complete (id : U64) (data : List U8) (ok : Bool)
  | consoleInput (bytes : List U8)
  | netInput (frame : List U8)
  | netOutput
  | setRtc (ns : U64)
  /-- Decoded code is cached, the power goes off. -/
  | cached (cache : CodePageCache) (off : Bool)

namespace SystemEvent

/-- An exception is a trap in full-system mode. -/
def orTrap {α : Type} (system : Bool) (r : Except Exception α × Machine VirtBus) : Machine VirtBus :=
  match r with
  | (.ok _, m) => m
  | (.error e, m) => if system then ((Hart.exceptionToTrap e).run exec m).2 else m

def apply (m : VirtMachine) : SystemEvent → VirtMachine
  | poll => { m with hart := (Hart.poll.run exec m.hart).2 }
  | pollTaken => { m with hart := (Hart.pollTaken.run exec m.hart).2 }
  | step host => { m with hart := orTrap m.hart.cpu.sys.isSome ((Hart.step host).run exec m.hart) }
  | decoded host d => { m with hart := orTrap m.hart.cpu.sys.isSome ((Hart.executeDecoded host d).run exec m.hart) }
  | code e _ => { m with hart := e.apply m.hart }
  | pollVirtio => m.mapBus VirtBus.pollVirtio
  | syncDevices => m.syncDevices
  | sleep => m.sleep.1
  | advance ns => m.advanceRealtimeNs ns
  | sbi => m.serviceSbi
  | complete id data ok => (m.completeBlockRequest id data ok).2
  | consoleInput bytes => m.consoleInput bytes
  | netInput frame => m.netInput frame
  | netOutput => m.netTakeOutput
  | setRtc ns => m.setRtcUnixNs ns
  | cached cache off => { m with codeCache := cache, powerOff := off }

def run (es : List SystemEvent) (m : VirtMachine) : VirtMachine := es.foldl apply m

/-! ## What an event does to the reservation -/

def trapOps {α : Type} (system : Bool) (r : Except Exception α × Machine VirtBus) : List HartOp :=
  match r with
  | (.ok _, _) => []
  | (.error e, m) => if system then (Hart.exceptionToTrap e).trace exec m else []

/-- The operations of the hart in an event. -/
def ops (m : Machine VirtBus) : SystemEvent → List HartOp
  | poll => Hart.poll.trace exec m
  | pollTaken => Hart.pollTaken.trace exec m
  | step host => (Hart.step host).trace exec m ++ trapOps m.cpu.sys.isSome ((Hart.step host).run exec m)
  | decoded host d => (Hart.executeDecoded host d).trace exec m ++ trapOps m.cpu.sys.isSome ((Hart.executeDecoded host d).run exec m)
  | _ => []

/-- The instruction that an event executes, and the machine it is executed in. -/
def executed (m : Machine VirtBus) : SystemEvent → Option (DecodedInsn × Machine VirtBus)
  | step _ =>
    if m.cpu.pc &&& 1 ≠ 0 then none
    else match (Hart.fetchInsn m.cpu).run exec m with
      | (.ok full, m) => some (.fromWord full, m)
      | (.error _, _) => none
  | decoded _ d => some (d, m)
  | _ => none

/-- A trap is taken in the event. -/
def Traps (m : Machine VirtBus) (e : SystemEvent) : Prop := ∃ o ∈ e.ops m, o.IsTrap

theorem orTrap_reserved {α : Type} (system : Bool) (p : Hart α) (m : Machine VirtBus) :
    (orTrap system (p.run exec m)).cpu.reserved =
      (lastSet HartOp.reserves (p.trace exec m ++ trapOps system (p.run exec m)) m.cpu.reservation, m.cpu.sys.isSome) := by
  have hr := Hart.run_reservation p m
  have hs := Hart.run_system p m
  unfold orTrap trapOps
  rw [lastSet_append]
  revert hr hs
  rcases p.run exec m with ⟨e | r, m'⟩
  · intro hr hs
    dsimp only at hr hs ⊢
    rw [← hr, ← hs]
    cases system
    · rfl
    · exact Prod.ext (Hart.run_reservation _ m') (Hart.run_system _ m')
  · intro hr hs
    exact Prod.ext hr hs

theorem run_reserved {α : Type} (p : Hart α) (m : Machine VirtBus) :
    (p.run exec m).2.cpu.reserved = (lastSet HartOp.reserves (p.trace exec m) m.cpu.reservation, m.cpu.sys.isSome) :=
  Prod.ext (Hart.run_reservation p m) (Hart.run_system p m)

theorem probe_reserved (m : Machine VirtBus) (va : U64) : (m.jitProbeFetch va).2.cpu.reserved = m.cpu.reserved := by
  have h := TlbOnly.reserved (translate_frame busRel_true.paged m va .fetch).2
  unfold jitProbeFetch
  rcases hr : m.translate va .fetch with ⟨e | pa, m'⟩ <;> rw [hr] at h <;> exact h

theorem fill_reserved (m : Machine VirtBus) (va : U64) (store : Bool) : (m.jitFillTlb va store).2.cpu.reserved = m.cpu.reserved := by
  have h := TlbOnly.reserved (translate_frame busRel_true.paged m va (if store then .store else .load)).2
  unfold jitFillTlb
  rcases hr : m.translate va (if store then .store else .load) with ⟨e | pa, m'⟩ <;> rw [hr] at h
  · exact h
  · exact (TlbOnly.reserved (fillJtlb_frame m' va pa store).2).trans h

theorem code_reserved {e : CodeEvent} (h : e.Outside) (m : Machine VirtBus) : (e.apply m).cpu.reserved = m.cpu.reserved := by
  cases e with
  | step host => exact h.elim
  | decoded host d => exact h.elim
  | trap e => exact h.elim
  | poll => exact h.elim
  | probe va => exact probe_reserved m va
  | fill va store => exact fill_reserved m va store
  | compiled w va val =>
    change (compiledStore w va val m).cpu.reserved = _
    unfold compiledStore
    split_ifs
    · rfl
    · cases (fusedIndex m.cpu va true).bind fun addr => m.bus.ram.linear addr w.bytes <;> rfl
  | mark pa =>
    change (codeMarkPage m pa).cpu.reserved = _
    unfold codeMarkPage
    dsimp only
    split_ifs <;> rfl
  | _ => rfl

theorem sbi_reserved (m : VirtMachine) : m.serviceSbi.hart.cpu.reserved = m.hart.cpu.reserved := by
  have hcall : ∀ ext function arg0 arg1, (m.sbiCall ext function arg0 arg1).2.2.hart.cpu.reserved = m.hart.cpu.reserved := by
    intro ext function arg0 arg1
    unfold VirtMachine.sbiCall
    split
    all_goals first
      | rfl
      | exact Cpu.reserved_modifySys m.hart.cpu _
      | skip
    split_ifs <;> rfl
  exact hcall (m.hart.cpu.x 17) (m.hart.cpu.x 16) (m.hart.cpu.x 10) (m.hart.cpu.x 11)

theorem sync_reserved (m : VirtMachine) : m.syncDevices.hart.cpu.reserved = m.hart.cpu.reserved := by
  exact Cpu.reserved_modifySys m.hart.cpu _

theorem complete_reserved (m : VirtMachine) (id : U64) (data : List U8) (ok : Bool) :
    (m.completeBlockRequest id data ok).2.hart.cpu.reserved = m.hart.cpu.reserved := by
  unfold VirtMachine.completeBlockRequest
  dsimp only
  split
  · rfl
  · split
    · rfl
    · dsimp only
      split_ifs
      · exact sync_reserved _
      · rfl

/-- **The reservation after an event** is what the operations of the hart left. -/
theorem apply_reserved (e : SystemEvent) (m : VirtMachine) :
    (apply m e).hart.cpu.reserved = (lastSet (I := hartOps) HartOp.reserves (e.ops m.hart) m.hart.cpu.reservation, m.hart.cpu.sys.isSome) := by
  cases e with
  | poll => exact run_reserved Hart.poll m.hart
  | pollTaken => exact run_reserved Hart.pollTaken m.hart
  | step host => exact orTrap_reserved m.hart.cpu.sys.isSome (Hart.step host) m.hart
  | decoded host d => exact orTrap_reserved m.hart.cpu.sys.isSome (Hart.executeDecoded host d) m.hart
  | code e h => exact code_reserved h m.hart
  | syncDevices => exact sync_reserved m
  | sleep =>
    change m.sleep.1.hart.cpu.reserved = m.hart.cpu.reserved
    unfold VirtMachine.sleep
    dsimp only
    split_ifs <;> rfl
  | sbi => exact sbi_reserved m
  | complete id data ok => exact complete_reserved m id data ok
  | _ => rfl

/-! ## The instruction of an event -/

variable {m m' : Machine VirtBus} {e : SystemEvent} {d : DecodedInsn}

/-- A step whose fetch succeeds. -/
theorem executed_step {host : Option HostFp} (h : (step host).executed m = some (d, m')) :
    ∃ full, d = .fromWord full ∧ (Hart.fetchInsn m.cpu).run exec m = (.ok full, m') ∧ (Hart.step host).run exec m = (Hart.executeDecoded host d).run exec m' ∧
      (Hart.step host).trace exec m = .get :: ((Hart.fetchInsn m.cpu).trace exec m ++ (Hart.executeDecoded host d).trace exec m') := by
  unfold executed at h
  split_ifs at h with hodd
  rcases hf : (Hart.fetchInsn m.cpu).run exec m with ⟨er | full, m₁⟩ <;> rw [hf] at h
  · cases h
  · obtain ⟨rfl, rfl⟩ := Prod.mk.inj (Option.some.inj h)
    refine ⟨full, rfl, rfl, ?_, ?_⟩
    · rw [Hart.step_eq, run_get, if_neg hodd, run_bind, hf]
    · rw [Hart.step_eq]
      change HartOp.get :: Program.trace exec (if _ then _ else _) m = _
      rw [if_neg hodd, trace_bind_ok hf]

/-- A step that executes nothing fetches, or not even that. -/
theorem not_executed_step {host : Option HostFp} (h : (step host).executed m = none) {o : HartOp} (ho : o ∈ (Hart.step host).trace exec m) :
    Hart.Steady o := by
  unfold executed at h
  rw [Hart.step_eq] at ho
  change o ∈ HartOp.get :: Program.trace exec (if _ then _ else _) m at ho
  rcases List.mem_cons.1 ho with rfl | ho
  · rfl
  · split_ifs at h ho with hodd
    · cases ho
    · rcases hf : (Hart.fetchInsn m.cpu).run exec m with ⟨er | full, m₁⟩ <;> rw [hf] at h
      · rw [trace_bind_error hf] at ho
        exact Hart.fetches_steady o ((Hart.fetchInsn_shape m.cpu).trace ho)
      · cases h

theorem executed_reservation (h : e.executed m = some (d, m')) : m'.cpu.reservation = m.cpu.reservation := by
  cases e with
  | step host =>
    obtain ⟨full, -, hf, -⟩ := executed_step h
    have hr := Hart.run_reservation (Hart.fetchInsn m.cpu) m
    have hk : ∀ o ∈ (Hart.fetchInsn m.cpu).trace exec m, HartOp.reserves o = none := fun o ho =>
      Hart.fetches_steady o ((Hart.fetchInsn_shape m.cpu).trace ho)
    rw [hf, lastSet_kept hk] at hr
    exact hr
  | decoded host d' =>
    obtain ⟨-, rfl⟩ := Prod.mk.inj (Option.some.inj h)
    rfl
  | _ => cases h

theorem trapOps_unreserving {α : Type} {system : Bool} {r : Except Exception α × Machine VirtBus} {o : HartOp} (ho : o ∈ trapOps system r) :
    Hart.Unreserving o := by
  unfold trapOps at ho
  obtain ⟨er | a, m'⟩ := r
  · cases system
    · cases ho
    · exact (Hart.exceptionToTrap_unreserving er).trace ho
  · cases ho

/-- An LR of an address is executed, and completes. -/
def LoadsReserved (m : Machine VirtBus) (e : SystemEvent) (a : U64) : Prop :=
  ∃ d m', e.executed m = some (d, m') ∧ Hart.IsLr d ∧ Hart.amoAddr m'.cpu d = a ∧ ((Hart.execAmo m'.cpu d.bits).run exec m').1 = .ok ()

/-- **Only an LR** sets the reservation. -/
theorem loadsReserved_of_ops {a : U64} (ho : .cpu (.reserve (some a)) ∈ e.ops m) : e.LoadsReserved m a := by
  have hpoll : ∀ {p : Hart Unit} {b : Prop}, Hart.Made Hart.Polls (fun _ => True) p →
      HartOp.cpu (.reserve (some a)) ∈ p.trace exec m → b := fun hp ho =>
    absurd rfl ((hp.shape Hart.polls_unreserving Hart.accesses_unreserving).trace ho _)
  cases e with
  | poll => exact hpoll Hart.poll_polls ho
  | pollTaken =>
    exact absurd rfl ((Hart.pollTaken_polls.shape Hart.polls_unreserving Hart.accesses_unreserving).trace ho _)
  | step host =>
    rcases List.mem_append.1 ho with ho | ho
    · rcases hx : (step host).executed m with - | ⟨d, m'⟩
      · cases not_executed_step hx ho
      · obtain ⟨full, -, -, -, htrace⟩ := executed_step hx
        rw [htrace] at ho
        rcases List.mem_cons.1 ho with ho | ho
        · cases ho
        · rcases List.mem_append.1 ho with ho | ho
          · cases Hart.fetches_steady _ ((Hart.fetchInsn_shape m.cpu).trace ho)
          · obtain ⟨h1, h2, h3⟩ := Hart.lr_of_reserve ho
            exact ⟨d, m', hx, h1, h2.symm, h3⟩
    · exact absurd rfl (trapOps_unreserving ho _)
  | decoded host d =>
    rcases List.mem_append.1 ho with ho | ho
    · obtain ⟨h1, h2, h3⟩ := Hart.lr_of_reserve ho
      exact ⟨d, m, rfl, h1, h2.symm, h3⟩
    · exact absurd rfl (trapOps_unreserving ho _)
  | _ => cases ho

/-- **An SC** clears the reservation, or traps. -/
theorem clears_of_sc (h : e.executed m = some (d, m')) (hsc : Hart.IsSc d) (hs : m.cpu.sys.isSome = true) :
    ∃ o ∈ e.ops m, o.reserves = some none := by
  have htrap : ∀ (er : Exception) (m₁ : Machine VirtBus), ∃ o ∈ trapOps (α := Option StopReason) m.cpu.sys.isSome (.error er, m₁), o.reserves = some none :=
    fun er m₁ => by
      rw [hs]
      exact ⟨.cpu (.trap _ _ _), List.mem_cons_of_mem _ List.mem_cons_self, rfl⟩
  have hend : ∀ host, ∃ o ∈ (Hart.executeDecoded host d).trace exec m' ++ trapOps m.cpu.sys.isSome ((Hart.executeDecoded host d).run exec m'),
      o.reserves = some none := fun host => by
    rcases hr : (Hart.executeDecoded host d).run exec m' with ⟨er | stop, m₁⟩
    · obtain ⟨o, ho, hc⟩ := htrap er m₁
      exact ⟨o, List.mem_append_right _ ho, hc⟩
    · exact ⟨_, List.mem_append_left _ (Hart.sc_clears hsc hr), rfl⟩
  cases e with
  | step host =>
    obtain ⟨full, -, -, hrun, htrace⟩ := executed_step h
    obtain ⟨o, ho, hc⟩ := hend host
    refine ⟨o, ?_, hc⟩
    change o ∈ (Hart.step host).trace exec m ++ trapOps m.cpu.sys.isSome ((Hart.step host).run exec m)
    rw [hrun, htrace, List.cons_append, List.append_assoc]
    exact List.mem_cons_of_mem _ (List.mem_append_right _ ho)
  | decoded host d' =>
    obtain ⟨rfl, rfl⟩ := Prod.mk.inj (Option.some.inj h)
    exact hend host
  | _ => cases h

/-! ## Runs -/

theorem run_append (es es' : List SystemEvent) (m : VirtMachine) : run (es ++ es') m = run es' (run es m) := List.foldl_append

theorem run_system (es : List SystemEvent) (m : VirtMachine) : (run es m).hart.cpu.sys.isSome = m.hart.cpu.sys.isSome := by
  induction es generalizing m with
  | nil => rfl
  | cons e es ih => exact (ih (apply m e)).trans (congrArg Prod.snd (apply_reserved e m))

/-- An iteration of the stepping interpreter is a poll and a step. -/
theorem runOne_events (host : Option HostFp) (m : VirtMachine) :
    { m with hart := (m.hart.runOne host).2 } = run [poll, step host] m := by
  have hs := Hart.run_system Hart.poll m.hart
  change _ = apply (apply m poll) (step host)
  unfold apply runOne
  dsimp only
  rw [hs]
  unfold orTrap
  rcases (Hart.step host).run exec (Hart.poll.run exec m.hart).2 with ⟨e | stop, h⟩
  · cases m.hart.cpu.sys.isSome <;> rfl
  · rfl

/-- An instruction of a decoded block. -/
theorem executeOne_events (host : Option HostFp) (d : DecodedInsn) (m : VirtMachine) :
    { m with hart := (m.hart.executeOne host d).2 } = run [decoded host d] m := by
  change _ = apply m (decoded host d)
  unfold apply executeOne orTrap
  dsimp only
  rcases (Hart.executeDecoded host d).run exec m.hart with ⟨e | stop, h⟩
  · cases m.hart.cpu.sys.isSome <;> rfl
  · rfl

/-- **A run of the interpreter** is a list of events. -/
theorem run_events (host : Option HostFp) (budget : ℕ) (m : VirtMachine) :
    ∃ es, { m with hart := (Machine.run host budget m.hart).2 } = run es m := by
  induction budget generalizing m with
  | zero => exact ⟨[], rfl⟩
  | succ n ih =>
    have h1 := runOne_events host m
    rw [Machine.run]
    rcases hr : m.hart.runOne host with ⟨_ | stop, h⟩ <;> rw [hr] at h1
    · obtain ⟨es, hes⟩ := ih { m with hart := h }
      refine ⟨[poll, step host] ++ es, ?_⟩
      rw [run_append, ← h1]
      exact hes
    · exact ⟨_, h1⟩

/-- **A reservation held** is that of an LR, and nothing has cleared it since. -/
theorem run_held {m₀ : VirtMachine} (h₀ : m₀.hart.cpu.reservation = none) {es : List SystemEvent} {a : U64}
    (h : (run es m₀).hart.cpu.reservation = some a) :
    ∃ pre lr post, es = pre ++ lr :: post ∧ lr.LoadsReserved (run pre m₀).hart a ∧
      ∀ pre' e post', post = pre' ++ e :: post' → ∀ o ∈ e.ops (run (pre ++ lr :: pre') m₀).hart, o.reserves = none := by
  induction es using List.reverseRecOn with
  | nil =>
    rw [show run [] m₀ = m₀ from rfl, h₀] at h
    cases h
  | append_singleton es e ih =>
    rw [run_append] at h
    have hr := congrArg Prod.fst (apply_reserved e (run es m₀))
    rcases lastSet_cases (hr.symm.trans h) with ⟨hheld, hkept⟩ | ⟨opre, o, opost, hops, hset, -⟩
    · obtain ⟨pre, lr, post, rfl, hlr, hpost⟩ := ih hheld
      refine ⟨pre, lr, post ++ [e], by rw [List.append_assoc, List.cons_append], hlr, fun pre' e' post' he' => ?_⟩
      rcases List.eq_nil_or_concat post' with rfl | ⟨post₁, e₁, rfl⟩
      · obtain ⟨hpre, hlast⟩ := List.append_inj' he' rfl
        rw [← hpre, ← (List.cons.inj hlast).1]
        exact hkept
      · rw [List.concat_eq_append, ← List.cons_append, ← List.append_assoc] at he'
        exact hpost pre' e' post₁ (List.append_inj' he' rfl).1
    · have hmem : o ∈ e.ops (run es m₀).hart := by
        rw [hops]
        exact List.mem_append_right _ List.mem_cons_self
      have ho : o = .cpu (.reserve (some a)) := by
        unfold HartOp.reserves at hset
        split at hset
        · rw [Option.some.inj hset]
        · cases hset
        · cases hset
      rw [ho] at hmem
      exact ⟨es, e, [], rfl, loadsReserved_of_ops hmem, fun pre' e' post' he' => absurd he'.symm (by simp)⟩

/-- An SC is executed and writes zero. -/
def StoresConditionally (m : Machine VirtBus) (e : SystemEvent) (a : U64) : Prop :=
  ∃ d m', e.executed m = some (d, m') ∧ Hart.IsSc d ∧ Hart.amoAddr m'.cpu d = a ∧
    .cpu (.wr (rd d.bits) 0) ∈ (Hart.execAmo m'.cpu d.bits).trace exec m'

/-- An SC is executed. -/
def ExecutesSc (m : Machine VirtBus) (e : SystemEvent) : Prop := ∃ d m', e.executed m = some (d, m') ∧ Hart.IsSc d

/-- **An SC succeeds** only after an LR of the same address, with no trap and no SC since. -/
theorem sc_success (ram : GuestRam) (virtio : List VirtioDev) (directSbi : Bool) (dtbAddr dynAddr : U64) (passes : ℕ)
    (es : List SystemEvent) (sc : SystemEvent) (a : U64)
    (h : sc.StoresConditionally (run es (.new ram virtio directSbi dtbAddr dynAddr passes)).hart a) :
    ∃ pre lr post, es = pre ++ lr :: post ∧ lr.LoadsReserved (run pre (.new ram virtio directSbi dtbAddr dynAddr passes)).hart a ∧
      ∀ pre' e post', post = pre' ++ e :: post' →
        ¬ e.Traps (run (pre ++ lr :: pre') (.new ram virtio directSbi dtbAddr dynAddr passes)).hart ∧
          ¬ e.ExecutesSc (run (pre ++ lr :: pre') (.new ram virtio directSbi dtbAddr dynAddr passes)).hart := by
  have h₀ : (VirtMachine.new ram virtio directSbi dtbAddr dynAddr passes).hart.cpu.reserved = (none, true) := by
    cases directSbi <;> rfl
  generalize VirtMachine.new ram virtio directSbi dtbAddr dynAddr passes = m₀ at h h₀ ⊢
  obtain ⟨d, m', hx, hsc, rfl, hz⟩ := h
  have hheld := Hart.reserved_of_sc hsc hz
  rw [executed_reservation hx] at hheld
  obtain ⟨pre, lr, post, hes, hlr, hpost⟩ := run_held (congrArg Prod.fst h₀) hheld
  refine ⟨pre, lr, post, hes, hlr, fun pre' e post' he => ⟨?_, ?_⟩⟩
  · rintro ⟨o, ho, htrap⟩
    have hn := hpost pre' e post' he o ho
    unfold HartOp.IsTrap at htrap
    split at htrap
    · cases hn
    · exact htrap
  · rintro ⟨d', m₁, hx', hsc'⟩
    have hsys := (run_system (pre ++ lr :: pre') m₀).trans (congrArg Prod.snd h₀)
    obtain ⟨o, ho, hc⟩ := clears_of_sc hx' hsc' hsys
    rw [hpost pre' e post' he o ho] at hc
    cases hc

/-! ## A device write between an LR and its SC -/

/-- lr.w x5, (x11); sc.w x6, x10, (x11), and a flush request: two descriptors, the header, and one entry available. -/
def flushRam : GuestRam where
  len := 4096
  mem := fun i => ([(0x00, 0xaf), (0x01, 0xa2), (0x02, 0x05), (0x03, 0x10), (0x04, 0x2f), (0x05, 0xa3), (0x06, 0xa5), (0x07, 0x18),
    (0x41, 2), (0x43, 0x80), (0x48, 16), (0x4c, 1), (0x4e, 1), (0x51, 3), (0x53, 0x80), (0x58, 1), (0x5c, 2), (0x102, 1),
    (0x200, 4)].lookup i).getD 0
  ptr := 0
  fits := RAM_page_fits
  ptr_fits := ptr_page_fits

/-- A disk of which the guest has set up one queue. -/
def flushDisk : VirtioDev :=
  [(0x030, 0), (0x038, 2), (0x080, (RAM_BASE + 0x40).setWidth 32), (0x090, (RAM_BASE + 0x100).setWidth 32),
    (0x0a0, (RAM_BASE + 0x180).setWidth 32), (0x044, 1)].foldl (fun d (reg : U64 × U32) => (d.write reg.1 reg.2).2) (.new (.block []))

/-- The hart is at the LR, and x11 points to the used ring. -/
def flushBoot : VirtMachine := .new flushRam [flushDisk] false (RAM_BASE + 0x180) 0 2

def isZeroStatus (d : DecodedInsn) : HartOp → Bool
  | .cpu (.wr r v) => r == rd d.bits && v == 0
  | _ => false

theorem flush_sc : (step none).StoresConditionally (run [step none, pollVirtio] flushBoot).hart (RAM_BASE + 0x180) := by
  have hrun : ((step none).executed (run [step none, pollVirtio] flushBoot).hart).any (fun p => decide (Hart.IsSc p.1) &&
      decide (Hart.amoAddr p.2.cpu p.1 = RAM_BASE + 0x180) && ((Hart.execAmo p.2.cpu p.1.bits).trace exec p.2).any (isZeroStatus p.1)) = true := by
    decide
  obtain ⟨⟨d, m'⟩, hx, hp⟩ := (Option.any_eq_true _ _).1 hrun
  simp only [Bool.and_eq_true, decide_eq_true_eq] at hp
  obtain ⟨o, ho, hz⟩ := List.any_eq_true.1 hp.2
  refine ⟨d, m', hx, hp.1.1, hp.1.2, ?_⟩
  unfold isZeroStatus at hz
  split at hz
  · rw [Bool.and_eq_true, beq_iff_eq, beq_iff_eq] at hz
    rwa [hz.1, hz.2] at ho
  · cases hz

theorem sc_success_flush :
    ∃ pre lr post, [step none, pollVirtio] = pre ++ lr :: post ∧ lr.LoadsReserved (run pre flushBoot).hart (RAM_BASE + 0x180) ∧
      ∀ pre' e post', post = pre' ++ e :: post' →
        ¬ e.Traps (run (pre ++ lr :: pre') flushBoot).hart ∧ ¬ e.ExecutesSc (run (pre ++ lr :: pre') flushBoot).hart :=
  sc_success flushRam [flushDisk] false (RAM_BASE + 0x180) 0 2 _ _ _ flush_sc

/-- Between the LR and an SC that succeeds, the device has written the used index: a byte the LR has read. -/
theorem device_write_hidden :
    ¬ ∀ (m₀ : VirtMachine) (lr sc : SystemEvent) (a : U64), m₀.hart.cpu.reservation = none → lr.LoadsReserved m₀.hart a →
      sc.StoresConditionally (run [lr, pollVirtio] m₀).hart a → ∀ i < 4,
        (run [lr, pollVirtio] m₀).hart.bus.ram.mem ((a - RAM_BASE).toNat + i) = (run [lr] m₀).hart.bus.ram.mem ((a - RAM_BASE).toNat + i) := by
  intro h
  have hlr : (step none).LoadsReserved flushBoot.hart (RAM_BASE + 0x180) := by
    have hrun : ((step none).executed flushBoot.hart).any (fun p => decide (Hart.IsLr p.1) &&
        decide (Hart.amoAddr p.2.cpu p.1 = RAM_BASE + 0x180) && ((Hart.execAmo p.2.cpu p.1.bits).run exec p.2).1.toOption.isSome) = true := by
      decide
    obtain ⟨⟨d, m'⟩, hx, hp⟩ := (Option.any_eq_true _ _).1 hrun
    simp only [Bool.and_eq_true, decide_eq_true_eq] at hp
    refine ⟨d, m', hx, hp.1.1, hp.1.2, ?_⟩
    revert hp
    rcases ((Hart.execAmo m'.cpu d.bits).run exec m').1 with e | u
    · exact fun hp => (nomatch hp.2)
    · exact fun _ => rfl
  have := h flushBoot (step none) (step none) (RAM_BASE + 0x180) rfl hlr flush_sc 2 (by decide)
  revert this
  decide

end SystemEvent
end Lish
