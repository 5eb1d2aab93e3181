import Lish.Net.SlirpBridge
/-!
# SlirpCommands — the one slot for commands

Callers share one slot and one condition: who owns the slot, and what the poll thread has executed for whom.
-/
namespace Lish

/-- What the poll thread has in hand: for which call, and the command or its result. -/
def PollAt.task : PollAt → Option (ℕ × (ForwardCommand ⊕ ℤ))
  | .executing call command => some (call, .inl command)
  | .executed call result => some (call, .inr result)
  | _ => none

namespace SlirpBridge

variable {s s' : SlirpBridge} {p : Party}

/-! ## Commands -/

/-- What the poll thread has executed for a call. -/
def executions (s : SlirpBridge) (call : ℕ) : List (ℕ × ForwardCommand × ℤ) := s.executed.filter fun e => e.1 = call

/-- What it has executed of the command in the slot. -/
def outcome (s : SlirpBridge) (command : ForwardCommand) : List (ℕ × ForwardCommand × ℤ) :=
  match s.slot.complete, s.poll.task with
  | true, _ => [(s.slot.owner, command, s.slot.result)]
  | false, some (_, .inr result) => [(s.slot.owner, command, result)]
  | false, _ => []

theorem outcome_complete (h : s.slot.complete = true) (command : ForwardCommand) :
    s.outcome command = [(s.slot.owner, command, s.slot.result)] := by
  unfold outcome
  rw [h]

theorem outcome_answered {call : ℕ} {result : ℤ} (h : s.slot.complete = false) (htask : s.poll.task = some (call, .inr result))
    (command : ForwardCommand) : s.outcome command = [(s.slot.owner, command, result)] := by
  unfold outcome
  rw [h, htask]

theorem outcome_taken {call : ℕ} {taken : ForwardCommand} (h : s.slot.complete = false)
    (htask : s.poll.task = some (call, .inl taken)) (command : ForwardCommand) : s.outcome command = [] := by
  unfold outcome
  rw [h, htask]

theorem outcome_idle (h : s.slot.complete = false) (htask : s.poll.task = none) (command : ForwardCommand) :
    s.outcome command = [] := by
  unfold outcome
  rw [h, htask]

/-- The slot is one call's at a time, and its command is executed once. -/
structure Commands (s : SlirpBridge) : Prop where
  fresh : ∀ call, s.nextCall ≤ call → s.calls call = none
  early : ∀ call, s.calls call = none → s.executions call = []
  waiting : ∀ call command, s.calls call = some (.waiting command) → s.executions call = []
  placed : ∀ call command, s.calls call = some (.placed command) → s.slot.command = some command ∧ s.slot.owner = call
  slot : ∀ command, s.slot.command = some command → s.calls s.slot.owner = some (.placed command) ∧
    s.executions s.slot.owner = s.outcome command
  returned : ∀ call command result, s.calls call = some (.returned command result) → s.executions call = [(call, command, result)]
  free : s.slot.command = none → s.slot.complete = false
  taken : ∀ call command, s.poll.task = some (call, .inl command) →
    s.slot.command = some command ∧ s.slot.owner = call ∧ s.slot.complete = false
  answered : ∀ call result, s.poll.task = some (call, .inr result) →
    s.slot.command ≠ none ∧ s.slot.owner = call ∧ s.slot.complete = false

theorem commands_new (queueCapacity : U32) (forward : ForwardCommand) : Commands (new queueCapacity forward) where
  fresh call hc := if_neg (Nat.one_le_iff_ne_zero.1 hc)
  early _ _ := rfl
  waiting _ _ _ := rfl
  placed call command hc := by
    unfold new at hc
    dsimp only at hc
    split at hc <;> cases hc
  slot _ hc := by cases hc
  returned call command result hc := by
    unfold new at hc
    dsimp only at hc
    split at hc <;> cases hc
  free _ := rfl
  taken _ _ hc := by cases hc
  answered _ _ hc := by cases hc

/-- A step that leaves the calls, the slot and what the poll thread has in hand. -/
theorem Commands.of_same (h : Commands s) (hcalls : s'.calls = s.calls) (hnext : s'.nextCall = s.nextCall) (hslot :
    s'.slot = s.slot)
    (hexecuted : s'.executed = s.executed) (htask : s'.poll.task = s.poll.task) : Commands s' := by
  have hexe : s'.executions = s.executions := by
    funext call
    unfold executions
    rw [hexecuted]
  have hout : s'.outcome = s.outcome := by
    funext command
    unfold outcome
    rw [hslot, htask]
  constructor
  · rw [hcalls, hnext]
    exact h.fresh
  · rw [hcalls, hexe]
    exact h.early
  · rw [hcalls, hexe]
    exact h.waiting
  · rw [hcalls, hslot]
    exact h.placed
  · rw [hcalls, hslot, hexe, hout]
    exact h.slot
  · rw [hcalls, hexe]
    exact h.returned
  · rw [hslot]
    exact h.free
  · rw [htask, hslot]
    exact h.taken
  · rw [htask, hslot]
    exact h.answered

/-- A callback leaves what the poll thread and the callers have. -/
theorem run_frame (s : SlirpBridge) (callback : QueueCallback) :
    s.run callback = { s.run callback with
      calls := s.calls
      nextCall := s.nextCall
      slot := s.slot
      poll := s.poll
      packet := s.packet
      created := s.created
      delivered := s.delivered
      outputAccepted := s.outputAccepted
      executed := s.executed } := by
  have hsend (s : SlirpBridge) : s.sendNextFrame = { s.sendNextFrame with
      calls := s.calls
      nextCall := s.nextCall
      slot := s.slot
      poll := s.poll
      packet := s.packet
      created := s.created
      delivered := s.delivered
      outputAccepted := s.outputAccepted
      executed := s.executed } := by
    unfold sendNextFrame
    split
    · rfl
    · split
      · rfl
      · split <;> rfl
  cases callback with
  | drain => exact hsend s
  | processed ok => rfl
  | sent ok =>
    cases ok with
    | true => exact hsend { s with sending := false }
    | false => rfl
  | accept =>
    unfold run acceptOrRetry
    dsimp only
    split
    · split <;> rfl
    · rfl
  | ready promoted => cases promoted <;> rfl
  | stop => rfl

section Frame

variable (s : SlirpBridge) (callback : QueueCallback)

theorem run_calls : (s.run callback).calls = s.calls := (congrArg SlirpBridge.calls (run_frame s callback) :)

theorem run_nextCall : (s.run callback).nextCall = s.nextCall := (congrArg SlirpBridge.nextCall (run_frame s callback) :)

theorem run_slot : (s.run callback).slot = s.slot := (congrArg SlirpBridge.slot (run_frame s callback) :)

theorem run_poll : (s.run callback).poll = s.poll := (congrArg SlirpBridge.poll (run_frame s callback) :)

theorem run_packet : (s.run callback).packet = s.packet := (congrArg SlirpBridge.packet (run_frame s callback) :)

theorem run_executed : (s.run callback).executed = s.executed := (congrArg SlirpBridge.executed (run_frame s callback) :)

end Frame

theorem executions_append_self (s : SlirpBridge) (call : ℕ) (command : ForwardCommand) (result : ℤ) :
    { s with executed := s.executed ++ [(call, command, result)] }.executions call = s.executions call ++ [(call, command,
      result)] := by
  unfold executions
  dsimp only
  rw [List.filter_append, List.filter_singleton, decide_eq_true rfl]
  rfl

theorem executions_append_of_ne (s : SlirpBridge) {call other : ℕ} (hne : call ≠ other) (command : ForwardCommand) (result : ℤ) :
    { s with executed := s.executed ++ [(call, command, result)] }.executions other = s.executions other := by
  unfold executions
  dsimp only
  rw [List.filter_append, List.filter_singleton, decide_eq_false hne]
  exact List.append_nil _

theorem setCall_self (s : SlirpBridge) (call : ℕ) (state : ForwardCall) :
    (s.setCall call state).calls call = some state := if_pos rfl

theorem setCall_of_ne (s : SlirpBridge) {call other : ℕ} (hne : other ≠ call) (state : ForwardCall) :
    (s.setCall call state).calls other = s.calls other := if_neg hne

theorem setCall_cases {call other : ℕ} {state : ForwardCall} {found : Option ForwardCall}
    (h : (s.setCall call state).calls other = found) : (other = call ∧ found = some state) ∨ (other ≠ call ∧
      s.calls other = found) := by
  by_cases he : other = call
  · rw [he, setCall_self] at h
    exact .inl ⟨he, h.symm⟩
  · rw [setCall_of_ne s he] at h
    exact .inr ⟨he, h⟩

/-- The poll thread's hands are empty where the slot is empty or its command is done. -/
theorem Commands.idle (h : Commands s) (hslot : s.slot.command = none ∨ s.slot.complete = true) : s.poll.task = none := by
  cases htask : s.poll.task with
  | none => rfl
  | some task =>
    obtain ⟨call, what⟩ := task
    cases what with
    | inl command =>
      obtain ⟨hc, -, hn⟩ := h.taken call command htask
      rw [hc, hn] at hslot
      rcases hslot with hslot | hslot <;> cases hslot
    | inr result =>
      obtain ⟨hc, -, hn⟩ := h.answered call result htask
      rw [hn] at hslot
      exact absurd hslot (by simp [hc])

/-- A call that begins. -/
theorem Commands.call (h : Commands s) (command : ForwardCommand) :
    Commands { s.setCall s.nextCall (.waiting command) with nextCall := s.nextCall + 1 } := by
  have hfresh := h.fresh s.nextCall (Nat.le_refl _)
  constructor
  · intro other hle
    have hle' : s.nextCall + 1 ≤ other := hle
    exact (setCall_of_ne s (by omega) _).trans (h.fresh other (by omega))
  · intro other hc
    rcases setCall_cases hc with ⟨-, hx⟩ | ⟨-, hc⟩
    · cases hx
    · exact h.early other hc
  · intro other command' hc
    rcases setCall_cases hc with ⟨he, -⟩ | ⟨-, hc⟩
    · rw [he]
      exact h.early _ hfresh
    · exact h.waiting other command' hc
  · intro other command' hc
    rcases setCall_cases hc with ⟨-, hx⟩ | ⟨-, hc⟩
    · cases hx
    · exact h.placed other command' hc
  · intro command' hc
    obtain ⟨howner, hexe⟩ := h.slot command' hc
    have hne : s.slot.owner ≠ s.nextCall := by
      intro he
      rw [he, hfresh] at howner
      cases howner
    exact ⟨(setCall_of_ne s hne _).trans howner, hexe⟩
  · intro other command' result hc
    rcases setCall_cases hc with ⟨-, hx⟩ | ⟨-, hc⟩
    · cases hx
    · exact h.returned other command' result hc
  · exact h.free
  · exact h.taken
  · exact h.answered

/-- A caller puts its command into the empty slot. -/
theorem Commands.place (h : Commands s) {call : ℕ} {command : ForwardCommand} (hcall : s.calls call = some (.waiting command))
    (hfree : s.slot.command = none) :
    Commands { s.setCall call (.placed command) with slot := ⟨some command, false, 0, call⟩ } := by
  have hidle : s.poll.task = none := h.idle (.inl hfree)
  constructor
  · intro other hle
    have hne : other ≠ call := by
      intro he
      rw [he] at hle
      rw [h.fresh call hle] at hcall
      cases hcall
    exact (setCall_of_ne s hne _).trans (h.fresh other hle)
  · intro other hc
    rcases setCall_cases hc with ⟨-, hx⟩ | ⟨-, hc⟩
    · cases hx
    · exact h.early other hc
  · intro other command' hc
    rcases setCall_cases hc with ⟨-, hx⟩ | ⟨-, hc⟩
    · cases hx
    · exact h.waiting other command' hc
  · intro other command' hc
    rcases setCall_cases hc with ⟨he, hx⟩ | ⟨-, hc⟩
    · cases hx
      exact ⟨rfl, he.symm⟩
    · -- no call has placed a command while the slot is empty
      have hsome := (h.placed other command' hc).1
      rw [hfree] at hsome
      cases hsome
  · intro command' hc
    cases hc
    refine ⟨setCall_self s call _, (h.waiting call command hcall).trans (Eq.symm ?_)⟩
    exact outcome_idle (by rfl) (by exact hidle) command
  · intro other command' result hc
    rcases setCall_cases hc with ⟨-, hx⟩ | ⟨-, hc⟩
    · cases hx
    · exact h.returned other command' result hc
  · intro hc
    cases hc
  · intro other command' hc
    cases hidle.symm.trans hc
  · intro other result hc
    cases hidle.symm.trans hc

/-- A caller takes its result and empties the slot. -/
theorem Commands.takeResult (h : Commands s) {call : ℕ} {command : ForwardCommand} (hcall : s.calls call = some (.placed command))
    (hdone : s.slot.complete = true) :
    Commands { s.setCall call (.returned command s.slot.result) with slot := .empty } := by
  have hidle : s.poll.task = none := h.idle (.inr hdone)
  obtain ⟨hcommand, howner⟩ := h.placed call command hcall
  constructor
  · intro other hle
    have hne : other ≠ call := by
      intro he
      rw [he] at hle
      rw [h.fresh call hle] at hcall
      cases hcall
    exact (setCall_of_ne s hne _).trans (h.fresh other hle)
  · intro other hc
    rcases setCall_cases hc with ⟨-, hx⟩ | ⟨-, hc⟩
    · cases hx
    · exact h.early other hc
  · intro other command' hc
    rcases setCall_cases hc with ⟨-, hx⟩ | ⟨-, hc⟩
    · cases hx
    · exact h.waiting other command' hc
  · intro other command' hc
    rcases setCall_cases hc with ⟨-, hx⟩ | ⟨hne, hc⟩
    · cases hx
    · exact absurd ((h.placed other command' hc).2.symm.trans howner) hne
  · intro command' hc
    cases hc
  · intro other command' result hc
    rcases setCall_cases hc with ⟨he, hx⟩ | ⟨-, hc⟩
    · cases hx
      have hexe := (h.slot command hcommand).2
      rw [outcome_complete hdone, howner] at hexe
      rw [he]
      exact hexe
    · exact h.returned other command' result hc
  · intro _
    rfl
  · intro other command' hc
    cases hidle.symm.trans hc
  · intro other result hc
    cases hidle.symm.trans hc

/-- The poll thread executes the command in its hands. -/
theorem Commands.execute (h : Commands s) {call : ℕ} {command : ForwardCommand} (result : ℤ) (htask : s.poll.task = some (call,
    .inl command)) :
    Commands { s with poll := .executed call result, executed := s.executed ++ [(call, command, result)] } := by
  obtain ⟨hcommand, howner, hdone⟩ := h.taken call command htask
  have hcall := (h.slot command hcommand).1
  rw [howner] at hcall
  have hothers {other : ℕ} (hne : s.calls other ≠ some (.placed command)) :
      executions { s with poll := .executed call result, executed := s.executed ++ [(call, command,
        result)] } other = s.executions other :=
    s.executions_append_of_ne (fun he => hne (by rw [← he]; exact hcall)) command result
  constructor
  · exact h.fresh
  · intro other hc
    rw [hothers (by rw [hc]; intro he; cases he)]
    exact h.early other hc
  · intro other command' hc
    rw [hothers (by rw [hc]; intro he; cases he)]
    exact h.waiting other command' hc
  · exact h.placed
  · intro command' hc
    obtain ⟨hplaced, hexe⟩ := h.slot command' hc
    cases hc.symm.trans hcommand
    rw [outcome_taken hdone htask] at hexe
    refine ⟨hplaced, Eq.trans (b := [(s.slot.owner, command, result)]) ?_ (Eq.symm ?_)⟩
    · rw [howner] at hexe
      show executions _ s.slot.owner = _
      rw [howner]
      refine (s.executions_append_self call command result).trans ?_
      rw [hexe]
      rfl
    · exact outcome_answered (by exact hdone) (by rfl) command
  · intro other command' result' hc
    rw [hothers (by rw [hc]; intro he; cases he)]
    exact h.returned other command' result' hc
  · exact h.free
  · intro other command' hc
    cases hc
  · intro other result' hc
    cases hc
    refine ⟨fun hnone => ?_, howner, hdone⟩
    rw [hcommand] at hnone
    cases hnone

/-- The result is put into the slot. -/
theorem Commands.publish (h : Commands s) {call : ℕ} {result : ℤ} (htask : s.poll.task = some (call, .inr result)) :
    Commands { s with poll := .polling, slot := { s.slot with result := result, complete := true } } := by
  obtain ⟨hsome, howner, hdone⟩ := h.answered call result htask
  constructor
  · exact h.fresh
  · exact h.early
  · exact h.waiting
  · exact h.placed
  · intro command hc
    obtain ⟨hplaced, hexe⟩ := h.slot command hc
    rw [outcome_answered hdone htask] at hexe
    refine ⟨hplaced, hexe.trans (Eq.symm ?_)⟩
    exact outcome_complete (by rfl) command
  · exact h.returned
  · exact fun hc => absurd hc hsome
  · intro other command hc
    cases hc
  · intro other result' hc
    cases hc

/-- The poll thread takes the command of the slot. -/
theorem Commands.takeCommand (h : Commands s) {command : ForwardCommand} (hidle : s.poll.task = none)
    (hcommand : s.slot.command = some command) (hdone : s.slot.complete = false) :
    Commands { s with poll := .executing s.slot.owner command } := by
  constructor
  · exact h.fresh
  · exact h.early
  · exact h.waiting
  · exact h.placed
  · intro command' hc
    obtain ⟨hplaced, hexe⟩ := h.slot command' hc
    rw [outcome_idle hdone hidle] at hexe
    refine ⟨hplaced, hexe.trans (Eq.symm ?_)⟩
    exact outcome_taken (by exact hdone) (by rfl) command'
  · exact h.returned
  · exact h.free
  · intro other command' hc
    cases hc
    exact ⟨hcommand, rfl, hdone⟩
  · intro other result hc
    cases hc

/-- **Every step** keeps the slot one call's. -/
theorem Step.commands (hs : s.Step p s') (h : Commands s) : Commands s' := by
  cases hs with
  | takeInput hpoll hpop => exact h.of_same rfl rfl rfl rfl (by rw [hpoll]; rfl)
  | noInput hpoll hpop => exact h.of_same rfl rfl rfl rfl (by rw [hpoll]; rfl)
  | slirpInput hpoll hpacket => exact h.of_same rfl rfl rfl rfl (by rw [hpoll]; rfl)
  | takeCommand hpoll hc hn => exact h.takeCommand (by rw [hpoll]; rfl) hc hn
  | noCommand hpoll hc => exact h.of_same rfl rfl rfl rfl (by rw [hpoll]; rfl)
  | execute result hpoll hpacket => exact h.execute result (by rw [hpoll]; rfl)
  | publish hpoll => exact h.publish (by rw [hpoll]; rfl)
  | polled hpoll hpacket => exact h.of_same rfl rfl rfl rfl (by rw [hpoll]; rfl)
  | sendPacket hpoll hpacket hsize => exact h.of_same rfl rfl rfl rfl rfl
  | pushOutput hpacket hpush => exact h.of_same rfl rfl rfl rfl rfl
  | outputReady hpacket => exact h.of_same rfl rfl rfl rfl rfl
  | call command => exact h.call command
  | place hcall hslot => exact h.place hcall hslot
  | takeResult hcall hslot => exact h.takeResult hcall hslot
  | create hcreated hcall => split <;> exact h.of_same rfl rfl rfl rfl rfl
  | run hcreated hc =>
    exact h.of_same (run_calls _ _) (run_nextCall _ _) (run_slot _ _) (run_executed _ _) (congrArg PollAt.task (run_poll _ _))
  | connect promoted hcreated hin => exact h.of_same rfl rfl rfl rfl rfl
  | receive hin hsize => exact h.of_same rfl rfl rfl rfl rfl
  | retry hin => exact h.of_same rfl rfl rfl rfl rfl
  | complete ok hflight => exact h.of_same rfl rfl rfl rfl rfl
  | stop => exact h.of_same rfl rfl rfl rfl rfl

/-- **In every state of a run** until a stop. -/
theorem Reach.invariants {queueCapacity : U32} {forward : ForwardCommand} (hroom : queueCapacity.toNat ≤ 2 ^ 31)
    (h : Reach (new queueCapacity forward) s) : Frames s ∧ Woken s ∧ Commands s := by
  induction h with
  | start => exact ⟨frames_new hroom forward, fun _ hne => absurd rfl hne, commands_new queueCapacity forward⟩
  | step _ _ hstep ih =>
    obtain ⟨hframes, hwoken, hcommands⟩ := ih
    obtain ⟨hframes', hwoken'⟩ := hstep.frames hframes hwoken
    exact ⟨hframes', hwoken', hstep.commands hcommands⟩

end SlirpBridge
end Lish
