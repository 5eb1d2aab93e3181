import Lish.Net.SlirpRuns
/-!
# SlirpExact — what the bridge promises

Exact at every moment of every run, and on the way in every fair one.  Then what it does not promise: the wake-up comes after the
frame, a session that is still being created wakes for nothing, and the places of a very long queue overflow.
-/
namespace Lish
namespace SlirpBridge

variable {s s' : SlirpBridge} {p : Party}

/-- Both queues are what their readers are still to get; the session is awake for the frames that wait; what was executed for a call
was executed once. -/
structure Exact (s : SlirpBridge) : Prop where
  inward : s.inputAccepted = s.delivered ++ s.input.contents
  outward : s.outputAccepted = s.sent ++ s.output.contents
  awake : s.stopped = false → s.output.contents ≠ [] → .drain ∈ s.callbacks ∨ s.sending = true ∨ s.packet = some .outputReady
  once : ∀ call, (s.executions call).length ≤ 1
  own : ∀ call command result, s.calls call = some (.returned command result) → s.executions call = [(call, command, result)]

theorem outcome_length (s : SlirpBridge) (command : ForwardCommand) : (s.outcome command).length ≤ 1 := by
  unfold outcome
  split
  · exact Nat.le_refl 1
  · exact Nat.le_refl 1
  · exact Nat.zero_le 1

theorem Commands.once (h : Commands s) (call : ℕ) : (s.executions call).length ≤ 1 := by
  cases hcall : s.calls call with
  | none =>
    rw [h.early call hcall]
    exact Nat.zero_le 1
  | some state =>
    cases state with
    | waiting command =>
      rw [h.waiting call command hcall]
      exact Nat.zero_le 1
    | placed command =>
      obtain ⟨hcommand, howner⟩ := h.placed call command hcall
      rw [← howner, (h.slot command hcommand).2]
      exact outcome_length s command
    | returned command result =>
      rw [h.returned call command result hcall]
      exact Nat.le_refl 1

/-- **The bridge is exact** in every state of every run until a stop.  In a fair run a created session sends every frame; where the
poll thread keeps coming round, it takes every frame of the guest, and every call returns. -/
theorem bridge_exact {queueCapacity : U32} (hroom : queueCapacity.toNat ≤ 2 ^ 31) (forward : ForwardCommand) :
    (∀ s, Reach (new queueCapacity forward) s → Exact s) ∧
      ∀ σ a, FairRun queueCapacity forward σ a → ∀ t,
        ((σ t).created = true → ∀ (n : ℕ) (frame : EthernetFrame), (σ t).outputAccepted[n]? = some frame →
          ∃ t', t ≤ t' ∧ (σ t').sent[n]? = some frame) ∧
        (Rounds σ →
          (∀ (n : ℕ) (frame : EthernetFrame), (σ t).inputAccepted[n]? = some frame →
            ∃ t', t ≤ t' ∧ (σ t').delivered[n]? = some frame) ∧
          ∀ call state, (σ t).calls call = some state →
            ∃ t' result, t ≤ t' ∧ (σ t').calls call = some (.returned state.command result)) := by
  refine ⟨fun s hs => ?_, fun σ a h t => ⟨fun hcreated n frame hf => ?_, fun hrounds => ⟨fun n frame hf => ?_,
    fun call state hc => ?_⟩⟩⟩
  · obtain ⟨hframes, hwoken, hcommands⟩ := hs.invariants hroom
    exact ⟨hframes.inward, hframes.outward, hwoken, hcommands.once, hcommands.returned⟩
  · exact h.sends hroom hcreated hf
  · exact h.delivers hroom hrounds hf
  · exact h.returns hroom hrounds hc

/-! ## A fair run from where all is quiet -/

theorem Reach.trans {s₀ : SlirpBridge} (h : Reach s₀ s) (h' : Reach s s') : Reach s₀ s' := by
  induction h' with
  | start => exact h
  | step _ hs hstep ih => exact .step ih hs hstep

/-- Nothing is on its way, and the poll thread has come round. -/
structure Quiet (s : SlirpBridge) : Prop where
  runs : s.stopped = false
  poll : s.poll = .polling
  packet : s.packet = none
  callbacks : s.callbacks = []
  inFlight : s.inFlight = false
  input : s.input.count = 0
  slot : s.slot.command = none
  calls : ∀ call state, s.calls call = some state → ∃ command result, state = .returned command result

/-- The poll thread goes round and round. -/
def rounding (s : SlirpBridge) (k : ℕ) : SlirpBridge :=
  { s with poll := if k % 3 = 0 then .polling else if k % 3 = 1 then .processInput else .processCommand }

theorem Quiet.rounding_zero (h : Quiet s) : s.rounding 0 = s := by
  unfold rounding
  rw [if_pos (Nat.zero_mod 3), ← h.poll]

theorem Quiet.round (h : Quiet s) (k : ℕ) : (s.rounding k).Step .poll (s.rounding (k + 1)) := by
  have hcases : k % 3 = 0 ∨ k % 3 = 1 ∨ k % 3 = 2 := by omega
  rcases hcases with hk | hk | hk
  · have hnext : (k + 1) % 3 = 1 := by omega
    have hstep := Step.polled (s := s.rounding k) (if_pos hk) h.packet
    have he : s.rounding (k + 1) = { s.rounding k with poll := .processInput } := by
      unfold rounding
      rw [hnext]
      rfl
    rw [he]
    exact hstep
  · have hnext : (k + 1) % 3 = 2 := by omega
    have hstep := Step.noInput (s := s.rounding k) ((if_neg (by omega)).trans (if_pos hk)) (if_pos h.input)
    have he : s.rounding (k + 1) = { s.rounding k with poll := .processCommand } := by
      unfold rounding
      rw [hnext]
      rfl
    rw [he]
    exact hstep
  · have hnext : (k + 1) % 3 = 0 := by omega
    have hstep := Step.noCommand (s := s.rounding k) ((if_neg (by omega)).trans (if_neg (by omega))) (.inl h.slot)
    have he : s.rounding (k + 1) = { s.rounding k with poll := .polling } := by
      unfold rounding
      rw [hnext]
      rfl
    rw [he]
    exact hstep

/-- A run that comes to a state, as a run over time. -/
theorem Reach.path {s₀ : SlirpBridge} (h : Reach s₀ s) :
    ∃ (n : ℕ) (σ : ℕ → SlirpBridge) (a : ℕ → Party), σ 0 = s₀ ∧ σ n = s ∧ ∀ t, t < n → (σ t).stopped = false ∧ (σ t).Step
      (a t) (σ (t + 1)) := by
  induction h with
  | start => exact ⟨0, fun _ => s₀, fun _ => .poll, rfl, rfl, fun t ht => absurd ht (Nat.not_lt_zero t)⟩
  | @step s s' p _ hs hstep ih =>
    obtain ⟨n, σ, a, hstart, hend, hsteps⟩ := ih
    refine ⟨n + 1, fun t => if t ≤ n then σ t else s', fun t => if t < n then a t else p, ?_, ?_, fun t ht => ?_⟩
    · exact (if_pos (Nat.zero_le n)).trans hstart
    · exact if_neg (by omega)
    · dsimp only
      by_cases hlt : t < n
      · rw [if_pos (show t ≤ n by omega), if_pos hlt, if_pos (show t + 1 ≤ n by omega)]
        exact hsteps t hlt
      · rw [if_pos (show t ≤ n by omega), if_neg hlt, if_neg (show ¬t + 1 ≤ n by omega), show t = n by omega, hend]
        exact ⟨hs, hstep⟩

/-- Only the wake-up ends the poll thread's call. -/
theorem Step.told (hs : s.Step p s') (h : s.packet = some .outputReady) (h' : s'.packet ≠ some .outputReady) :
    p = .outputReady := by
  cases hs with
  | outputReady _ => rfl
  | sendPacket _ hn _ | pushOutput hn _ =>
    rw [h] at hn
    cases hn
  | create _ _ =>
    refine absurd ?_ h'
    split <;> exact h
  | run _ _ =>
    rw [run_packet] at h'
    exact absurd h h'
  | _ => exact absurd h h'

theorem run_inFlight {callback : QueueCallback} (h : s.inFlight = true) : (s.run callback).inFlight = true := by
  have hsend {s : SlirpBridge} (h : s.inFlight = true) : s.sendNextFrame.inFlight = true := by
    unfold sendNextFrame
    split
    · exact h
    · split
      · exact h
      · split
        · exact h
        · rfl
  cases callback with
  | drain => exact hsend h
  | sent ok =>
    cases ok with
    | true => exact hsend (s := { s with sending := false }) h
    | false => exact h
  | accept =>
    unfold run acceptOrRetry
    dsimp only
    split
    · split <;> exact h
    · exact h
  | processed ok => exact h
  | ready promoted => cases promoted <;> exact h
  | stop => exact h

/-- Only the connection ends a send. -/
theorem Step.ended (hs : s.Step p s') (h : s.inFlight = true) (h' : s'.inFlight = false) : p = .send := by
  cases hs with
  | complete _ _ => rfl
  | create _ _ =>
    split at h' <;> cases h.symm.trans h'
  | @run callback rest _ _ => cases (run_inFlight (s := { s with callbacks := rest }) h).symm.trans h'
  | _ => cases h.symm.trans h'

/-- Only the session empties its queue. -/
theorem Step.emptied (hs : s.Step p s') (h : s.callbacks ≠ []) (h' : s'.callbacks = []) : p = .queue := by
  by_contra hp
  obtain ⟨more, hmore⟩ := hs.callbacks fun hq => hp hq.1
  rw [hmore] at h'
  exact h (List.append_eq_nil_iff.1 h').1

/-- What holds now and will not hold in the end, ends in some step. -/
theorem last_step {P : ℕ → Prop} {t n : ℕ} (h : P t) (hend : ∀ u, n ≤ u → ¬P u) : ∃ u, t ≤ u ∧ P u ∧ ¬P (u + 1) := by
  obtain ⟨k, hk, hk'⟩ := Nat.exists_not_and_succ_of_not_zero_of_exists (p := fun k => ¬P (t + k)) (fun hn => hn h)
    ⟨n, hend (t + n) (Nat.le_add_left n t)⟩
  exact ⟨t + k, Nat.le_add_right t k, not_not.1 hk, hk'⟩

/-- A run up to a time, and the poll thread's rounds from then on. -/
def resting (n : ℕ) (σ : ℕ → SlirpBridge) (s : SlirpBridge) (t : ℕ) : SlirpBridge := if t < n then σ t else s.rounding (t - n)

def restingParty (n : ℕ) (a : ℕ → Party) (t : ℕ) : Party := if t < n then a t else .poll

/-- **A run that comes to rest** goes on as a fair one. -/
theorem Reach.fair {queueCapacity : U32} {forward : ForwardCommand} (h : Reach (new queueCapacity forward) s) (hq : Quiet s) :
    ∃ σ a n, FairRun queueCapacity forward σ a ∧ Rounds σ ∧ σ n = s := by
  obtain ⟨n, σ, a, hstart, hend, hsteps⟩ := h.path
  have hhigh (t : ℕ) (ht : n ≤ t) : resting n σ s t = s.rounding (t - n) := if_neg (Nat.not_lt.2 ht)
  have hlow (t : ℕ) (ht : t ≤ n) : resting n σ s t = σ t := by
    by_cases hlt : t < n
    · exact if_pos hlt
    · rw [show t = n by omega, hhigh n (Nat.le_refl n), Nat.sub_self, hq.rounding_zero, hend]
  have hstep (t : ℕ) : (resting n σ s t).Step (restingParty n a t) (resting n σ s (t + 1)) := by
    unfold restingParty
    by_cases ht : t < n
    · rw [if_pos ht, hlow t ht.le, hlow (t + 1) ht]
      exact (hsteps t ht).2
    · rw [if_neg ht, hhigh t (Nat.not_lt.1 ht), hhigh (t + 1) (by omega), show t + 1 - n = t - n + 1 by omega]
      exact hq.round (t - n)
  refine ⟨resting n σ s, restingParty n a, n, ⟨?_, fun t => ?_, hstep, fun t hready => ?_, fun t _ hne => ?_, fun t hin => ?_,
    fun call hcall => ?_⟩, fun t => ?_, ?_⟩
  · rw [hlow 0 (Nat.zero_le n), hstart]
  · by_cases ht : t < n
    · rw [hlow t ht.le]
      exact (hsteps t ht).1
    · rw [hhigh t (Nat.not_lt.1 ht)]
      exact hq.runs
  · obtain ⟨u, hu, hnow, hthen⟩ := last_step (P := fun t => (resting n σ s t).packet = some .outputReady) hready fun u hu hp => by
      rw [hhigh u hu, show (s.rounding (u - n)).packet = none from hq.packet] at hp
      cases hp
    exact ⟨u, hu, (hstep u).told hnow hthen⟩
  · obtain ⟨u, hu, hnow, hthen⟩ := last_step (P := fun t => (resting n σ s t).callbacks ≠ []) hne fun u hu hp => hp (by
      rw [hhigh u hu]
      exact hq.callbacks)
    exact ⟨u, hu, (hstep u).emptied hnow (not_not.1 hthen)⟩
  · obtain ⟨u, hu, hnow, hthen⟩ := last_step (P := fun t => (resting n σ s t).inFlight = true) hin fun u hu hp => by
      rw [hhigh u hu, show (s.rounding (u - n)).inFlight = false from hq.inFlight] at hp
      cases hp
    exact ⟨u, hu, (hstep u).ended hnow (Bool.not_eq_true _ ▸ hthen)⟩
  · -- in the end no caller has a step to take
    obtain ⟨u, hu, henabled⟩ := hcall n
    rw [hhigh u hu] at henabled
    rcases henabled with ⟨command, hwaiting, -⟩ | ⟨command, hplaced, -⟩
    · obtain ⟨c, r, he⟩ := hq.calls call _ hwaiting
      cases he
    · obtain ⟨c, r, he⟩ := hq.calls call _ hplaced
      cases he
  · refine ⟨n + (3 * t + 2), by omega, ?_, ?_⟩
    · rw [hhigh _ (by omega), show n + (3 * t + 2) - n = 3 * t + 2 by omega]
      exact (if_neg (by omega)).trans (if_neg (by omega))
    · rw [hhigh _ (by omega), show n + (3 * t + 2) + 1 - n = 3 * t + 3 by omega]
      show (if (3 * t + 3) % 3 = 0 then PollAt.polling else _) ≠ _
      rw [if_pos (by omega)]
      intro he
      cases he
  · rw [hlow n (Nat.le_refl n), hend]

/-- A session that is up, with nothing sent or received yet. -/
structure Session (queueCapacity : U32) (forward : ForwardCommand) (s : SlirpBridge) : Prop where
  runs : s.stopped = false
  created : s.created = true
  poll : s.poll = .polling
  packet : s.packet = none
  callbacks : s.callbacks = []
  sending : s.sending = false
  inFlight : s.inFlight = false
  inbound : s.inbound = .receiving
  slot : s.slot.command = none
  calls : ∀ call state, s.calls call = some state → ∃ command result, state = .returned command result
  input : s.input = .empty [] (frameCapacity queueCapacity)
  output : s.output = .empty [] (frameCapacity queueCapacity)
  delivered : s.delivered = []
  outputAccepted : s.outputAccepted = []
  sent : s.sent = []
  own : s.calls 0 = some (.returned forward 0)

theorem reach_session (queueCapacity : U32) (forward : ForwardCommand) :
    ∃ s, Reach (new queueCapacity forward) s ∧ Session queueCapacity forward s := by
  have hplace := Reach.step .start rfl (@Step.place (new queueCapacity forward) 0 forward rfl rfl)
  have hinput := hplace.step rfl (.noInput rfl rfl)
  have htake := hinput.step rfl (.takeCommand rfl rfl rfl)
  have hexecute := htake.step rfl (.execute 0 rfl rfl)
  have hpublish := hexecute.step rfl (.publish rfl)
  have hresult := hpublish.step rfl (@Step.takeResult _ 0 forward rfl rfl)
  have hcreate := hresult.step rfl (@Step.create _ forward 0 rfl rfl)
  have hconnect := hcreate.step rfl (.connect true rfl rfl)
  have hready := hconnect.step rfl (.run rfl rfl)
  refine ⟨_, hready, ⟨rfl, rfl, rfl, rfl, rfl, rfl, rfl, rfl, rfl, fun call state hc => ?_, rfl, rfl, rfl, rfl, rfl, rfl⟩⟩
  by_cases h0 : call = 0
  · rw [h0] at hc
    cases hc
    exact ⟨_, _, rfl⟩
  · have hnone : (new queueCapacity forward).calls call = none := if_neg h0
    have := ((if_neg h0).trans ((if_neg h0).trans hnone)).symm.trans hc
    cases this


/-- In a queue for one frame, one goes each way, and the bridge comes to rest. -/
theorem reach_rest (forward : ForwardCommand) : ∃ s, Reach (new 1#32 forward) s ∧ Quiet s ∧ s.created = true ∧
    s.outputAccepted = [[7#8]] ∧ s.sent = [[7#8]] ∧ s.delivered = [[9#8]] ∧ s.calls 0 = some (.returned forward 0) := by
  obtain ⟨s, hreach, h⟩ := reach_session 1#32 forward
  have hcalls := h.calls
  obtain ⟨input, output, slot, calls, nextCall, poll, packet, callbacks, created, inbound, sending, inFlight, stopped,
    inputAccepted,
    delivered, outputAccepted, sent, executed⟩ := s
  obtain ⟨hstop, hcreated, hpoll, hpacket, hcallbacks, hsending, hflight, hinbound, hslot, -, hinput, houtput, hdelivered,
    haccepted,
    hsent, hown⟩ := h
  dsimp only at *
  subst hstop hcreated hpoll hpacket hcallbacks hsending hflight hinbound hinput houtput hdelivered haccepted hsent
  have hsend := hreach.step rfl (.sendPacket rfl rfl (show 0 < [7#8].length ∧ [7#8].length ≤ LISH_MAX_FRAME_SIZE by decide))
  have hqueue := hsend.step rfl (.pushOutput rfl rfl)
  have hwake := hqueue.step rfl (.outputReady rfl)
  have hdrain := hwake.step rfl (.run rfl rfl)
  have hcomplete := hdrain.step rfl (.complete true rfl)
  have hprocessed := hcomplete.step rfl (.run rfl rfl)
  have hsent := hprocessed.step rfl (.run rfl rfl)
  have hreceive := hsent.step rfl (.receive rfl (show 0 < [9#8].length ∧ [9#8].length ≤ LISH_MAX_FRAME_SIZE by decide))
  have haccept := hreceive.step rfl (.run rfl rfl)
  have hpolled := haccept.step rfl (.polled rfl rfl)
  have htake := hpolled.step rfl (.takeInput rfl rfl)
  have hslirp := htake.step rfl (.slirpInput rfl rfl)
  have hinput := hslirp.step rfl (.noInput rfl rfl)
  have hcommand := hinput.step rfl (.noCommand rfl (.inl hslot))
  exact ⟨_, hcommand, ⟨rfl, rfl, rfl, rfl, rfl, rfl, hslot, hcalls⟩, rfl, rfl, rfl, rfl, hown⟩

/-- The forward of a session whose proxy listens at `/p`; the address is `10.0.2.4` in the network's order. -/
def proxyForward : ForwardCommand := .addUnixForward [47#8, 112#8] 0x0402000A#32 3128#16

/-- One frame each way through queues for one frame, and a fair run that does it. -/
theorem bridge_exact_sample : ∃ s, Reach (new 1#32 proxyForward) s ∧ s.delivered = [[9#8]] ∧ Exact s ∧
    ∃ σ a n, FairRun 1#32 proxyForward σ a ∧ Rounds σ ∧ σ n = s ∧
      (∃ t', n ≤ t' ∧ (σ t').sent[0]? = some [7#8]) ∧
      ∃ t' result, n ≤ t' ∧ (σ t').calls 0 = some (.returned proxyForward result) := by
  obtain ⟨s, hreach, hquiet, hcreated, haccepted, -, hdelivered, hcall⟩ := reach_rest proxyForward
  obtain ⟨hexact, hfair⟩ := bridge_exact (show (1#32 : U32).toNat ≤ 2 ^ 31 by decide) proxyForward
  obtain ⟨σ, a, n, hrun, hrounds, hn⟩ := hreach.fair hquiet
  obtain ⟨hsends, hround⟩ := hfair σ a hrun n
  rw [hn] at hsends hround
  refine ⟨s, hreach, hdelivered, hexact s hreach, σ, a, n, hrun, hrounds, hn, hsends hcreated 0 [7#8] ?_,
    (hround hrounds).2 0 _ hcall⟩
  rw [haccepted]
  rfl

/-! ## What the bridge does not promise -/

/-- A session still waits for its own forward, and the poll thread for room in the queue that the session is to empty. -/
structure Blocked (s : SlirpBridge) : Prop where
  created : s.created = false
  poll : s.poll = .polling
  packet : ∃ frame, s.packet = some (.waiting frame)
  full : s.output.count = s.output.capacity
  slot : s.slot.command ≠ none
  undone : s.slot.complete = false
  began : 0 < s.nextCall
  placed : ∃ command, s.calls 0 = some (.placed command)
  inbound : s.inbound = .connecting
  inFlight : s.inFlight = false
  sent : s.sent = []
  executed : s.executed = []

/-- **It waits for ever.** -/
theorem Step.blocked (hs : s.Step p s') (h : Blocked s) : Blocked s' := by
  obtain ⟨hcreated, hpoll, ⟨frame, hpacket⟩, hfull, hslot, hundone, hbegan, ⟨own, hplaced⟩, hinbound, hflight, hsent, hexecuted⟩
    := id h
  cases hs with
  | takeInput hp _ | noInput hp _ | slirpInput hp _ | takeCommand hp _ _ | noCommand hp _ | execute _ hp _ | publish hp =>
    rw [hpoll] at hp
    cases hp
  | polled _ hn | sendPacket _ hn _ | outputReady hn =>
    rw [hpacket] at hn
    cases hn
  | pushOutput _ hpush =>
    rw [show push s.output _ = none from if_pos hfull] at hpush
    cases hpush
  | @call command =>
    refine ⟨hcreated, hpoll, ⟨frame, hpacket⟩, hfull, hslot, hundone, Nat.succ_pos _, ⟨own, ?_⟩, hinbound, hflight, hsent,
      hexecuted⟩
    exact (setCall_of_ne s hbegan.ne _).trans hplaced
  | place _ hn => exact absurd hn hslot
  | takeResult _ hd =>
    rw [hundone] at hd
    cases hd
  | create _ hc =>
    rw [hplaced] at hc
    cases hc
  | run hc _ | connect _ hc _ =>
    rw [hcreated] at hc
    cases hc
  | receive hn _ | retry hn =>
    rw [hinbound] at hn
    cases hn
  | complete _ hn =>
    rw [hflight] at hn
    cases hn
  | stop => exact ⟨hcreated, hpoll, ⟨frame, hpacket⟩, hfull, hslot, hundone, hbegan, ⟨own, hplaced⟩, hinbound, hflight, hsent,
      hexecuted⟩

theorem Reach.blocked (hs : Reach s s') (h : Blocked s) : Blocked s' := by
  induction hs with
  | start => exact h
  | step _ _ hstep ih => exact hstep.blocked ih

/-- A session that is up and waits for a frame of the guest, while the poll thread looks for one. -/
structure Accepting (s : SlirpBridge) : Prop where
  runs : s.stopped = false
  created : s.created = true
  poll : s.poll = .processInput
  packet : s.packet = none
  callbacks : s.callbacks = []
  inbound : s.inbound = .receiving

theorem Session.accepting {queueCapacity : U32} {forward : ForwardCommand} (h : Session queueCapacity forward s) :
    ∃ s', Reach s s' ∧ Accepting s' ∧ s'.input = .empty [] (frameCapacity queueCapacity) :=
  ⟨_, Reach.step .start h.runs (.polled h.poll h.packet), ⟨h.runs, h.created, rfl, h.packet, h.callbacks, h.inbound⟩, h.input⟩

/-- A frame of the guest comes. -/
theorem Accepting.accept (h : Accepting s) {frame : EthernetFrame} {input : RingQueue EthernetFrame}
    (hsize : 0 < frame.length ∧ frame.length ≤ LISH_MAX_FRAME_SIZE) (hpush : push s.input frame = some input) :
    ∃ s', Reach s s' ∧ Accepting s' ∧ s'.input = input ∧ s'.inputAccepted = s.inputAccepted ++ [frame] := by
  have hreceive := Reach.step .start h.runs (.receive h.inbound hsize)
  have haccept : Reach s (SlirpBridge.run { s with inbound := .arrived frame, callbacks := [] } .accept) :=
    hreceive.step h.runs (.run h.created (by rw [h.callbacks]; rfl))
  have hrun : SlirpBridge.run { s with inbound := .arrived frame, callbacks := [] } .accept =
      { s with input := input, inbound := .receiving, callbacks := [], inputAccepted := s.inputAccepted ++ [frame] } := by
    show SlirpBridge.acceptOrRetry { s with inbound := .arrived frame, callbacks := [] } frame = _
    unfold SlirpBridge.acceptOrRetry
    rw [show push (SlirpBridge.input { s with inbound := .arrived frame, callbacks := [] }) frame = some input from hpush]
  rw [hrun] at haccept
  exact ⟨_, haccept, ⟨h.runs, h.created, h.poll, h.packet, rfl, rfl⟩, rfl, rfl⟩

/-- The poll thread takes a frame. -/
theorem Accepting.take (h : Accepting s) {frame : EthernetFrame} {input : RingQueue EthernetFrame}
    (hpop : pop s.input = some (frame, input)) : ∃ s', Reach s s' ∧ Accepting s' ∧ s'.input = input := by
  have htake := Reach.step .start h.runs (.takeInput h.poll hpop)
  have hslirp := htake.step h.runs (.slirpInput rfl h.packet)
  exact ⟨_, hslirp, ⟨h.runs, h.created, rfl, h.packet, h.callbacks, h.inbound⟩, rfl⟩

/-- A ring with `count` frames from `head` on, none of them, nor any older one, the frame `1`. -/
structure Unmarked (capacity head count : ℕ) (r : RingQueue EthernetFrame) : Prop where
  capacity : r.capacity = capacity
  head : r.head = head
  count : r.count = count
  slots : ∀ i, r.slots i ≠ [1#8]

theorem Unmarked.push {capacity head count : ℕ} {r : RingQueue EthernetFrame} (h : Unmarked capacity head count r) (hroom :
    count < capacity) :
    ∃ r', SlirpBridge.push r [0#8] = some r' ∧ Unmarked capacity head (count + 1) r' := by
  have hfull : ¬r.count = r.capacity := by
    rw [h.count, h.capacity]
    exact hroom.ne
  refine ⟨_, if_neg hfull, h.capacity, h.head, congrArg (· + 1) h.count, fun i => ?_⟩
  dsimp only
  by_cases hi : i = (r.head + r.count) % FRAME_INDEX_LIMIT % r.capacity
  · rw [hi, Function.update_self]
    decide
  · rw [Function.update_of_ne hi]
    exact h.slots i

theorem Unmarked.pop {capacity head count : ℕ} {r : RingQueue EthernetFrame} (h : Unmarked capacity head (count + 1) r)
    (hhead : head + 1 < capacity) (hlimit : capacity ≤ FRAME_INDEX_LIMIT) :
    ∃ frame r', SlirpBridge.pop r = some (frame, r') ∧ Unmarked capacity (head + 1) count r' := by
  have hempty : ¬r.count = 0 := by
    rw [h.count]
    exact Nat.succ_ne_zero count
  refine ⟨_, _, if_neg hempty, h.capacity, ?_, ?_, h.slots⟩
  · dsimp only
    rw [h.head, h.capacity, Nat.mod_eq_of_lt (show head + 1 < FRAME_INDEX_LIMIT by omega), Nat.mod_eq_of_lt hhead]
  · dsimp only
    rw [h.count, Nat.add_sub_cancel]

/-- Frame after frame comes and is taken: the head moves on. -/
theorem Accepting.rotate {capacity : ℕ} (h : Accepting s) (hring : Unmarked capacity 0 0 s.input) (hlimit :
    capacity ≤ FRAME_INDEX_LIMIT)
    (n : ℕ) (hn : n < capacity) : ∃ s', Reach s s' ∧ Accepting s' ∧ Unmarked capacity n 0 s'.input := by
  induction n with
  | zero => exact ⟨s, .start, h, hring⟩
  | succ n ih =>
    obtain ⟨s₁, hreach₁, h₁, hring₁⟩ := ih (by omega)
    obtain ⟨input₁, hpush, hpushed⟩ := hring₁.push (by omega)
    obtain ⟨s₂, hreach₂, h₂, hinput₂, -⟩ := h₁.accept (by decide) hpush
    rw [← hinput₂] at hpushed
    obtain ⟨frame, input₂, hpop, hpopped⟩ := hpushed.pop hn hlimit
    obtain ⟨s₃, hreach₃, h₃, hinput₃⟩ := h₂.take hpop
    exact ⟨s₃, (hreach₁.trans hreach₂).trans hreach₃, h₃, by rwa [hinput₃]⟩

/-- Frames come and none is taken. -/
theorem Accepting.fill {capacity head : ℕ} (h : Accepting s) (hring : Unmarked capacity head 0 s.input) (n : ℕ) (hn :
    n ≤ capacity) :
    ∃ s', Reach s s' ∧ Accepting s' ∧ Unmarked capacity head n s'.input := by
  induction n with
  | zero => exact ⟨s, .start, h, hring⟩
  | succ n ih =>
    obtain ⟨s₁, hreach₁, h₁, hring₁⟩ := ih (by omega)
    obtain ⟨input, hpush, hpushed⟩ := hring₁.push (by omega)
    obtain ⟨s₂, hreach₂, h₂, hinput, -⟩ := h₁.accept (by decide) hpush
    exact ⟨s₂, hreach₁.trans hreach₂, h₂, by rwa [hinput]⟩

/-- **In a longer queue** the place for a frame overflows, and the frame comes to stand before others. -/
theorem reach_overflow {queueCapacity : U32} (hlong : 2 ^ 31 < queueCapacity.toNat) (forward : ForwardCommand) :
    ∃ s, Reach (new queueCapacity forward) s ∧ s.inputAccepted ≠ s.delivered ++ s.input.contents := by
  have hlt := queueCapacity.isLt
  have hcapacity : frameCapacity queueCapacity = queueCapacity.toNat := if_neg fun h0 => by
    rw [h0] at hlong
    exact absurd hlong (by decide)
  have hlimit : queueCapacity.toNat ≤ FRAME_INDEX_LIMIT := hlt.le
  obtain ⟨s₁, hreach₁, hsession⟩ := reach_session queueCapacity forward
  obtain ⟨s₂, hreach₂, h₂, hinput₂⟩ := hsession.accepting
  have hring : Unmarked queueCapacity.toNat 0 0 s₂.input := by
    rw [hinput₂]
    exact ⟨hcapacity, rfl, rfl, fun _ => show ([] : EthernetFrame) ≠ [1#8] by decide⟩
  obtain ⟨s₃, hreach₃, h₃, hring₃⟩ := h₂.rotate hring hlimit (2 ^ 32 - queueCapacity.toNat + 1) (by omega)
  obtain ⟨s₄, hreach₄, h₄, hring₄⟩ := h₃.fill hring₃ (queueCapacity.toNat - 1) (by omega)
  have hfull : ¬s₄.input.count = s₄.input.capacity := by
    rw [hring₄.count, hring₄.capacity]
    omega
  obtain ⟨s₅, hreach₅, -, hinput₅, haccepted⟩ := h₄.accept (show 0 < [1#8].length ∧
    [1#8].length ≤ LISH_MAX_FRAME_SIZE by decide) (if_neg hfull)
  refine ⟨s₅, (((hreach₁.trans hreach₂).trans hreach₃).trans hreach₄).trans hreach₅, fun he => ?_⟩
  rw [haccepted, hinput₅] at he
  unfold RingQueue.contents at he
  dsimp only at he
  rw [List.range_succ, List.map_append, List.map_singleton, ← List.append_assoc] at he
  have hlast := congrArg List.getLast? he
  rw [List.getLast?_concat, List.getLast?_concat, hring₄.head, hring₄.count, hring₄.capacity] at hlast
  have hplace : (2 ^ 32 - queueCapacity.toNat + 1 + (queueCapacity.toNat - 1)) = 2 ^ 32 := by omega
  rw [hplace] at hlast
  have hwrapped : 2 ^ 32 % FRAME_INDEX_LIMIT % queueCapacity.toNat = 0 := by
    rw [show FRAME_INDEX_LIMIT = 2 ^ 32 from rfl, Nat.mod_self, Nat.zero_mod]
  have hmod : 2 ^ 32 % queueCapacity.toNat = 2 ^ 32 - queueCapacity.toNat := by
    rw [Nat.mod_eq_sub_mod (by omega), Nat.mod_eq_of_lt (by omega)]
  rw [hwrapped, hmod, Function.update_of_ne (by omega)] at hlast
  exact hring₄.slots _ (Option.some.inj hlast).symm

/-- **The bridge is not exact**: the wake-up comes after the frame; a session may wait for its own creation for ever, and its frames
and its command with it; a long queue mixes its frames up. -/
theorem bridge_not_exact :
    (∃ s, Reach (new 1#32 proxyForward) s ∧ s.stopped = false ∧ s.output.contents ≠ [] ∧
      .drain ∉ s.callbacks ∧ s.sending = false) ∧
    (∃ s, Reach (new 1#32 proxyForward) s ∧ s.stopped = false ∧ s.outputAccepted ≠ [] ∧
      s.slot.command = some proxyForward ∧ ∀ s', Reach s s' → s'.sent = [] ∧ s'.executed = []) ∧
    ∃ s, Reach (new 3000000000#32 proxyForward) s ∧ s.inputAccepted ≠ s.delivered ++ s.input.contents := by
  have hstart : Reach (new 1#32 proxyForward) _ := .start
  have hinput := hstart.step rfl (.noInput rfl rfl)
  have hcommand := hinput.step rfl (.noCommand rfl (.inl rfl))
  have hsend := hcommand.step rfl (.sendPacket rfl rfl (show 0 < [7#8].length ∧ [7#8].length ≤ LISH_MAX_FRAME_SIZE by decide))
  have hqueue := hsend.step rfl (.pushOutput rfl rfl)
  have hwake := hqueue.step rfl (.outputReady rfl)
  have hagain := hwake.step rfl (.sendPacket rfl rfl (show 0 < [8#8].length ∧ [8#8].length ≤ LISH_MAX_FRAME_SIZE by decide))
  have hplace := hagain.step rfl (@Step.place _ 0 proxyForward rfl rfl)
  refine ⟨⟨_, hqueue, rfl, fun hnil => ?_, fun hmem => ?_, rfl⟩, ⟨_, hplace, rfl, fun hnil => ?_, rfl, fun s' hs' => ?_⟩, ?_⟩
  · exact absurd (RingQueue.contents_eq_nil.1 hnil) Nat.one_ne_zero
  · cases hmem
  · cases hnil
  · have hblocked := hs'.blocked ⟨rfl, rfl, ⟨_, rfl⟩, rfl, (fun he => by cases he), rfl, Nat.one_pos, ⟨_, rfl⟩, rfl, rfl, rfl, rfl⟩
    exact ⟨hblocked.sent, hblocked.executed⟩
  · exact reach_overflow (by decide) _

end SlirpBridge
end Lish
