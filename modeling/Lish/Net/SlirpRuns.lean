import Lish.Net.SlirpCommands
import Mathlib.Data.Nat.Order.Lemmas
/-!
# SlirpRuns — runs in which every party goes on

No frame that a queue takes waits forever, and no caller; the wake-up comes outside the lock,
  and from the session's creation on it is
never lost.
-/
namespace Lish
namespace SlirpBridge

variable {s s' : SlirpBridge} {p : Party}

/-! ## What a step leaves -/

/-- What a run has behind it, it keeps. -/
structure Grows (s s' : SlirpBridge) : Prop where
  inputAccepted : s.inputAccepted <+: s'.inputAccepted
  outputAccepted : s.outputAccepted <+: s'.outputAccepted
  sent : s.sent <+: s'.sent
  created : s.created = true → s'.created = true

theorem Grows.refl (s : SlirpBridge) : Grows s s := ⟨List.prefix_rfl, List.prefix_rfl, List.prefix_rfl, id⟩

theorem Grows.trans {s'' : SlirpBridge} (h : Grows s s') (h' : Grows s' s'') : Grows s s'' :=
  ⟨h.inputAccepted.trans h'.inputAccepted, h.outputAccepted.trans h'.outputAccepted, h.sent.trans h'.sent, h'.created ∘ h.created⟩

theorem sendNextFrame_grows (s : SlirpBridge) : Grows s s.sendNextFrame := by
  unfold sendNextFrame
  split
  · exact Grows.refl s
  · split
    · exact Grows.refl s
    · split
      · exact ⟨List.prefix_rfl, List.prefix_rfl, List.prefix_rfl, id⟩
      · exact ⟨List.prefix_rfl, List.prefix_rfl, List.prefix_append _ _, id⟩

theorem run_grows (s : SlirpBridge) (callback : QueueCallback) : Grows s (s.run callback) := by
  cases callback with
  | drain => exact s.sendNextFrame_grows
  | sent ok =>
    cases ok with
    | true =>
      obtain ⟨hinput, houtput, hsent, hcreated⟩ := sendNextFrame_grows { s with sending := false }
      exact ⟨hinput, houtput, hsent, hcreated⟩
    | false => exact ⟨List.prefix_rfl, List.prefix_rfl, List.prefix_rfl, id⟩
  | accept =>
    unfold run acceptOrRetry
    dsimp only
    split
    · split
      · exact ⟨List.prefix_append _ _, List.prefix_rfl, List.prefix_rfl, id⟩
      · exact ⟨List.prefix_rfl, List.prefix_rfl, List.prefix_rfl, id⟩
    · exact Grows.refl s
  | processed ok => exact ⟨List.prefix_rfl, List.prefix_rfl, List.prefix_rfl, id⟩
  | ready promoted => cases promoted <;> exact ⟨List.prefix_rfl, List.prefix_rfl, List.prefix_rfl, id⟩
  | stop => exact ⟨List.prefix_rfl, List.prefix_rfl, List.prefix_rfl, id⟩

theorem Step.grows (hs : s.Step p s') : Grows s s' := by
  cases hs with
  | pushOutput hpacket hpush => exact ⟨List.prefix_rfl, List.prefix_append _ _, List.prefix_rfl, id⟩
  | create hcreated hcall =>
    split
    · exact ⟨List.prefix_rfl, List.prefix_rfl, List.prefix_rfl, fun _ => rfl⟩
    · exact ⟨List.prefix_rfl, List.prefix_rfl, List.prefix_rfl, id⟩
  | @run callback rest hcreated hc =>
    obtain ⟨hinput, houtput, hsent, hcreated'⟩ := run_grows { s with callbacks := rest } callback
    exact ⟨hinput, houtput, hsent, hcreated'⟩
  | _ => exact ⟨List.prefix_rfl, List.prefix_rfl, List.prefix_rfl, id⟩

/-- A callback may put another at the end. -/
theorem run_callbacks (s : SlirpBridge) (callback : QueueCallback) : ∃ more, (s.run callback).callbacks = s.callbacks ++ more := by
  have hsend (s : SlirpBridge) : s.sendNextFrame.callbacks = s.callbacks := by
    unfold sendNextFrame
    split
    · rfl
    · split
      · rfl
      · split <;> rfl
  cases callback with
  | drain => exact ⟨[], (hsend s).trans (List.append_nil _).symm⟩
  | sent ok =>
    cases ok with
    | true => exact ⟨[], (hsend { s with sending := false }).trans (List.append_nil _).symm⟩
    | false => exact ⟨[], (List.append_nil _).symm⟩
  | accept =>
    refine ⟨[], Eq.trans ?_ (List.append_nil _).symm⟩
    unfold run acceptOrRetry
    dsimp only
    split
    · split <;> rfl
    · rfl
  | processed ok => exact ⟨[.sent ok], rfl⟩
  | ready promoted =>
    refine ⟨[], Eq.trans ?_ (List.append_nil _).symm⟩
    cases promoted <;> rfl
  | stop => exact ⟨[], (List.append_nil _).symm⟩

/-- The queue of the session runs its first callback. -/
theorem Step.of_queue (hs : s.Step p s') (hp : p = .queue) (hcreated : s.created = true) :
    ∃ callback rest, s.callbacks = callback :: rest ∧ s' = { s with callbacks := rest }.run callback := by
  cases hs with
  | create hc _ =>
    rw [hcreated] at hc
    cases hc
  | run _ hc => exact ⟨_, _, hc, rfl⟩
  | _ => cases hp

/-- Others put callbacks at its end. -/
theorem Step.callbacks (hs : s.Step p s') (hq : ¬(p = .queue ∧ s.created = true)) : ∃ more, s'.callbacks = s.callbacks ++ more := by
  cases hs with
  | outputReady _ | connect _ _ _ | receive _ _ | retry _ | complete _ _ | stop => exact ⟨[_], rfl⟩
  | run hcreated _ => exact absurd ⟨rfl, hcreated⟩ hq
  | create _ _ =>
    refine ⟨[], Eq.trans ?_ (List.append_nil _).symm⟩
    split <;> rfl
  | _ => exact ⟨[], (List.append_nil _).symm⟩

/-- The poll thread, out of the lock, has the session told. -/
theorem Step.of_outputReady (hs : s.Step p s') (hp : p = .outputReady) : .drain ∈ s'.callbacks := by
  cases hs with
  | outputReady _ => exact List.mem_append_right _ (List.mem_singleton_self _)
  | _ => cases hp

theorem Step.of_send (hs : s.Step p s') (hp : p = .send) : ∃ ok, .processed ok ∈ s'.callbacks := by
  cases hs with
  | complete ok _ => exact ⟨ok, List.mem_append_right _ (List.mem_singleton_self _)⟩
  | _ => cases hp

/-- A frame goes to the connection that is free. -/
theorem Frames.sends (h : Frames s) (hstop : s.stopped = false) (hfree : s.sending = false) (hne : s.output.contents ≠ []) :
    ∃ frame, s.sendNextFrame.sent = s.sent ++ [frame] := by
  unfold SlirpBridge.sendNextFrame
  rw [hstop, hfree, Bool.or_self, if_neg Bool.false_ne_true]
  obtain ⟨frame, output, hpop⟩ : ∃ frame output, RingQueue.pop FRAME_INDEX_LIMIT s.output = some (frame, output) :=
    RingQueue.pop_isSome hne
  have hsize : frame.length ≤ LISH_MAX_FRAME_SIZE :=
    h.sizes frame (by rw [(RingQueue.pop_some h.output hpop).2]; exact List.mem_cons_self)
  rw [show SlirpBridge.pop s.output = some (frame, output) from hpop]
  dsimp only
  rw [if_neg (Nat.not_lt.2 hsize)]
  exact ⟨frame, rfl⟩

/-! ## Runs in which every party goes on -/

/-- A caller has a step to take: its command into the empty slot, or its result out of it. -/
def CallerEnabled (s : SlirpBridge) (call : ℕ) : Prop :=
  (∃ command, s.calls call = some (.waiting command) ∧ s.slot.command = none) ∨
    ∃ command, s.calls call = some (.placed command) ∧ s.slot.complete = true

/-- A run without a stop.  The wake-up comes, the queue goes on once the session is created, every send ends,
  and a caller that may go
on again and again does. -/
structure FairRun (queueCapacity : U32) (forward : ForwardCommand) (σ : ℕ → SlirpBridge) (a : ℕ → Party) : Prop where
  start : σ 0 = new queueCapacity forward
  runs : ∀ t, (σ t).stopped = false
  step : ∀ t, (σ t).Step (a t) (σ (t + 1))
  outputReady : ∀ t, (σ t).packet = some .outputReady → ∃ t', t ≤ t' ∧ a t' = .outputReady
  queue : ∀ t, (σ t).created = true → (σ t).callbacks ≠ [] → ∃ t', t ≤ t' ∧ a t' = .queue
  send : ∀ t, (σ t).inFlight = true → ∃ t', t ≤ t' ∧ a t' = .send
  caller : ∀ call, (∀ t, ∃ t', t ≤ t' ∧ (σ t').CallerEnabled call) → ∀ t, ∃ t', t ≤ t' ∧ a t' = .caller call

/-- The poll thread comes round to its commands again and again. -/
def Rounds (σ : ℕ → SlirpBridge) : Prop := ∀ t, ∃ t', t ≤ t' ∧ (σ t').poll = .processCommand ∧ (σ (t' + 1)).poll ≠ .processCommand

section Fair

variable {queueCapacity : U32} {forward : ForwardCommand} {σ : ℕ → SlirpBridge} {a : ℕ → Party}

theorem FairRun.reach (h : FairRun queueCapacity forward σ a) (t : ℕ) : Reach (new queueCapacity forward) (σ t) := by
  induction t with
  | zero =>
    rw [h.start]
    exact .start
  | succ t ih => exact .step ih (h.runs t) (h.step t)

theorem FairRun.grows (h : FairRun queueCapacity forward σ a) {t t' : ℕ} (hle : t ≤ t') : Grows (σ t) (σ t') := by
  induction t', hle using Nat.le_induction with
  | base => exact Grows.refl _
  | succ t' _ ih => exact ih.trans (h.step t').grows

/-- The queue of the session is served from its creation on. -/
theorem FairRun.served (h : FairRun queueCapacity forward σ a) {t : ℕ} (hcreated : (σ t).created = true) :
    FairQueue.Served (fun k => (σ (t + k)).callbacks) fun k => a (t + k) = .queue where
  took k hk := by
    obtain ⟨callback, rest, hc, hnext⟩ := (h.step (t + k)).of_queue hk ((h.grows (Nat.le_add_right t k)).created hcreated)
    obtain ⟨more, hmore⟩ := run_callbacks { σ (t + k) with callbacks := rest } callback
    refine ⟨more, ?_⟩
    rw [hc, show t + (k + 1) = t + k + 1 from rfl, hnext, hmore]
    rfl
  grew k hk := (h.step (t + k)).callbacks fun hq => hk hq.1
  fair k hne := by
    obtain ⟨t', hle, hq⟩ := h.queue (t + k) ((h.grows (Nat.le_add_right t k)).created hcreated) hne
    exact ⟨t' - t, by omega, by rwa [show t + (t' - t) = t' by omega]⟩

/-- Every callback is run. -/
theorem FairRun.runs_callback (h : FairRun queueCapacity forward σ a) {t : ℕ} (hcreated : (σ t).created = true) {callback :
    QueueCallback}
    (hc : callback ∈ (σ t).callbacks) :
    ∃ t' rest, t ≤ t' ∧ (σ t').callbacks = callback :: rest ∧ σ (t' + 1) = { σ t' with callbacks := rest }.run callback := by
  obtain ⟨k, hk⟩ := List.mem_iff_getElem?.1 hc
  obtain ⟨d, -, hq, hhead⟩ := (h.served hcreated).taken (t := 0) hk
  obtain ⟨first, rest, hfirst, hnext⟩ := (h.step (t + d)).of_queue hq ((h.grows (Nat.le_add_right t d)).created hcreated)
  rw [hfirst] at hhead
  cases hhead
  exact ⟨t + d, rest, Nat.le_add_right t d, hfirst, hnext⟩

/-! ## Frames to the guest -/

/-- A run that sends no more, though frames wait. -/
structure Stuck (σ : ℕ → SlirpBridge) (t : ℕ) : Prop where
  created : ∀ t', t ≤ t' → (σ t').created = true
  sent : ∀ t', t ≤ t' → (σ (t' + 1)).sent = (σ t').sent
  waiting : ∀ t', t ≤ t' → (σ t').output.contents ≠ []

variable {t : ℕ}

/-- A send that ends makes room for the next. -/
theorem Stuck.not_sent (hs : Stuck σ t) (hroom : queueCapacity.toNat ≤ 2 ^ 31) (h : FairRun queueCapacity forward σ a) {t' : ℕ}
    (hle : t ≤ t') (ok : Bool) : .sent ok ∉ (σ t').callbacks := by
  intro hmem
  obtain ⟨u, rest, hu, hc, hnext⟩ := h.runs_callback (hs.created t' hle) hmem
  have hsent := hs.sent u (hle.trans hu)
  have hruns := h.runs (u + 1)
  rw [hnext] at hsent hruns
  cases ok with
  | false => cases hruns
  | true =>
    obtain ⟨hframes, -, -⟩ := (h.reach u).invariants hroom
    have hflight := hframes.flight
    rw [hc, List.countP_cons, show QueueCallback.isCompletion (.sent true) = true from rfl, if_pos rfl] at hflight
    have hone := Bool.toNat_le (σ u).sending
    have hfree : Frames { σ u with callbacks := rest, sending := false } :=
      ⟨hframes.input, hframes.output, hframes.inward, hframes.outward, hframes.sizes, hframes.packet, by
        show (σ u).inFlight.toNat + rest.countP QueueCallback.isCompletion = 0
        omega⟩
    obtain ⟨frame, hframe⟩ := hfree.sends (h.runs u) rfl (hs.waiting u (hle.trans hu))
    exact List.cons_ne_nil frame [] (List.append_right_eq_self.1 (hframe.symm.trans hsent))

theorem Stuck.not_processed (hs : Stuck σ t) (hroom : queueCapacity.toNat ≤ 2 ^ 31) (h : FairRun queueCapacity forward σ a) {t' : ℕ}
    (hle : t ≤ t') (ok : Bool) : .processed ok ∉ (σ t').callbacks := by
  intro hmem
  obtain ⟨u, rest, hu, hc, hnext⟩ := h.runs_callback (hs.created t' hle) hmem
  have hle' : t ≤ u + 1 := by omega
  refine hs.not_sent hroom h hle' ok ?_
  rw [hnext]
  exact List.mem_append_right rest (List.mem_singleton_self _)

theorem Stuck.not_sending (hs : Stuck σ t) (hroom : queueCapacity.toNat ≤ 2 ^ 31) (h : FairRun queueCapacity forward σ a) {t' : ℕ}
    (hle : t ≤ t') : (σ t').sending = false := by
  by_contra hsending
  rw [Bool.not_eq_false] at hsending
  have hflight := ((h.reach t').invariants hroom).1.flight
  rw [hsending] at hflight
  cases hin : (σ t').inFlight with
  | true =>
    obtain ⟨u, hu, ha⟩ := h.send t' hin
    obtain ⟨ok, hmem⟩ := (h.step u).of_send ha
    exact hs.not_processed hroom h (by omega) ok hmem
  | false =>
    -- the connection has given its answer, and a callback carries it
    rw [hin, Bool.toNat_false, Nat.zero_add] at hflight
    obtain ⟨callback, hmem, hcompletion⟩ := List.countP_pos_iff.1 (Nat.lt_of_lt_of_eq Nat.one_pos hflight.symm)
    cases callback with
    | processed ok => exact hs.not_processed hroom h hle ok hmem
    | sent ok => exact hs.not_sent hroom h hle ok hmem
    | _ => cases hcompletion

theorem Stuck.not_drain (hs : Stuck σ t) (hroom : queueCapacity.toNat ≤ 2 ^ 31) (h : FairRun queueCapacity forward σ a) {t' : ℕ}
    (hle : t ≤ t') : .drain ∉ (σ t').callbacks := by
  intro hmem
  obtain ⟨u, rest, hu, hc, hnext⟩ := h.runs_callback (hs.created t' hle) hmem
  have hsent := hs.sent u (hle.trans hu)
  rw [hnext] at hsent
  obtain ⟨hframes, -, -⟩ := (h.reach u).invariants hroom
  have hflight := hframes.flight
  rw [hc, List.countP_cons, show QueueCallback.isCompletion .drain = false from rfl, if_neg Bool.false_ne_true] at hflight
  have hrest : Frames { σ u with callbacks := rest } :=
    ⟨hframes.input, hframes.output, hframes.inward, hframes.outward, hframes.sizes, hframes.packet, hflight⟩
  obtain ⟨frame, hframe⟩ := hrest.sends (h.runs u) (hs.not_sending hroom h (hle.trans hu)) (hs.waiting u (hle.trans hu))
  exact List.cons_ne_nil frame [] (List.append_right_eq_self.1 (hframe.symm.trans hsent))

/-- **No fair run is stuck**: someone is on the way. -/
theorem Stuck.absurd (hs : Stuck σ t) (hroom : queueCapacity.toNat ≤ 2 ^ 31) (h : FairRun queueCapacity forward σ a) : False := by
  obtain ⟨-, hwoken, -⟩ := (h.reach t).invariants hroom
  rcases hwoken (h.runs t) (hs.waiting t (Nat.le_refl t)) with hdrain | hsending | hready
  · exact hs.not_drain hroom h (Nat.le_refl t) hdrain
  · rw [hs.not_sending hroom h (Nat.le_refl t)] at hsending
    cases hsending
  · obtain ⟨u, hu, ha⟩ := h.outputReady t hready
    exact hs.not_drain hroom h (by omega) ((h.step u).of_outputReady ha)

/-- Where a frame waits, one is sent. -/
theorem FairRun.sends_next (h : FairRun queueCapacity forward σ a) (hroom : queueCapacity.toNat ≤ 2 ^ 31)
    (hcreated : (σ t).created = true) (hne : (σ t).output.contents ≠ []) :
    ∃ t', t ≤ t' ∧ (σ t).sent.length < (σ t').sent.length := by
  by_contra hno
  have hstays (u : ℕ) (hu : t ≤ u) : (σ u).sent = (σ t).sent := by
    refine ((h.grows hu).sent.eq_of_length_le ?_).symm
    by_contra hlt
    exact hno ⟨u, hu, by omega⟩
  refine Stuck.absurd ⟨fun u hu => (h.grows hu).created hcreated, fun u hu => ?_, fun u hu hnil => hne ?_⟩ hroom h
  · rw [hstays u hu, hstays (u + 1) (by omega)]
  · -- what was accepted by now has been sent by then, and nothing was sent since
    have hnow := ((h.reach t).invariants hroom).1.outward
    have hthen := ((h.reach u).invariants hroom).1.outward
    rw [hnil, List.append_nil, hstays u hu] at hthen
    have hlen := (h.grows hu).outputAccepted.length_le
    rw [hthen, hnow, List.length_append] at hlen
    exact List.eq_nil_of_length_eq_zero (by omega)

/-- **Every frame** that the queue of host frames takes is sent, in its place. -/
theorem FairRun.sends (h : FairRun queueCapacity forward σ a) (hroom : queueCapacity.toNat ≤ 2 ^ 31)
    (hcreated : (σ t).created = true) {n : ℕ} {frame : EthernetFrame} (hf : (σ t).outputAccepted[n]? = some frame) :
    ∃ t', t ≤ t' ∧ (σ t').sent[n]? = some frame := by
  have hlong (m : ℕ) (hm : m ≤ (σ t).outputAccepted.length) : ∃ t', t ≤ t' ∧ m ≤ (σ t').sent.length := by
    induction m with
    | zero => exact ⟨t, Nat.le_refl t, Nat.zero_le _⟩
    | succ m ih =>
      obtain ⟨u, hu, hle⟩ := ih (by omega)
      by_cases hmore : m + 1 ≤ (σ u).sent.length
      · exact ⟨u, hu, hmore⟩
      · have hlen := (h.grows hu).outputAccepted.length_le
        have hout := congrArg List.length ((h.reach u).invariants hroom).1.outward
        rw [List.length_append] at hout
        have hne : (σ u).output.contents ≠ [] := fun hnil => by
          rw [hnil, List.length_nil] at hout
          omega
        obtain ⟨u', hu', hlt⟩ := h.sends_next hroom ((h.grows hu).created hcreated) hne
        exact ⟨u', hu.trans hu', by omega⟩
  obtain ⟨hn, -⟩ := List.getElem?_eq_some_iff.1 hf
  obtain ⟨u, hu, hle⟩ := hlong (n + 1) hn
  refine ⟨u, hu, ?_⟩
  obtain ⟨more, hmore⟩ := (h.grows hu).outputAccepted
  rw [((h.reach u).invariants hroom).1.outward] at hmore
  have hlater : ((σ u).sent ++ (σ u).output.contents)[n]? = some frame := by
    rw [← hmore, List.getElem?_append_left hn]
    exact hf
  rwa [List.getElem?_append_left hle] at hlater

/-! ## Frames from the guest -/

/-- The poll thread turns to its commands once no frame is left. -/
theorem Step.enters (hs : s.Step p s') (hpoll : s.poll ≠ .processCommand) (hpoll' : s'.poll = .processCommand) :
    SlirpBridge.pop s.input = none := by
  cases hs with
  | noInput _ h => exact h
  | create _ _ =>
    split at hpoll' <;> exact absurd hpoll' hpoll
  | run _ _ =>
    rw [run_poll] at hpoll'
    exact absurd hpoll' hpoll
  | sendPacket _ _ _ | pushOutput _ _ | outputReady _ | call _ | place _ _ | takeResult _ _ | connect _ _ _ | receive _ _ | retry _
  | complete _ _ | stop => exact absurd hpoll' hpoll
  | _ => cases hpoll'

/-- **Every frame** that the queue of guest frames takes comes to libslirp, in its place. -/
theorem FairRun.delivers (h : FairRun queueCapacity forward σ a) (hroom : queueCapacity.toNat ≤ 2 ^ 31) (hrounds : Rounds σ)
    {n : ℕ} {frame : EthernetFrame} (hf : (σ t).inputAccepted[n]? = some frame) : ∃ t', t ≤ t' ∧
      (σ t').delivered[n]? = some frame := by
  obtain ⟨u, hu, -, hleft⟩ := hrounds t
  obtain ⟨v, hv, hback, -⟩ := hrounds (u + 1)
  -- between the two rounds it turned to its commands anew
  obtain ⟨k, hout, hin⟩ := Nat.exists_not_and_succ_of_not_zero_of_exists (p := fun k => (σ
    (u + 1 + k)).poll = .processCommand) hleft
    ⟨v - (u + 1), by rwa [show u + 1 + (v - (u + 1)) = v by omega]⟩
  have hnone := (h.step (u + 1 + k)).enters hout hin
  have hinward := ((h.reach (u + 1 + k)).invariants hroom).1.inward
  rw [RingQueue.pop_none hnone, List.append_nil] at hinward
  obtain ⟨more, hmore⟩ := (h.grows (show t ≤ u + 1 + k by omega)).inputAccepted
  refine ⟨u + 1 + k, by omega, ?_⟩
  rw [← hinward, ← hmore, List.getElem?_append_left (List.getElem?_eq_some_iff.1 hf).1]
  exact hf

/-! ## Commands -/

/-- A call goes on by its caller alone. -/
theorem Step.keeps_call (hs : s.Step p s') {call : ℕ} {state : ForwardCall} (hcall : s.calls call = some state)
    (hp : p ≠ .caller call) : s'.calls call = some state := by
  cases hs with
  | call command | place _ _ | takeResult _ _ => exact (setCall_of_ne s (fun he => hp (by rw [he])) _).trans hcall
  | create _ _ => split <;> exact hcall
  | run _ _ =>
    rw [run_calls]
    exact hcall
  | _ => exact hcall

/-- What a caller does: its command goes into the slot, or its result is returned. -/
theorem Step.of_caller (hs : s.Step p s') (hc : Commands s) {call : ℕ} {state : ForwardCall} (hcall : s.calls call = some state)
    (hp : p = .caller call) :
    (∃ command, state = .waiting command ∧ s'.calls call = some (.placed command)) ∨
      ∃ command result, state = .placed command ∧ s'.calls call = some (.returned command result) := by
  cases hs with
  | call command =>
    cases hp
    rw [hc.fresh _ (Nat.le_refl _)] at hcall
    cases hcall
  | place hwaiting _ =>
    cases hp
    cases hcall.symm.trans hwaiting
    exact .inl ⟨_, rfl, setCall_self s call _⟩
  | takeResult hplaced _ =>
    cases hp
    cases hcall.symm.trans hplaced
    exact .inr ⟨_, _, rfl, setCall_self s call _⟩
  | _ => cases hp

/-- A result stays in the slot for the call that owns it. -/
theorem Step.keeps_result (hs : s.Step p s') (hc : Commands s) {call : ℕ} {command : ForwardCommand}
    (hcall : s.calls call = some (.placed command)) (hp : p ≠ .caller call) (hdone : s.slot.complete = true) :
      s'.slot.complete = true := by
  cases hs with
  | publish _ => rfl
  | place _ hfree =>
    rw [hc.free hfree] at hdone
    cases hdone
  | takeResult hplaced _ => exact absurd (by rw [← (hc.placed _ _ hcall).2, (hc.placed _ _ hplaced).2]) hp
  | create _ _ => split <;> exact hdone
  | run _ _ =>
    rw [run_slot]
    exact hdone
  | _ => exact hdone

/-- From its commands the poll thread goes on with one, unless there is none. -/
theorem Step.leaves (hs : s.Step p s') (hpoll : s.poll = .processCommand) (hpoll' : s'.poll ≠ .processCommand) :
    s'.poll.task ≠ none ∨ s.slot.command = none ∨ s.slot.complete = true := by
  cases hs with
  | takeCommand _ _ _ => exact .inl fun he => by cases he
  | noCommand _ h => exact .inr h
  | create _ _ =>
    refine absurd ?_ hpoll'
    split <;> exact hpoll
  | run _ _ =>
    rw [run_poll] at hpoll'
    exact absurd hpoll hpoll'
  | takeInput h _ | noInput h _ | slirpInput h _ | execute _ h _ | publish h | polled h _ =>
    rw [hpoll] at h
    cases h
  | _ => exact absurd hpoll hpoll'

/-- What it has in hand, it ends with a result. -/
theorem Step.keeps_task (hs : s.Step p s') (htask : s.poll.task ≠ none) : s'.poll.task ≠ none ∨ s'.slot.complete = true := by
  cases hs with
  | takeCommand _ _ _ | execute _ _ _ => exact .inl fun he => by cases he
  | publish _ => exact .inr rfl
  | create _ _ => split <;> exact .inl htask
  | run _ _ =>
    rw [run_poll]
    exact .inl htask
  | takeInput h _ | noInput h _ | slirpInput h _ | noCommand h _ | polled h _ =>
    rw [h] at htask
    exact absurd rfl htask
  | _ => exact .inl htask

/-- A call that returns empties the slot. -/
theorem Step.returns (hs : s.Step p s') (hc : Commands s) {call : ℕ} {state state' : ForwardCall} (hcall :
    s.calls call = some state)
    (hcall' : s'.calls call = some state') (hne : state ≠ state') (hwaits : ∀ command, state ≠ .waiting command) :
      s'.slot.command = none := by
  by_cases hp : p = .caller call
  · rcases hs.of_caller hc hcall hp with ⟨command, hw, -⟩ | ⟨command, result, hplaced, -⟩
    · exact absurd hw (hwaits command)
    · rw [hplaced] at hcall
      cases hs with
      | call command' =>
        cases hp
        rw [hc.fresh _ (Nat.le_refl _)] at hcall
        cases hcall
      | place hwaiting _ =>
        cases hp
        rw [hwaiting] at hcall
        cases hcall
      | takeResult _ _ => rfl
      | _ => cases hp
  · exact absurd (Option.some.inj ((hs.keeps_call hcall hp).symm.trans hcall')) hne

/-- A command in the slot is executed, and its caller returns. -/
theorem FairRun.returns_placed (h : FairRun queueCapacity forward σ a) (hroom : queueCapacity.toNat ≤ 2 ^ 31) (hrounds : Rounds σ)
    {call : ℕ} {command : ForwardCommand} (hcall : (σ t).calls call = some (.placed command)) :
    ∃ t' result, t ≤ t' ∧ (σ t').calls call = some (.placed command) ∧ (σ (t' + 1)).calls call = some (.returned command result)
      := by
  by_contra hno
  have hcommands (u : ℕ) : Commands (σ u) := ((h.reach u).invariants hroom).2.2
  have hcaller {u : ℕ} (hu : t ≤ u) (hplaced : (σ u).calls call = some (.placed command)) : a u ≠ .caller call := by
    intro hp
    rcases (h.step u).of_caller (hcommands u) hplaced hp with ⟨command', he, -⟩ | ⟨command', result, he, hret⟩
    · cases he
    · cases he
      exact hno ⟨u, result, hu, hplaced, hret⟩
  have hstays (u : ℕ) (hu : t ≤ u) : (σ u).calls call = some (.placed command) := by
    induction u, hu using Nat.le_induction with
    | base => exact hcall
    | succ u hu ih => exact (h.step u).keeps_call ih (hcaller hu ih)
  -- its result never comes, or the caller would take it
  have hopen (u : ℕ) (hu : t ≤ u) : (σ u).slot.complete = false := by
    by_contra hdone
    rw [Bool.not_eq_false] at hdone
    have hkeeps (v : ℕ) (hv : u ≤ v) : (σ v).slot.complete = true := by
      induction v, hv using Nat.le_induction with
      | base => exact hdone
      | succ v hv ih =>
        have hplaced := hstays v (hu.trans hv)
        exact (h.step v).keeps_result (hcommands v) hplaced (hcaller (hu.trans hv) hplaced) ih
    obtain ⟨v, hv, hp⟩ := h.caller call (fun w => ⟨max u w, Nat.le_max_right u w, .inr ⟨command,
      hstays _ (hu.trans (Nat.le_max_left u w)), hkeeps _ (Nat.le_max_left u w)⟩⟩) u
    exact hcaller (hu.trans hv) (hstays v (hu.trans hv)) hp
  obtain ⟨u, hu, hat, hleft⟩ := hrounds t
  have htask : (σ (u + 1)).poll.task ≠ none := by
    rcases (h.step u).leaves hat hleft with htask | hnone | hdone
    · exact htask
    · rw [((hcommands u).placed call command (hstays u hu)).1] at hnone
      cases hnone
    · rw [hopen u hu] at hdone
      cases hdone
  have hkeeps (v : ℕ) (hv : u + 1 ≤ v) : (σ v).poll.task ≠ none := by
    induction v, hv using Nat.le_induction with
    | base => exact htask
    | succ v hv ih =>
      refine ((h.step v).keeps_task ih).resolve_right fun hdone => ?_
      rw [hopen (v + 1) (by omega)] at hdone
      cases hdone
  obtain ⟨v, hv, hback, -⟩ := hrounds (u + 1)
  exact hkeeps v hv (by rw [hback]; rfl)

/-- The slot is empty again and again. -/
theorem FairRun.frees (h : FairRun queueCapacity forward σ a) (hroom : queueCapacity.toNat ≤ 2 ^ 31) (hrounds : Rounds σ) (t : ℕ) :
    ∃ t', t ≤ t' ∧ (σ t').slot.command = none := by
  have hcommands (u : ℕ) : Commands (σ u) := ((h.reach u).invariants hroom).2.2
  cases hslot : (σ t).slot.command with
  | none => exact ⟨t, Nat.le_refl t, hslot⟩
  | some command =>
    obtain ⟨u, result, hu, hplaced, hret⟩ := h.returns_placed hroom hrounds ((hcommands t).slot command hslot).1
    exact ⟨u + 1, by omega, (h.step u).returns (hcommands u) hplaced hret (fun he => by cases he) fun _ he => by cases he⟩

/-- A waiting command comes into the slot. -/
theorem FairRun.places (h : FairRun queueCapacity forward σ a) (hroom : queueCapacity.toNat ≤ 2 ^ 31) (hrounds : Rounds σ)
    {call : ℕ} {command : ForwardCommand} (hcall : (σ t).calls call = some (.waiting command)) :
    ∃ t', t ≤ t' ∧ (σ t').calls call = some (.placed command) := by
  by_contra hno
  have hcommands (u : ℕ) : Commands (σ u) := ((h.reach u).invariants hroom).2.2
  have hcaller {u : ℕ} (hu : t ≤ u) (hwaiting : (σ u).calls call = some (.waiting command)) : a u ≠ .caller call := by
    intro hp
    rcases (h.step u).of_caller (hcommands u) hwaiting hp with ⟨command', he, hplaced⟩ | ⟨command', result, he, -⟩
    · cases he
      exact hno ⟨u + 1, by omega, hplaced⟩
    · cases he
  have hstays (u : ℕ) (hu : t ≤ u) : (σ u).calls call = some (.waiting command) := by
    induction u, hu using Nat.le_induction with
    | base => exact hcall
    | succ u hu ih => exact (h.step u).keeps_call ih (hcaller hu ih)
  obtain ⟨u, hu, hp⟩ := h.caller call (fun w => by
    obtain ⟨v, hv, hfree⟩ := h.frees hroom hrounds (max t w)
    exact ⟨v, (Nat.le_max_right t w).trans hv, .inl ⟨command, hstays v ((Nat.le_max_left t w).trans hv), hfree⟩⟩) t
  exact hcaller hu (hstays u hu) hp

/-- **Every call** returns. -/
theorem FairRun.returns (h : FairRun queueCapacity forward σ a) (hroom : queueCapacity.toNat ≤ 2 ^ 31) (hrounds :
    Rounds σ) {call : ℕ}
    {state : ForwardCall} (hstate : (σ t).calls call = some state) :
    ∃ t' result, t ≤ t' ∧ (σ t').calls call = some (.returned state.command result) := by
  cases state with
  | returned command result => exact ⟨t, result, Nat.le_refl t, hstate⟩
  | placed command =>
    obtain ⟨u, result, hu, -, hret⟩ := h.returns_placed hroom hrounds hstate
    exact ⟨u + 1, result, by omega, hret⟩
  | waiting command =>
    obtain ⟨u, hu, hplaced⟩ := h.places hroom hrounds hstate
    obtain ⟨v, result, hv, -, hret⟩ := h.returns_placed hroom hrounds hplaced
    exact ⟨v + 1, result, by omega, hret⟩

end Fair

end SlirpBridge
end Lish
