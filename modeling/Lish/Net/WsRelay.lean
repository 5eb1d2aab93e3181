import Lish.Net.WsFrames
/-!
# WsRelay — the relay's end of a WebSocket

The relay reads what has arrived, takes out the whole frames and answers pings; it sends each frame as one message.
-/
namespace Lish

open Framing WsFrame

/-- A message written, with its first byte and the payload that it is for. -/
structure WsWritten where
  first : U8
  payload : List U8
  message : List U8

structure WsRelay where
  /-- Bytes read but not yet forming a complete frame. -/
  pending : List U8
  /-- The payload gathered across a fragmented message. -/
  partialMessage : List U8
  closed : Bool
  written : List WsWritten

/-- A frame that the caller can hold. -/
structure SentFrame where
  bytes : List U8
  fits : bytes.length < 2 ^ 63

namespace WsRelay

/-- What `connect` returns. -/
def connected : WsRelay := ⟨[], [], false, []⟩

/-! The mask of the `n`th message, and whether writing it fails. -/
variable (mask : ℕ → Fin 4 → U8) (fails : ℕ → Bool)

def write (r : WsRelay) (first : U8) (payload message : List U8) : WsRelay :=
  { r with
    closed := r.closed || fails r.written.length
    written := r.written ++ [⟨first, payload, message⟩] }

def send (r : WsRelay) (frame : SentFrame) : WsRelay :=
  if r.closed then r else r.write fails 0x82 frame.bytes (message (mask r.written.length) frame.bytes)

def sendControl (r : WsRelay) (first : U8) (payload : List U8) : WsRelay :=
  r.write fails first payload (control first (mask r.written.length) payload)

/-- What the relay does with a frame, and what the caller gets. -/
def onFrame (r : WsRelay) (f : WsFrame) : WsRelay × List (List U8) :=
  if f.opcode = 0x2 ∨ f.opcode = 0x0 then
    if f.fin ∧ r.partialMessage = [] then (r, [f.payload])
    else if f.fin then ({ r with partialMessage := [] }, [r.partialMessage ++ f.payload])
    else ({ r with partialMessage := r.partialMessage ++ f.payload }, [])
  else if f.opcode = 0x8 then ({ r with closed := true }, [])
  else if f.opcode = 0x9 then (r.sendControl mask fails 0x8a f.payload, [])
  else (r, [])

/-- More frames after those taken out. -/
def after (out : List (List U8)) (p : WsRelay × List (List U8)) : WsRelay × List (List U8) := (p.1, out ++ p.2)

/-- The loop over the whole frames; none is a panic. -/
def drainFrames (r : WsRelay) : Option (WsRelay × List (List U8)) :=
  match _h : parse r.pending with
  | .incomplete => some (r, [])
  | .broken => none
  | .item f rest =>
    let p := { r with pending := rest }.onFrame mask fails f
    if f.opcode = 0x8 then some p else (drainFrames { p.1 with pending := rest }).map (after p.2)
termination_by r.pending.length
decreasing_by exact framing.shorter _h

/-- `recv`: what has arrived, and whether the connection has ended or failed. -/
def recv (r : WsRelay) (data : List U8) (ended : Bool) : Option (WsRelay × List (List U8)) :=
  drainFrames mask fails { r with pending := r.pending ++ data, closed := r.closed || ended }

inductive Event where
  | recv (data : List U8) (ended : Bool)
  | send (frame : SentFrame)

/-- What the peer sends. -/
def Event.data : Event → List U8
  | recv data _ => data
  | send _ => []

/-- The calls of a run, and all that they return. -/
def run (r : WsRelay) : List Event → Option (WsRelay × List (List U8))
  | [] => some (r, [])
  | .send frame :: events => run (r.send mask fails frame) events
  | .recv data ended :: events =>
    (r.recv mask fails data ended).bind fun p => (run p.1 events).map (after p.2)

/-- What the peer sends in a run. -/
def received (events : List Event) : List U8 := events.flatMap Event.data

end WsRelay

/-! ## The messages of a stream -/

/-- **The complete binary messages**, after the payload of an unfinished one: a fragmented message goes on over control
frames, and a new message of either kind gives up an unfinished one. -/
def messages : Option (List U8) → List WsFrame → List (List U8)
  | _, [] => []
  | unfinished, f :: fs =>
    if f.opcode = 0x2 then if f.fin then f.payload :: messages none fs else messages (some f.payload) fs
    else if f.opcode = 0x1 then messages none fs
    else if f.opcode = 0x0 then
      if f.fin then (unfinished.map (· ++ f.payload)).toList ++ messages none fs
      else messages (unfinished.map (· ++ f.payload)) fs
    else messages unfinished fs

/-- What is unfinished after some frames. -/
def unfinishedAfter : Option (List U8) → List WsFrame → Option (List U8)
  | unfinished, [] => unfinished
  | unfinished, f :: fs =>
    if f.opcode = 0x2 then if f.fin then unfinishedAfter none fs else unfinishedAfter (some f.payload) fs
    else if f.opcode = 0x1 then unfinishedAfter none fs
    else if f.opcode = 0x0 then
      if f.fin then unfinishedAfter none fs else unfinishedAfter (unfinished.map (· ++ f.payload)) fs
    else unfinishedAfter unfinished fs

/-- **No stray fragment reaches a message**: every last continuation continues a binary message, and when a binary message
completes, the fragments before it that belong to no complete message (`stray`) were empty. -/
def Unmixed : List U8 → Option (List U8) → List WsFrame → Prop
  | _, _, [] => True
  | stray, unfinished, f :: fs =>
    if f.opcode = 0x2 then
      if f.fin then stray ++ unfinished.getD [] = [] ∧ Unmixed [] none fs
      else Unmixed (stray ++ unfinished.getD []) (some f.payload) fs
    else if f.opcode = 0x1 then Unmixed (stray ++ unfinished.getD []) none fs
    else if f.opcode = 0x0 then
      if f.fin then unfinished.isSome ∧ stray = [] ∧ Unmixed [] none fs
      else Unmixed (if unfinished.isSome then stray else stray ++ f.payload) (unfinished.map (· ++ f.payload)) fs
    else Unmixed stray unfinished fs

/-- What the relay delivers of some frames, after fragments that it holds. -/
def delivered : List U8 → List WsFrame → List (List U8)
  | _, [] => []
  | held, f :: fs =>
    if f.opcode = 0x2 ∨ f.opcode = 0x0 then
      if f.fin then (held ++ f.payload) :: delivered [] fs else delivered (held ++ f.payload) fs
    else delivered held fs

/-- What it holds after them. -/
def heldAfter : List U8 → List WsFrame → List U8
  | held, [] => held
  | held, f :: fs =>
    if f.opcode = 0x2 ∨ f.opcode = 0x0 then if f.fin then heldAfter [] fs else heldAfter (held ++ f.payload) fs
    else heldAfter held fs

theorem delivered_append (held : List U8) (fs gs : List WsFrame) :
    delivered held (fs ++ gs) = delivered held fs ++ delivered (heldAfter held fs) gs := by
  induction fs generalizing held with
  | nil => rfl
  | cons f fs ih =>
    rw [List.cons_append, delivered, delivered, heldAfter]
    split_ifs
    · rw [ih, List.cons_append]
    · exact ih _
    · exact ih _

theorem heldAfter_append (held : List U8) (fs gs : List WsFrame) :
    heldAfter held (fs ++ gs) = heldAfter (heldAfter held fs) gs := by
  induction fs generalizing held with
  | nil => rfl
  | cons f fs ih =>
    rw [List.cons_append, heldAfter, heldAfter]
    split_ifs
    · exact ih _
    · exact ih _
    · exact ih _

theorem messages_append (unfinished : Option (List U8)) (fs gs : List WsFrame) :
    messages unfinished (fs ++ gs) = messages unfinished fs ++ messages (unfinishedAfter unfinished fs) gs := by
  induction fs generalizing unfinished with
  | nil => rfl
  | cons f fs ih =>
    rw [List.cons_append, messages, messages, unfinishedAfter]
    split_ifs
    · rw [ih, List.cons_append]
    · exact ih _
    · exact ih _
    · rw [ih, List.append_assoc]
    · exact ih _
    · exact ih _

/-- The relay delivers no less than there are messages. -/
theorem length_messages_le (held : List U8) (unfinished : Option (List U8)) (fs : List WsFrame) :
    (messages unfinished fs).length ≤ (delivered held fs).length := by
  induction fs generalizing held unfinished with
  | nil => exact le_refl _
  | cons f fs ih =>
    rw [messages, delivered]
    by_cases h2 : f.opcode = 0x2
    · rw [if_pos h2, if_pos (Or.inl h2)]
      split
      · exact Nat.succ_le_succ (ih _ _)
      · exact ih _ _
    · rw [if_neg h2]
      by_cases h1 : f.opcode = 0x1
      · rw [if_pos h1, if_neg (by omega)]
        exact ih _ _
      · rw [if_neg h1]
        by_cases h0 : f.opcode = 0x0
        · rw [if_pos h0, if_pos (Or.inr h0)]
          split
          · have hone : (unfinished.map (· ++ f.payload)).toList.length ≤ 1 := by
              cases unfinished with
              | none => exact Nat.zero_le 1
              | some begun => exact le_refl 1
            have hle := ih [] none
            rw [List.length_append, List.length_cons]
            omega
          · exact ih _ _
        · rw [if_neg h0, if_neg (by omega)]
          exact ih _ _

/-- **The relay delivers the messages of a stream** exactly when no stray fragment reaches one. -/
theorem delivered_eq_messages (stray : List U8) (unfinished : Option (List U8)) (fs : List WsFrame) :
    delivered (stray ++ unfinished.getD []) fs = messages unfinished fs ↔ Unmixed stray unfinished fs := by
  induction fs generalizing stray unfinished with
  | nil => exact ⟨fun _ => trivial, fun _ => rfl⟩
  | cons f fs ih =>
    have hfresh := ih [] none
    rw [Option.getD_none, List.append_nil] at hfresh
    rw [messages, delivered, Unmixed]
    by_cases h2 : f.opcode = 0x2
    · rw [if_pos h2, if_pos (Or.inl h2), if_pos h2]
      split
      · rw [List.cons.injEq, List.append_left_eq_self, hfresh]
      · exact ih (stray ++ unfinished.getD []) (some f.payload)
    · rw [if_neg h2, if_neg h2]
      by_cases h1 : f.opcode = 0x1
      · rw [if_pos h1, if_neg (by omega), if_pos h1]
        have h := ih (stray ++ unfinished.getD []) none
        rwa [Option.getD_none, List.append_nil] at h
      · rw [if_neg h1, if_neg h1]
        by_cases h0 : f.opcode = 0x0
        · rw [if_pos h0, if_pos (Or.inr h0), if_pos h0]
          cases unfinished with
          | none =>
            rw [Option.getD_none, List.append_nil]
            split
            · refine ⟨fun h => ?_, fun h => absurd h.1 Bool.noConfusion⟩
              have hle := length_messages_le [] none fs
              rw [Option.map_none, Option.toList_none, List.nil_append] at h
              rw [← h, List.length_cons] at hle
              omega
            · have h := ih (stray ++ f.payload) none
              rw [Option.getD_none, List.append_nil] at h
              exact h
          | some begun =>
            rw [Option.getD_some, List.append_assoc]
            split
            · rw [Option.map_some, Option.toList_some, List.singleton_append, List.cons.injEq, hfresh,
                List.append_left_eq_self]
              exact ⟨fun h => ⟨rfl, h⟩, fun h => h.2⟩
            · exact ih stray (some (begun ++ f.payload))
        · rw [if_neg h0, if_neg (by omega), if_neg h0]
          exact ih stray unfinished

theorem unmixed_left {stray : List U8} {unfinished : Option (List U8)} {fs gs : List WsFrame}
    (h : Unmixed stray unfinished (fs ++ gs)) : Unmixed stray unfinished fs := by
  induction fs generalizing stray unfinished with
  | nil => trivial
  | cons f fs ih =>
    rw [List.cons_append, Unmixed] at h
    rw [Unmixed]
    split_ifs at h ⊢
    · exact ⟨h.1, ih h.2⟩
    · exact ih h
    · exact ih h
    · exact ⟨h.1, h.2.1, ih h.2.2⟩
    · exact ih h
    · exact ih h
    · exact ih h

/-! ## Runs -/

namespace WsRelay

variable {mask : ℕ → Fin 4 → U8} {fails : ℕ → Bool}

/-- The answer to a ping. -/
def IsPong (w : WsWritten) (payload : List U8) : Prop := ∃ m, w = ⟨0x8a, payload, control 0x8a m payload⟩

/-- A frame that was sent. -/
def IsSent (w : WsWritten) : Prop := ∃ (m : Fin 4 → U8) (frame : SentFrame), w = ⟨0x82, frame.bytes, message m frame.bytes⟩

/-- The messages answer the pings among the frames. -/
structure Answers (fs : List WsFrame) (new : List WsWritten) : Prop where
  pong : ∀ w ∈ new, ∃ f ∈ fs, f.opcode = 0x9 ∧ IsPong w f.payload
  ping : ∀ f ∈ fs, f.opcode = 0x9 → ∃ w ∈ new, IsPong w f.payload

theorem Answers.nil : Answers [] [] := ⟨fun w hw => (by cases hw), fun f hf => (by cases hf)⟩

theorem Answers.append {fs gs : List WsFrame} {new more : List WsWritten} (h : Answers fs new) (h' : Answers gs more) :
    Answers (fs ++ gs) (new ++ more) := by
  refine ⟨fun w hw => ?_, fun f hf ho => ?_⟩
  · rcases List.mem_append.1 hw with hw | hw
    · obtain ⟨f, hf, hp⟩ := h.pong w hw
      exact ⟨f, List.mem_append_left gs hf, hp⟩
    · obtain ⟨f, hf, hp⟩ := h'.pong w hw
      exact ⟨f, List.mem_append_right fs hf, hp⟩
  · rcases List.mem_append.1 hf with hf | hf
    · obtain ⟨w, hw, hp⟩ := h.ping f hf ho
      exact ⟨w, List.mem_append_left more hw, hp⟩
    · obtain ⟨w, hw, hp⟩ := h'.ping f hf ho
      exact ⟨w, List.mem_append_right new hw, hp⟩

/-- **What frames do to the relay** that takes them out of its buffer. -/
structure Took (r r' : WsRelay) (fs : List WsFrame) (out : List (List U8)) : Prop where
  cut : framing.Cut r.pending fs r'.pending
  out : out = delivered r.partialMessage fs
  held : r'.partialMessage = heldAfter r.partialMessage fs
  written : ∃ new, r'.written = r.written ++ new ∧ Answers fs new

theorem Took.nil (r : WsRelay) : Took r r [] [] := ⟨.nil _, rfl, rfl, [], (List.append_nil _).symm, Answers.nil⟩

theorem Took.trans {r r' r'' : WsRelay} {fs gs : List WsFrame} {out more : List (List U8)} (h : Took r r' fs out)
    (h' : Took r' r'' gs more) : Took r r'' (fs ++ gs) (out ++ more) := by
  obtain ⟨new, hw, ha⟩ := h.written
  obtain ⟨new', hw', ha'⟩ := h'.written
  refine ⟨h.cut.trans h'.cut, ?_, ?_, new ++ new', ?_, ha.append ha'⟩
  · rw [delivered_append, ← h.held, ← h.out, ← h'.out]
  · rw [heldAfter_append, ← h.held, ← h'.held]
  · rw [hw', hw, List.append_assoc]

/-- **One frame** is taken. -/
theorem took_one {r : WsRelay} {f : WsFrame} {rest : List U8} (h : parse r.pending = .item f rest) :
    Took r ({ r with pending := rest }.onFrame mask fails f).1 [f] ({ r with pending := rest }.onFrame mask fails f).2 := by
  have hcut : framing.Cut r.pending [f] rest := .one h
  have hnone : f.opcode ≠ 0x9 → ∃ new, r.written = r.written ++ new ∧ Answers [f] new := fun ho => by
    refine ⟨[], (List.append_nil _).symm, fun w hw => (by cases hw), fun g hg hg' => ?_⟩
    rw [List.mem_singleton.1 hg] at hg'
    exact absurd hg' ho
  unfold onFrame
  by_cases hd : f.opcode = 0x2 ∨ f.opcode = 0x0
  · have hping : f.opcode ≠ 0x9 := by omega
    rw [if_pos hd]
    by_cases hfin : f.fin = true
    · by_cases hheld : r.partialMessage = []
      · rw [if_pos ⟨hfin, hheld⟩]
        refine ⟨hcut, ?_, ?_, hnone hping⟩
        · rw [delivered, if_pos hd, if_pos hfin, hheld]
          rfl
        · rw [heldAfter, if_pos hd, if_pos hfin, heldAfter]
          exact hheld
      · rw [if_neg (fun hc => hheld hc.2), if_pos hfin]
        refine ⟨hcut, ?_, ?_, hnone hping⟩
        · rw [delivered, if_pos hd, if_pos hfin, delivered]
        · rw [heldAfter, if_pos hd, if_pos hfin, heldAfter]
    · rw [if_neg (fun hc => hfin hc.1), if_neg hfin]
      refine ⟨hcut, ?_, ?_, hnone hping⟩
      · rw [delivered, if_pos hd, if_neg hfin, delivered]
      · rw [heldAfter, if_pos hd, if_neg hfin, heldAfter]
  · rw [if_neg hd]
    have hout : [] = delivered r.partialMessage [f] := by rw [delivered, if_neg hd, delivered]
    have hheld : r.partialMessage = heldAfter r.partialMessage [f] := by rw [heldAfter, if_neg hd, heldAfter]
    by_cases h8 : f.opcode = 0x8
    · rw [if_pos h8]
      exact ⟨hcut, hout, hheld, hnone (by omega)⟩
    · rw [if_neg h8]
      by_cases h9 : f.opcode = 0x9
      · rw [if_pos h9]
        have hpong : IsPong ⟨0x8a, f.payload, control 0x8a (mask r.written.length) f.payload⟩ f.payload := ⟨_, rfl⟩
        refine ⟨hcut, hout, hheld, [_], rfl, fun w hw => ?_, fun g hg _ => ?_⟩
        · rw [List.mem_singleton.1 hw]
          exact ⟨f, List.mem_singleton_self f, h9, hpong⟩
        · rw [List.mem_singleton.1 hg]
          exact ⟨_, List.mem_singleton_self _, hpong⟩
      · rw [if_neg h9]
        exact ⟨hcut, hout, hheld, hnone h9⟩

/-- Where the loop stops: at the start of a frame that is not whole, or after a close frame. -/
def Stops (r' : WsRelay) (fs : List WsFrame) : Prop :=
  (parse r'.pending = .incomplete ∧ ∀ f ∈ fs, f.opcode ≠ 0x8) ∨
    ∃ pre f, fs = pre ++ [f] ∧ f.opcode = 0x8 ∧ ∀ g ∈ pre, g.opcode ≠ 0x8

/-- The bytes received break after some frames. -/
def Breaks (b : List U8) : Prop := ∃ fs rest, framing.Cut b fs rest ∧ parse rest = .broken

theorem onFrame_pending (r : WsRelay) (f : WsFrame) : (r.onFrame mask fails f).1.pending = r.pending := by
  unfold onFrame
  split_ifs <;> rfl

theorem with_pending {r : WsRelay} {b : List U8} (h : r.pending = b) : { r with pending := b } = r := by
  cases h
  rfl

theorem drainFrames_incomplete {r : WsRelay} (h : parse r.pending = .incomplete) : drainFrames mask fails r = some (r, []) := by
  rw [drainFrames]
  split
  · rfl
  · rename_i h'
    rw [h] at h'
    cases h'
  · rename_i h'
    rw [h] at h'
    cases h'

theorem drainFrames_broken {r : WsRelay} (h : parse r.pending = .broken) : drainFrames mask fails r = none := by
  rw [drainFrames]
  split
  · rename_i h'
    rw [h] at h'
    cases h'
  · rfl
  · rename_i h'
    rw [h] at h'
    cases h'

theorem drainFrames_item {r : WsRelay} {f : WsFrame} {rest : List U8} (h : parse r.pending = .item f rest) :
    drainFrames mask fails r =
      if f.opcode = 0x8 then some ({ r with pending := rest }.onFrame mask fails f)
      else (drainFrames mask fails ({ r with pending := rest }.onFrame mask fails f).1).map
        (after ({ r with pending := rest }.onFrame mask fails f).2) := by
  have hp := @onFrame_pending mask fails { r with pending := rest } f
  rw [drainFrames]
  split
  · rename_i h'
    rw [h] at h'
    cases h'
  · rename_i h'
    rw [h] at h'
    cases h'
  · rename_i h'
    rw [h] at h'
    cases h'
    dsimp only
    rw [with_pending hp]

/-- **The loop takes out whole frames** until it stops, or panics where they break. -/
theorem drainFrames_spec (r : WsRelay) :
    (drainFrames mask fails r = none ∧ Breaks r.pending) ∨
      ∃ r' fs out, drainFrames mask fails r = some (r', out) ∧ Took r r' fs out ∧ Stops r' fs := by
  induction r using drainFrames.induct mask fails with
  | case1 r h =>
    exact Or.inr ⟨r, [], [], drainFrames_incomplete h, Took.nil r, Or.inl ⟨h, fun f hf => (by cases hf)⟩⟩
  | case2 r h => exact Or.inl ⟨drainFrames_broken h, [], r.pending, .nil _, h⟩
  | case3 r f rest h h8 =>
    have hdrain := @drainFrames_item mask fails r f rest h
    rw [if_pos h8] at hdrain
    exact Or.inr ⟨_, [f], _, hdrain, took_one h, Or.inr ⟨[], f, rfl, h8, fun g hg => (by cases hg)⟩⟩
  | case4 r f rest h p h8 ih =>
    have hp : { p.1 with pending := rest } = p.1 := with_pending (onFrame_pending _ f)
    have hone := @took_one mask fails r f rest h
    dsimp only at ih
    rw [hp] at ih
    rw [drainFrames_item h, if_neg h8]
    rcases ih with ⟨hn, fs, rest', hcut, hb⟩ | ⟨r', fs, out, hs, ht, hstops⟩
    · exact Or.inl ⟨by rw [hn]; rfl, f :: fs, rest', (Cut.one h).trans hcut, hb⟩
    · refine Or.inr ⟨r', f :: fs, p.2 ++ out, by rw [hs]; rfl, hone.trans ht, ?_⟩
      rcases hstops with ⟨hi, hno⟩ | ⟨pre, g, hfs, hg, hno⟩
      · refine Or.inl ⟨hi, fun g hg => ?_⟩
        rcases List.mem_cons.1 hg with rfl | hg
        · exact h8
        · exact hno g hg
      · refine Or.inr ⟨f :: pre, g, by rw [hfs]; rfl, hg, fun k hk => ?_⟩
        rcases List.mem_cons.1 hk with rfl | hk
        · exact h8
        · exact hno k hk

/-- **What a run has done** with the bytes received so far: these frames have been taken out, and more can be only after a
close frame. -/
structure Ran (received : List U8) (r : WsRelay) (fs : List WsFrame) (out : List (List U8)) : Prop where
  cut : framing.Cut received fs r.pending
  out : out = delivered [] fs
  held : r.partialMessage = heldAfter [] fs
  sound : ∀ w ∈ r.written, IsSent w ∨ ∃ f ∈ fs, f.opcode = 0x9 ∧ IsPong w f.payload
  ping : ∀ f ∈ fs, f.opcode = 0x9 → ∃ w ∈ r.written, IsPong w f.payload
  stopped : parse r.pending = .incomplete ∨ ∃ f ∈ fs, f.opcode = 0x8

theorem ran_connected : Ran [] connected [] [] where
  cut := .nil _
  out := rfl
  held := rfl
  sound _ hw := by cases hw
  ping _ hf := by cases hf
  stopped := Or.inl rfl

theorem ran_send {bytes : List U8} {r : WsRelay} {fs : List WsFrame} {out : List (List U8)} (h : Ran bytes r fs out)
    (frame : SentFrame) : Ran bytes (r.send mask fails frame) fs out := by
  unfold send
  split
  · exact h
  · refine ⟨h.cut, h.out, h.held, fun w hw => ?_, fun f hf ho => ?_, h.stopped⟩
    · rcases List.mem_append.1 hw with hw | hw
      · exact h.sound w hw
      · rw [List.mem_singleton.1 hw]
        exact Or.inl ⟨_, frame, rfl⟩
    · obtain ⟨w, hw, hp⟩ := h.ping f hf ho
      exact ⟨w, List.mem_append_left _ hw, hp⟩

/-- One call of `recv`. -/
theorem ran_recv {bytes : List U8} {r : WsRelay} {fs : List WsFrame} {out : List (List U8)} (h : Ran bytes r fs out)
    (data : List U8) (ended : Bool) :
    (r.recv mask fails data ended = none ∧ Breaks (bytes ++ data)) ∨
      ∃ r' gs more, r.recv mask fails data ended = some (r', more) ∧ Ran (bytes ++ data) r' (fs ++ gs) (out ++ more) ∧
        Stops r' gs := by
  have hcut := h.cut.append data
  unfold recv
  rcases @drainFrames_spec mask fails { r with pending := r.pending ++ data, closed := r.closed || ended } with
    ⟨hn, gs, rest, hgs, hb⟩ | ⟨r', gs, more, hs, ht, hstops⟩
  · exact Or.inl ⟨hn, fs ++ gs, rest, hcut.trans hgs, hb⟩
  · refine Or.inr ⟨r', gs, more, hs, ⟨hcut.trans ht.cut, ?_, ?_, fun w hw => ?_, fun f hf ho => ?_, ?_⟩, hstops⟩
    · rw [delivered_append, ← h.held, ← h.out, ht.out]
    · rw [heldAfter_append, ← h.held, ht.held]
    · obtain ⟨new, hw', ha⟩ := ht.written
      rw [hw'] at hw
      rcases List.mem_append.1 hw with hw | hw
      · rcases h.sound w hw with hs | ⟨f, hf, hp⟩
        · exact Or.inl hs
        · exact Or.inr ⟨f, List.mem_append_left gs hf, hp⟩
      · obtain ⟨f, hf, hp⟩ := ha.pong w hw
        exact Or.inr ⟨f, List.mem_append_right fs hf, hp⟩
    · obtain ⟨new, hw', ha⟩ := ht.written
      rw [hw']
      rcases List.mem_append.1 hf with hf | hf
      · obtain ⟨w, hw, hp⟩ := h.ping f hf ho
        exact ⟨w, List.mem_append_left new hw, hp⟩
      · obtain ⟨w, hw, hp⟩ := ha.ping f hf ho
        exact ⟨w, List.mem_append_right _ hw, hp⟩
    · rcases hstops with ⟨hi, -⟩ | ⟨pre, f, rfl, h8, -⟩
      · exact Or.inl hi
      · exact Or.inr ⟨f, List.mem_append_right fs (List.mem_append_right pre (List.mem_singleton_self f)), h8⟩

theorem Breaks.append {b : List U8} (h : Breaks b) (more : List U8) : Breaks (b ++ more) := by
  obtain ⟨fs, rest, hcut, hb⟩ := h
  exact ⟨fs, rest ++ more, hcut.append more, framing.broken_append more hb⟩

/-- **A run** takes frames out of what it receives, or panics where the bytes break. -/
theorem ran_run (events : List Event) {bytes : List U8} {r : WsRelay} {fs : List WsFrame} {out : List (List U8)}
    (h : Ran bytes r fs out) :
    (run mask fails r events = none ∧ Breaks (bytes ++ received events)) ∨
      ∃ r' gs more, run mask fails r events = some (r', more) ∧ Ran (bytes ++ received events) r' gs (out ++ more) := by
  induction events generalizing bytes r fs out with
  | nil =>
    refine Or.inr ⟨r, fs, [], rfl, ?_⟩
    rw [List.append_nil]
    show Ran (bytes ++ []) r fs out
    rw [List.append_nil]
    exact h
  | cons e events ih =>
    cases e with
    | send frame => exact ih (ran_send h frame)
    | recv data ended =>
      have hall : bytes ++ received (.recv data ended :: events) = bytes ++ data ++ received events :=
        (List.append_assoc _ _ _).symm
      rw [hall, run]
      rcases @ran_recv mask fails bytes r fs out h data ended with ⟨hn, hb⟩ | ⟨r', gs, more, hs, hr, -⟩
      · exact Or.inl ⟨by rw [hn]; rfl, hb.append _⟩
      · rcases ih hr with ⟨hn, hb⟩ | ⟨r'', gs', more', hs', hr'⟩
        · exact Or.inl ⟨by rw [hs, Option.bind_some, hn]; rfl, hb⟩
        · refine Or.inr ⟨r'', gs', more ++ more', by rw [hs, Option.bind_some, hs']; rfl, ?_⟩
          rwa [← List.append_assoc]

end WsRelay

/-! ## Exact and total -/

open WsRelay

/-- What was written is one masked frame, final, with its payload. -/
def WellFormed (w : WsWritten) : Prop := parse w.message = .item ⟨true, (w.first &&& 0x0f).toNat, true, w.payload⟩ []

/-- **The relay is exact on a stream**: in every run that receives it, however it is cut into calls and whatever is sent
between them, no call panics, the calls return the complete binary messages of the stream, and every frame written is well
formed. -/
def ExactOn (stream : List U8) : Prop :=
  ∀ (mask : ℕ → Fin 4 → U8) (fails : ℕ → Bool) (events : List Event), received events = stream →
    ∃ r, run mask fails connected events = some (r, messages none (framing.items stream).1) ∧ ∀ w ∈ r.written, WellFormed w

/-- The streams on which it is exact. -/
structure Regular (stream : List U8) : Prop where
  whole : (framing.items stream).2 = false
  pings : ∀ f ∈ (framing.items stream).1, f.opcode = 0x9 → f.payload.length ≤ 125
  unmixed : Unmixed [] none (framing.items stream).1
  closing : ∀ before f after, (framing.items stream).1 = before ++ f :: after → f.opcode = 0x8 →
    messages none (framing.items stream).1 = messages none before

theorem not_whole {stream : List U8} (h : Breaks stream) : (framing.items stream).2 = true := by
  obtain ⟨fs, rest, hcut, hb⟩ := h
  rw [hcut.items, items_broken hb]

theorem wellFormed_sent {w : WsWritten} (h : IsSent w) : WellFormed w := by
  obtain ⟨m, frame, rfl⟩ := h
  have hbinary : ((0x82 : U8) &&& 0x0f).toNat = 2 := by decide
  unfold WellFormed
  rw [hbinary]
  exact parse_message m frame.fits

theorem wellFormed_pong {w : WsWritten} {payload : List U8} (h : IsPong w payload) : WellFormed w ↔ payload.length ≤ 125 := by
  obtain ⟨m, rfl⟩ := h
  exact parse_control_iff

/-- The messages of the frames taken out are delivered, where no stray fragment reaches one. -/
theorem delivered_messages {fs gs : List WsFrame} (h : Unmixed [] none (fs ++ gs)) : delivered [] fs = messages none fs :=
  (delivered_eq_messages [] none fs).2 (unmixed_left h)

theorem exact_of_regular {stream : List U8} (h : Regular stream) : ExactOn stream := by
  intro mask fails events hev
  rcases @ran_run mask fails events [] connected [] [] ran_connected with ⟨-, hb⟩ | ⟨r, fs, more, hs, hr⟩
  · rw [List.nil_append, hev] at hb
    have hwhole := not_whole hb
    rw [h.whole] at hwhole
    cases hwhole
  · rw [List.nil_append, List.nil_append, hev] at hr
    have hitems : (framing.items stream).1 = fs ++ (framing.items r.pending).1 := congrArg Prod.fst hr.cut.items
    have hunmixed := h.unmixed
    have hmore : messages none (framing.items stream).1 =
        messages none fs ++ messages (unfinishedAfter none fs) (framing.items r.pending).1 := by
      rw [hitems, messages_append]
    have hall : messages none fs = messages none (framing.items stream).1 := by
      rcases hr.stopped with hi | ⟨f, hf, h8⟩
      · rw [hitems, items_incomplete hi, List.append_nil]
      · obtain ⟨pre, mid, rfl⟩ := List.append_of_mem hf
        have hclosing := h.closing pre f (mid ++ (framing.items r.pending).1) (by rw [hitems, List.append_assoc]; rfl) h8
        have hlen := congrArg List.length hmore
        have hpre := congrArg List.length (messages_append none pre (f :: mid))
        rw [List.length_append] at hlen hpre
        rw [hclosing] at hlen
        rw [hmore, List.length_eq_zero_iff.1 (by omega :
          (messages (unfinishedAfter none (pre ++ f :: mid)) (framing.items r.pending).1).length = 0), List.append_nil]
    rw [hitems] at hunmixed
    refine ⟨r, ?_, fun w hw => ?_⟩
    · rw [hs, hr.out, delivered_messages hunmixed, hall]
    · rcases hr.sound w hw with hw | ⟨f, hf, h9, hp⟩
      · exact wellFormed_sent hw
      · exact (wellFormed_pong hp).2 (h.pings f (by rw [hitems]; exact List.mem_append_left _ hf) h9)

/-- A call takes out a frame, or waits for more bytes. -/
theorem again {mask : ℕ → Fin 4 → U8} {fails : ℕ → Bool} {bytes : List U8} {r : WsRelay} {fs : List WsFrame}
    {out : List (List U8)} (h : Ran bytes r fs out) :
    r.recv mask fails [] false = none ∨ ∃ r' gs more, r.recv mask fails [] false = some (r', more) ∧
      Ran bytes r' gs (out ++ more) ∧ (parse r'.pending = .incomplete ∨
        (framing.items r'.pending).1.length < (framing.items r.pending).1.length) := by
  rcases @ran_recv mask fails bytes r fs out h [] false with ⟨hn, -⟩ | ⟨r', gs, more, hs, hr, hstops⟩
  · exact Or.inl hn
  · rw [List.append_nil] at hr
    refine Or.inr ⟨r', fs ++ gs, more, hs, hr, ?_⟩
    rcases hstops with ⟨hi, -⟩ | ⟨pre, f, rfl, -, -⟩
    · exact Or.inl hi
    · refine Or.inr ?_
      have hlen := congrArg (fun p => p.1.length) (h.cut.items.symm.trans hr.cut.items)
      dsimp only at hlen
      rw [List.length_append, List.length_append, List.length_append, List.length_append, List.length_singleton] at hlen
      omega

/-- Calls that receive nothing take out the frames behind a close frame. -/
theorem drained {mask : ℕ → Fin 4 → U8} {fails : ℕ → Bool} {bytes : List U8} (n : ℕ) {r : WsRelay} {fs : List WsFrame}
    {out : List (List U8)} (h : Ran bytes r fs out) (hn : (framing.items r.pending).1.length ≤ n) :
    ∃ events, received events = [] ∧ (run mask fails r events = none ∨
      ∃ r' gs more, run mask fails r events = some (r', more) ∧ Ran bytes r' gs (out ++ more) ∧
        parse r'.pending = .incomplete) := by
  induction n generalizing r fs out with
  | zero =>
    refine ⟨[.recv [] false], rfl, ?_⟩
    rcases @again mask fails bytes r fs out h with hr | ⟨r', gs, more, hs, hr, hi | hlt⟩
    · exact Or.inl (by rw [run, hr]; rfl)
    · refine Or.inr ⟨r', gs, more, ?_, hr, hi⟩
      rw [run, hs]
      show some (r', more ++ []) = _
      rw [List.append_nil]
    · omega
  | succ n ih =>
    rcases @again mask fails bytes r fs out h with hr | ⟨r', gs, more, hs, hr, hi | hlt⟩
    · exact ⟨[.recv [] false], rfl, Or.inl (by rw [run, hr]; rfl)⟩
    · refine ⟨[.recv [] false], rfl, Or.inr ⟨r', gs, more, ?_, hr, hi⟩⟩
      rw [run, hs]
      show some (r', more ++ []) = _
      rw [List.append_nil]
    · obtain ⟨events, hev, hrun⟩ := ih hr (by omega)
      refine ⟨.recv [] false :: events, hev, ?_⟩
      rcases hrun with hrun | ⟨r'', gs', more', hs', hr', hi⟩
      · exact Or.inl (by rw [run, hs, Option.bind_some, hrun]; rfl)
      · refine Or.inr ⟨r'', gs', more ++ more', by rw [run, hs, Option.bind_some, hs']; rfl, ?_, hi⟩
        rwa [← List.append_assoc]

theorem regular_of_exact {stream : List U8} (h : ExactOn stream) : Regular stream := by
  have hexact := h (fun _ _ => 0) fun _ => false
  -- the stream in one call
  obtain ⟨r, hrun, -⟩ := hexact [.recv stream false] (List.append_nil stream)
  rw [run] at hrun
  rcases @ran_recv (fun _ _ => 0) (fun _ => false) [] connected [] [] ran_connected stream false with
    ⟨hn, -⟩ | ⟨r₁, gs, more, hs, hr₁, hstops⟩
  · rw [hn] at hrun
    cases hrun
  rw [List.nil_append, List.nil_append, List.nil_append] at hr₁
  have hone : more = messages none (framing.items stream).1 := by
    rw [hs] at hrun
    have hpair := Option.some.inj hrun
    have hout : more ++ [] = _ := congrArg Prod.snd hpair
    rwa [List.append_nil] at hout
  -- and as many calls as it takes to see all of it
  obtain ⟨events, hev, hall⟩ := drained _ hr₁ (le_refl _)
  obtain ⟨r', hrun', hwell⟩ := hexact (.recv stream false :: events) (by
    show stream ++ received events = stream
    rw [hev, List.append_nil])
  rw [run, hs, Option.bind_some] at hrun'
  rcases hall with hn | ⟨r₂, fs, more', hs', hr₂, hi⟩
  · rw [hn] at hrun'
    cases hrun'
  rw [hs'] at hrun'
  have hpair := Option.some.inj hrun'
  have hr' : r₂ = r' := congrArg Prod.fst hpair
  have hout : more ++ more' = messages none (framing.items stream).1 := congrArg Prod.snd hpair
  have hitems : framing.items stream = (fs, false) := by
    rw [hr₂.cut.items, items_incomplete hi, List.append_nil]
  have hdelivered : delivered [] fs = messages none fs := by
    rw [← hr₂.out, hout, hitems]
  have hunmixed : Unmixed [] none fs := (delivered_eq_messages [] none fs).1 hdelivered
  rw [hitems] at hone hout
  subst hr'
  refine ⟨by rw [hitems], ?_, by rw [hitems]; exact hunmixed, ?_⟩
  · rw [hitems]
    intro f hf h9
    obtain ⟨w, hw, hp⟩ := hr₂.ping f hf h9
    exact (wellFormed_pong hp).1 (hwell w hw)
  · rw [hitems]
    intro before f after hfs h8
    dsimp only at hfs hone ⊢
    have hsplit : fs = gs ++ (framing.items r₁.pending).1 := by
      have h := congrArg Prod.fst (hr₁.cut.items.symm.trans hitems)
      exact h.symm
    rcases hstops with ⟨hi', hno⟩ | ⟨pre, g, rfl, hg, hno⟩
    · rw [items_incomplete hi', List.append_nil] at hsplit
      exact absurd h8 (hno f (by rw [← hsplit, hfs]; exact List.mem_append_right _ List.mem_cons_self))
    · have hpre : delivered [] (pre ++ [g]) = messages none pre := by
        have hg' : ¬ (g.opcode = 0x2 ∨ g.opcode = 0x0) := by omega
        rw [delivered_append, delivered, if_neg hg', delivered, List.append_nil]
        rw [hsplit, List.append_assoc] at hunmixed
        exact delivered_messages hunmixed
      have hsame : messages none fs = messages none pre := by rw [← hone, hr₁.out, hpre]
      obtain ⟨mid, rfl⟩ : ∃ mid, before = pre ++ mid := by
        rw [hfs, List.append_assoc] at hsplit
        rcases List.append_eq_append_iff.1 hsplit with ⟨mid, rfl, hmid⟩ | ⟨mid, rfl, hmid⟩
        · cases mid with
          | nil => exact ⟨[], by rw [List.append_nil, List.append_nil]⟩
          | cons k mid =>
            rw [List.cons_append] at hmid
            injection hmid with hk
            exact absurd h8 (hno f (List.mem_append_right before (hk ▸ List.mem_cons_self)))
        · exact ⟨mid, rfl⟩
      have hlen := congrArg List.length (messages_append none (pre ++ mid) (f :: after))
      have hlen' := congrArg List.length (messages_append none pre mid)
      rw [← hfs, hsame, List.length_append] at hlen
      rw [List.length_append] at hlen'
      rw [hsame, messages_append none pre mid, List.length_eq_zero_iff.1 (by omega :
        (messages (unfinishedAfter none pre) mid).length = 0), List.append_nil]

/-- **The relay is exact** on the regular streams and on no other. -/
theorem exact_iff_regular (stream : List U8) : ExactOn stream ↔ Regular stream :=
  ⟨regular_of_exact, exact_of_regular⟩

/-- A text message in two fragments. -/
def textStream : List U8 := [0x01, 1, 0x61, 0x80, 1, 0x62]

/-- A length that ends past the last address. -/
def endlessStream : List U8 := [0x82, 0x7f, 0xff, 0xff, 0xff, 0xff, 0xff, 0xff, 0xff, 0xff]

/-- A close frame with a message behind it. -/
def closedStream : List U8 := [0x88, 0, 0x82, 1, 0x62]

/-- A ping whose payload is one byte too long. -/
def pingStream : List U8 := 0x89 :: 0x7e :: 0 :: 126 :: List.replicate 126 0

set_option maxRecDepth 4000 in
theorem head_pingStream : framing.head pingStream = .item ⟨true, 9, false, List.replicate 126 0⟩ [] := rfl

/-- **The relay is not exact** on these streams: it delivers the end of a text message, panics, delivers what it did not, and
answers with more than one frame. -/
theorem relay_not_exact :
    ¬ ExactOn textStream ∧ ¬ ExactOn endlessStream ∧ ¬ ExactOn closedStream ∧ ¬ ExactOn pingStream := by
  refine ⟨fun h => ?_, fun h => ?_, fun h => ?_, fun h => ?_⟩
  · have hfirst : framing.head textStream = .item ⟨false, 1, false, [0x61]⟩ [0x80, 1, 0x62] := rfl
    have hsecond : framing.head [0x80, 1, 0x62] = .item ⟨true, 0, false, [0x62]⟩ [] := rfl
    have hend : framing.head [] = .incomplete := rfl
    have hu := (regular_of_exact h).unmixed
    rw [items_item hfirst, items_item hsecond, items_incomplete hend] at hu
    cases hu.1
  · have hbroken : framing.head endlessStream = .broken := rfl
    have hw := (regular_of_exact h).whole
    rw [items_broken hbroken] at hw
    cases hw
  · have hfirst : framing.head closedStream = .item ⟨true, 8, false, []⟩ [0x82, 1, 0x62] := rfl
    have hsecond : framing.head [0x82, 1, 0x62] = .item ⟨true, 2, false, [0x62]⟩ [] := rfl
    have hend : framing.head [] = .incomplete := rfl
    have hc := (regular_of_exact h).closing [] ⟨true, 8, false, []⟩ [⟨true, 2, false, [0x62]⟩]
    rw [items_item hfirst, items_item hsecond, items_incomplete hend] at hc
    have hc' := hc rfl rfl
    cases hc'
  · have hp := (regular_of_exact h).pings ⟨true, 9, false, List.replicate 126 0⟩
    rw [items_item head_pingStream] at hp
    have hle := hp List.mem_cons_self rfl
    rw [List.length_replicate] at hle
    omega

end Lish
