import Lish.Net.DelayedConnect
/-!
# Relay — the streams of a tunnel

Between two events nothing is lost in either direction: what the guest sent after its request is what the connection was
handed, then what is buffered, and what the guest is to get is what its socket took, then what is buffered.
-/
namespace Lish
namespace Tunnel

variable (cfg : DelayedConnectProxyConfiguration) {up : Prop} {t : Tunnel} {owed data : List U8} {socket : GuestSocket}

/-! ## What a tunnel is to relay -/

def accepts (header : List U8) : Bool :=
  decide (header.length + headEnd.length ≤ cfg.maximumHeaderBytes) && (ConnectRequestParser.parse header cfg.allowedPorts).isOk

/-- What follows the head of an accepted request. -/
def payload (bytes : List U8) : List U8 :=
  match splitHead bytes with
  | some (header, rest) => if accepts cfg header then rest else []
  | none => []

/-- The response to the bytes of a request; empty while there is none. -/
def responseTo (bytes : List U8) : List U8 :=
  match splitHead bytes with
  | none => if cfg.maximumHeaderBytes < bytes.length then rejection 431 "Request Header Fields Too Large" else []
  | some (header, _) =>
    if cfg.maximumHeaderBytes < header.length + headEnd.length then rejection 431 "Request Header Fields Too Large"
    else
      match ConnectRequestParser.parse header cfg.allowedPorts with
      | .ok _ => established
      | .error e => rejection e.status e.reason

/-- The request of a guest was accepted. -/
def Accepted (t : Tunnel) : Prop := ∃ s, splitHead t.guestReceived = some s ∧ accepts cfg s.1 = true

theorem payload_append {a : List U8} (h : ∃ s, splitHead a = some s ∧ accepts cfg s.1 = true) (b : List U8) :
    payload cfg (a ++ b) = payload cfg a ++ b := by
  obtain ⟨⟨header, rest⟩, hs, ha⟩ := h
  simp only [payload, splitHead_append hs b, hs, ha, if_true]

theorem Accepted.append {a : List U8} (h : ∃ s, splitHead a = some s ∧ accepts cfg s.1 = true) (b : List U8) :
    ∃ s, splitHead (a ++ b) = some s ∧ accepts cfg s.1 = true := by
  obtain ⟨⟨header, rest⟩, hs, ha⟩ := h
  exact ⟨_, splitHead_append hs b, ha⟩

/-! ## The invariant -/

/-- The bytes of both directions, `owed` of those from the guest not being buffered yet. -/
structure Streams (owed : List U8) (t : Tunnel) : Prop where
  upward : payload cfg t.guestReceived = t.upstreamSent ++ (t.upstreamOutput ++ owed)
  downward : t.guestWritten ++ t.guestOutput = t.answers.flatten ++ t.upstreamReceived
  room : t.upstreamOutput.length ≤ cfg.maximumBufferedBytes
  heads : t.answers.length ≤ 1
  eof : t.guestInputComplete = true → t.guestReadSource = false

/-- Nothing went to a connection or came from one. -/
structure Quiet (t : Tunnel) : Prop where
  sent : t.upstreamSent = []
  received : t.upstreamReceived = []
  idle : t.upstreamSendPending = false
  asked : t.upstreamReceivePending = false
  ended : t.upstreamInputComplete = false
  unfinished : t.upstreamOutputComplete = false

structure Reading (t : Tunnel) : Prop where
  quiet : t.Quiet
  reads : t.guestReadSource = true
  unconnected : t.upstream = none
  output : t.upstreamOutput = []
  fresh : t.receivedTunnelPayload = false ∧ t.resolvedAddresses = none ∧ t.nextAddressIndex = 0
  unanswered : t.closeAfterGuestOutput = false →
    t.requestBuffer = t.guestReceived ∧ splitHead t.guestReceived = none ∧ t.answers = [] ∧ t.guestOutput = []
  answered : t.closeAfterGuestOutput = true → t.guestReadSuspended = true ∧ t.answers.length = 1

structure Armed (up : Prop) (t : Tunnel) : Prop where
  quiet : t.Quiet
  accepted : Accepted cfg t
  head : t.answers.length = 1
  target : t.target.isSome = true
  reads : t.guestReadSource = true
  unconnected : t.upstream = none
  untried : t.nextAddressIndex = 0
  addresses : ∀ l, t.resolvedAddresses = some l → l ≠ []
  output : t.receivedTunnelPayload = false → t.upstreamOutput = []
  resolves : t.closeAfterGuestOutput = false → t.resolvedAddresses = none → t.resolving = true
  closing : t.closeAfterGuestOutput = true → t.guestReadSuspended = true
  live : up → t.closeAfterGuestOutput = true → t.receivedTunnelPayload = false

structure Connecting (up : Prop) (t : Tunnel) : Prop where
  quiet : t.Quiet
  accepted : Accepted cfg t
  head : t.answers.length = 1
  target : t.target.isSome = true
  live : up → t.upstream.isSome = true ∧ t.closeAfterGuestOutput = false

/-- Payload waits for the addresses of the target. -/
def Waiting (t : Tunnel) : Prop := t.receivedTunnelPayload = true → t.resolvedAddresses = none

/-- A tunnel, whether or not what is buffered for upstream is on its way. -/
structure Relaying (up : Prop) (t : Tunnel) : Prop where
  accepted : Accepted cfg t
  head : t.answers.length = 1
  ends : t.upstreamOutputComplete = true → t.guestInputComplete = true ∧ t.upstreamOutput = []
  room : t.upstreamReceivePending = true → t.guestOutput.length + t.receiveCapacity ≤ cfg.maximumBufferedBytes
  live : up → t.upstream.isSome = true ∧ t.closeAfterGuestOutput = false

/-- What is buffered for upstream waits for a send that is under way. -/
def Sending (t : Tunnel) : Prop :=
  t.upstream.isSome = true → t.upstreamSendPending = false →
    t.upstreamOutput = [] ∧ (t.guestInputComplete = true → t.upstreamOutputComplete = true)

/-- Nothing is left to relay. -/
structure Delivered (t : Tunnel) : Prop where
  head : t.answers.length = 1
  upstream : t.upstreamOutput = []
  idle : t.upstreamSendPending = false
  guest : t.guestOutput = []
  eof : payload cfg t.guestReceived ≠ [] → t.guestInputComplete = true

inductive Control (up : Prop) (t : Tunnel) : Prop
  | reading (hp : t.phase = .readingRequest) (h : t.Reading)
  | armed (hp : t.phase = .armed) (h : Armed cfg up t) (hw : t.Waiting)
  | connecting (hp : t.phase = .connecting) (h : Connecting cfg up t)
  | tunneling (hp : t.phase = .tunneling) (h : Relaying cfg up t) (hs : t.Sending)
  | closed (hp : t.phase = .closed) (h : up → Delivered cfg t)

/-- What is buffered for the guest waits for its socket. -/
structure Flushed (t : Tunnel) : Prop where
  blocked : t.guestOutput ≠ [] → t.guestWriteSource = true
  stays : t.guestOutput = [] → t.closeAfterGuestOutput = false
  shut : t.guestOutput = [] → t.upstreamInputComplete = true → t.guestOutputComplete = true

/-- More is asked of upstream, unless the guest takes nothing now. -/
def Asking (t : Tunnel) : Prop :=
  t.phase = .tunneling → t.guestOutput = [] → t.upstream.isSome = true → t.upstreamReceivePending = true ∨
    t.upstreamInputComplete = true

/-- A session between two events; `up` while both ends stay up. -/
structure Between (up : Prop) (owed : List U8) (t : Tunnel) : Prop where
  streams : Streams cfg owed t
  control : Control cfg up t
  room : t.guestOutput.length ≤ cfg.maximumBufferedBytes
  flushed : t.phase ≠ .closed → t.Flushed
  asking : t.Asking

variable {cfg}

/-! ## Closing -/

theorem Between.of_closed (hp : t.phase = .closed) (hs : Streams cfg owed t) (hd : up → Delivered cfg t)
    (hr : t.guestOutput.length ≤ cfg.maximumBufferedBytes) : Between cfg up owed t :=
  ⟨hs, .closed hp hd, hr, fun h => absurd hp h, fun h => by rw [hp] at h; cases h⟩

theorem Between.stop (hs : Streams cfg owed t) (hd : up → Delivered cfg t) (hr : t.guestOutput.length ≤ cfg.maximumBufferedBytes) :
    Between cfg up owed t.stop := by
  unfold Tunnel.stop
  split
  · rename_i hp
    exact .of_closed hp hs hd hr
  · refine .of_closed rfl ⟨hs.upward, hs.downward, hs.room, hs.heads, fun _ => rfl⟩ (fun hu => ?_) hr
    exact ⟨(hd hu).head, (hd hu).upstream, (hd hu).idle, (hd hu).guest, (hd hu).eof⟩

/-! ## Phases -/

theorem Control.of_reading (hc : Control cfg up t) (hp : t.phase = .readingRequest) : t.Reading := by
  cases hc with
  | reading _ h => exact h
  | armed hq => rw [hp] at hq; cases hq
  | connecting hq => rw [hp] at hq; cases hq
  | tunneling hq => rw [hp] at hq; cases hq
  | closed hq => rw [hp] at hq; cases hq

theorem Control.of_armed (hc : Control cfg up t) (hp : t.phase = .armed) : Armed cfg up t ∧ t.Waiting := by
  cases hc with
  | armed _ h hw => exact ⟨h, hw⟩
  | reading hq => rw [hp] at hq; cases hq
  | connecting hq => rw [hp] at hq; cases hq
  | tunneling hq => rw [hp] at hq; cases hq
  | closed hq => rw [hp] at hq; cases hq

theorem Control.of_connecting (hc : Control cfg up t) (hp : t.phase = .connecting) : Connecting cfg up t := by
  cases hc with
  | connecting _ h => exact h
  | reading hq => rw [hp] at hq; cases hq
  | armed hq => rw [hp] at hq; cases hq
  | tunneling hq => rw [hp] at hq; cases hq
  | closed hq => rw [hp] at hq; cases hq

theorem Control.of_tunneling (hc : Control cfg up t) (hp : t.phase = .tunneling) : Relaying cfg up t ∧ t.Sending := by
  cases hc with
  | tunneling _ h hs => exact ⟨h, hs⟩
  | reading hq => rw [hp] at hq; cases hq
  | armed hq => rw [hp] at hq; cases hq
  | connecting hq => rw [hp] at hq; cases hq
  | closed hq => rw [hp] at hq; cases hq

theorem Control.of_closed (hc : Control cfg up t) (hp : t.phase = .closed) : up → Delivered cfg t := by
  cases hc with
  | closed _ h => exact h
  | reading hq => rw [hp] at hq; cases hq
  | armed hq => rw [hp] at hq; cases hq
  | connecting hq => rw [hp] at hq; cases hq
  | tunneling hq => rw [hp] at hq; cases hq

/-- A session that closes after its last bytes for the guest has nothing for upstream. -/
theorem Control.closing (hc : Control cfg up t) (hs : Streams cfg owed t) (ho : owed ≠ [] → t.closeAfterGuestOutput = false)
    (hcl : t.closeAfterGuestOutput = true) (hg : t.guestOutput = []) (hu : up) : Delivered cfg t := by
  have howed : owed = [] := by
    by_contra hne
    rw [ho hne] at hcl
    cases hcl
  have hpay : t.upstreamSent = [] → t.upstreamOutput = [] → payload cfg t.guestReceived = [] := fun h₁ h₂ => by
    rw [hs.upward, h₁, h₂, howed]
    rfl
  cases hc with
  | reading hp h => exact ⟨(h.answered hcl).2, h.output, h.quiet.idle, hg, fun hne => absurd (hpay h.quiet.sent h.output) hne⟩
  | armed hp h hw =>
    have hout := h.output (h.live hu hcl)
    exact ⟨h.head, hout, h.quiet.idle, hg, fun hne => absurd (hpay h.quiet.sent hout) hne⟩
  | connecting hp h =>
    rw [(h.live hu).2] at hcl
    cases hcl
  | tunneling hp h hsend =>
    rw [(h.live hu).2] at hcl
    cases hcl
  | closed hp h => exact h hu

/-- Once both streams have ended and the last send is done, everything is delivered. -/
theorem Control.finished (hc : Control cfg up t) (hg : t.guestInputComplete = true) (hin : t.upstreamInputComplete = true)
    (hidle : t.upstreamSendPending = false) (hout : t.guestOutput = []) (hu : up) : Delivered cfg t := by
  have hended : ¬t.Quiet := fun h => by
    rw [h.ended] at hin
    cases hin
  cases hc with
  | reading hp h => exact absurd h.quiet hended
  | armed hp h hw => exact absurd h.quiet hended
  | connecting hp h => exact absurd h.quiet hended
  | tunneling hp h hs => exact ⟨h.head, (hs (h.live hu).1 hidle).1, hidle, hout, fun _ => hg⟩
  | closed hp h => exact h hu

theorem Between.finishIfComplete (h : Between cfg up owed t) : Between cfg up owed t.finishIfComplete := by
  unfold Tunnel.finishIfComplete
  split
  · rename_i hc
    simp only [Bool.and_eq_true, Bool.not_eq_true', decide_eq_true_eq] at hc
    obtain ⟨⟨⟨hg, hin⟩, hidle⟩, hout⟩ := hc
    exact .stop h.streams (h.control.finished hg hin hidle hout) h.room
  · exact h

/-! ## Bytes for the guest -/

/-- What is written to the guest, and what is asked of upstream, leaves the rest of a session as it was. -/
theorem Control.downward (h : Control cfg up t) {a b : List U8} {c d e : Bool} {f : ℕ} (hb : t.guestOutput = [] → b = [])
    (he : t.phase ≠ .tunneling → e = t.upstreamReceivePending)
    (hf : t.phase = .tunneling → e = true → b.length + f ≤ cfg.maximumBufferedBytes) :
    Control cfg up { t with
      guestWritten := a
      guestOutput := b
      guestWriteSource := c
      guestOutputComplete := d
      upstreamReceivePending := e
      receiveCapacity := f } := by
  have hquiet : t.phase ≠ .tunneling → t.Quiet → Quiet { t with
      guestWritten := a
      guestOutput := b
      guestWriteSource := c
      guestOutputComplete := d
      upstreamReceivePending := e
      receiveCapacity := f } := fun hn q => { q with asked := (he hn).trans q.asked }
  cases h with
  | reading hp h =>
    have hn : t.phase ≠ .tunneling := by rw [hp]; exact fun hc => (nomatch hc)
    refine .reading hp ⟨hquiet hn h.quiet, h.reads, h.unconnected, h.output, h.fresh, fun hc => ?_, h.answered⟩
    obtain ⟨h₁, h₂, h₃, h₄⟩ := h.unanswered hc
    exact ⟨h₁, h₂, h₃, hb h₄⟩
  | armed hp h hw =>
    have hn : t.phase ≠ .tunneling := by rw [hp]; exact fun hc => (nomatch hc)
    exact .armed hp { h with quiet := hquiet hn h.quiet } hw
  | connecting hp h =>
    have hn : t.phase ≠ .tunneling := by rw [hp]; exact fun hc => (nomatch hc)
    exact .connecting hp { h with quiet := hquiet hn h.quiet }
  | tunneling hp h hs => exact .tunneling hp ⟨h.accepted, h.head, h.ends, hf hp, h.live⟩ hs
  | closed hp h => exact .closed hp fun hu => ⟨(h hu).head, (h hu).upstream, (h hu).idle, hb (h hu).guest, (h hu).eof⟩

theorem Control.receiveRoom (h : Control cfg up t) (hp : t.phase = .tunneling) (he : t.upstreamReceivePending = true) :
    t.guestOutput.length + t.receiveCapacity ≤ cfg.maximumBufferedBytes := (h.of_tunneling hp).1.room he

theorem Between.receiveUpstream (hs : Streams cfg owed t) (hc : Control cfg up t) (hr :
    t.guestOutput.length ≤ cfg.maximumBufferedBytes)
    (hf : t.phase ≠ .closed → t.Flushed) : Between cfg up owed (t.receiveUpstream cfg) := by
  unfold Tunnel.receiveUpstream
  split
  · rename_i hcond
    refine ⟨⟨hs.upward, hs.downward, hs.room, hs.heads, hs.eof⟩, hc.downward id (fun hn => absurd hcond.1 hn) (fun _ _ => ?_), hr,
      fun hp => ?_, fun _ _ _ => .inl rfl⟩
    · exact (Nat.add_le_add_left (min_le_right _ _) _).trans (Nat.add_sub_of_le hr).le
    · exact ⟨(hf hp).blocked, (hf hp).stays, (hf hp).shut⟩
  · rename_i hcond
    refine ⟨hs, hc, hr, hf, fun hp hg hu => ?_⟩
    by_contra hne
    rw [not_or, Bool.not_eq_true, Bool.not_eq_true] at hne
    refine hcond ⟨hp, by rw [hne.1]; rfl, by rw [hne.2]; rfl, ?_, hu⟩
    rw [hg]
    exact cfg.buffered

theorem Between.completeGuestOutput (hs : Streams cfg owed t) (hc : Control cfg up t)
    (hr : t.guestOutput.length ≤ cfg.maximumBufferedBytes) (hb : t.phase ≠ .closed → t.guestOutput ≠ [] → t.guestWriteSource = true)
    (hcl : t.phase ≠ .closed → t.guestOutput = [] → t.closeAfterGuestOutput = false) (ha : t.Asking) :
    Between cfg up owed t.completeGuestOutputWhenDrained := by
  unfold Tunnel.completeGuestOutputWhenDrained
  split
  · refine Between.finishIfComplete ⟨⟨hs.upward, hs.downward, hs.room, hs.heads, hs.eof⟩, hc.downward id (fun _ => rfl)
      hc.receiveRoom, hr, fun hp => ⟨hb hp, hcl hp, fun _ _ => rfl⟩, ha⟩
  · rename_i hcond
    refine ⟨hs, hc, hr, fun hp => ⟨hb hp, hcl hp, fun hg hin => ?_⟩, ha⟩
    rw [hin, hg] at hcond
    simpa using hcond

theorem Between.guestDrained (hs : Streams cfg owed t) (hc : Control cfg up t) (ho : owed ≠ [] → t.closeAfterGuestOutput = false)
    (hg : t.guestOutput = []) : Between cfg up owed (t.guestDrained cfg) := by
  have hr : t.guestOutput.length ≤ cfg.maximumBufferedBytes := by
    rw [hg]
    exact Nat.zero_le _
  have hs' : Streams cfg owed { t with guestWriteSource := false } := ⟨hs.upward, hs.downward, hs.room, hs.heads, hs.eof⟩
  have hc' : Control cfg up { t with guestWriteSource := false } := hc.downward id (fun _ => rfl) fun hp he => hc.receiveRoom hp he
  unfold Tunnel.guestDrained
  dsimp only
  split
  · rename_i hcl
    exact .stop hs' (hc'.closing hs' ho hcl hg) hr
  · rename_i hcl
    rw [Bool.not_eq_true] at hcl
    split
    · rename_i hin
      have h := Between.completeGuestOutput hs' hc' hr (fun _ hne => absurd hg hne) (fun _ _ => hcl) fun _ _ _ => .inr hin
      exact .receiveUpstream h.streams h.control h.room h.flushed
    · rename_i hin
      exact .receiveUpstream hs' hc' hr fun _ => ⟨fun hne => absurd hg hne, fun _ => hcl, fun _ h => absurd h hin⟩

/-- **Writing to the guest keeps a session.** -/
theorem Between.flushGuestOutput (hp : t.phase ≠ .closed) (hs : Streams cfg owed t) (hc : Control cfg up t)
    (ho : owed ≠ [] → t.closeAfterGuestOutput = false) (hr : (t.guestOutput.drop socket.room).length ≤ cfg.maximumBufferedBytes)
    (hu : up → socket.broken = false) : Between cfg up owed (t.flushGuestOutput cfg socket) := by
  have hdrop : (t.guestOutput.drop socket.room).length ≤ t.guestOutput.length := by
    rw [List.length_drop]
    exact Nat.sub_le _ _
  have hs' : Streams cfg owed { t with
      guestWritten := t.guestWritten ++ t.guestOutput.take socket.room
      guestOutput := t.guestOutput.drop socket.room } := by
    refine ⟨hs.upward, ?_, hs.room, hs.heads, hs.eof⟩
    rw [← hs.downward]
    exact (List.append_assoc _ _ _).trans (congrArg _ (List.take_append_drop _ _))
  have hc' : Control cfg up { t with
      guestWritten := t.guestWritten ++ t.guestOutput.take socket.room
      guestOutput := t.guestOutput.drop socket.room } :=
    hc.downward (fun h => by rw [h]; exact List.drop_nil) (fun _ => rfl)
      fun hp he => (Nat.add_le_add_right hdrop _).trans (hc.receiveRoom hp he)
  unfold Tunnel.flushGuestOutput
  rw [if_neg hp]
  dsimp only
  split
  · rename_i hg
    exact .guestDrained hs' hc' ho hg
  · rename_i hg
    split
    · rename_i hbroken
      exact .stop hs' (fun h => by rw [hu h] at hbroken; cases hbroken) hr
    · refine ⟨⟨hs'.upward, hs'.downward, hs'.room, hs'.heads, hs'.eof⟩, ?_, hr, fun _ => ⟨fun _ => rfl, fun h => absurd h hg,
        fun h => absurd h hg⟩, fun _ h => absurd h hg⟩
      exact hc'.downward id (fun _ => rfl) hc'.receiveRoom

theorem flush_open (hb : socket.broken = false) (hcl : t.closeAfterGuestOutput = false) (hin : t.upstreamInputComplete = false) :
    (t.flushGuestOutput cfg socket).phase = t.phase := by
  unfold Tunnel.flushGuestOutput Tunnel.guestDrained Tunnel.receiveUpstream
  simp only [hb, hcl, hin, Bool.false_eq_true, if_false]
  split_ifs <;> rfl

/-! ## Bytes for upstream -/

/-- A send takes all that is buffered; nothing else changes but the end of the stream and the reading. -/
theorem sendUpstream_eq (cfg : DelayedConnectProxyConfiguration) (hp : t.phase = .tunneling) (hends :
    t.upstreamOutputComplete = true → t.guestInputComplete = true ∧ t.upstreamOutput = []) :
    ∃ (suspended pending complete : Bool) (sent out : List U8),
      t.sendUpstream cfg = { t with
        guestReadSuspended := suspended
        upstreamSendPending := pending
        upstreamOutputComplete := complete
        upstreamSent := sent
        upstreamOutput := out } ∧
      sent ++ out = t.upstreamSent ++ t.upstreamOutput ∧ out.length ≤ t.upstreamOutput.length ∧
      (complete = true → t.guestInputComplete = true ∧ out = []) ∧
      (t.upstream.isSome = true → pending = false → out = [] ∧ (t.guestInputComplete = true → complete = true)) ∧
      (t.upstream.isSome = true → t.upstreamSendPending = false → out = []) := by
  unfold Tunnel.sendUpstream
  split
  · rename_i hc
    split
    · rename_i hout
      dsimp only [Tunnel.resumeGuestReadIfPossible]
      split
      · rename_i hg
        exact ⟨_, _, _, _, _, rfl, rfl, le_rfl, fun _ => ⟨hg.1, hout⟩, fun _ h => (nomatch h), fun _ _ => hout⟩
      · rename_i hg
        refine ⟨_, _, _, _, _, rfl, rfl, le_rfl, hends, fun _ _ => ⟨hout, fun h => ?_⟩, fun _ _ => hout⟩
        by_contra hne
        exact hg ⟨h, by simpa using hne⟩
    · refine ⟨_, true, _, _, [], rfl, List.append_nil _, Nat.zero_le _, fun h => ?_, fun _ h => (nomatch h), fun _ _ => rfl⟩
      rename_i hout
      exact absurd (hends h).2 hout
  · rename_i hc
    refine ⟨_, _, _, _, _, rfl, rfl, le_rfl, hends, fun hup hidle => ?_, fun hup hidle => ?_⟩
    · exact absurd ⟨hp, by rw [hidle]; rfl, hup⟩ hc
    · exact absurd ⟨hp, by rw [hidle]; rfl, hup⟩ hc

/-- **Sending what is buffered keeps a session.** -/
theorem Relaying.sendUpstream (hp : t.phase = .tunneling) (hs : Streams cfg [] t) (hc : Relaying cfg up t) (hf : t.Flushed) :
    Streams cfg [] (t.sendUpstream cfg) ∧ Control cfg up (t.sendUpstream cfg) ∧ (t.sendUpstream cfg).guestOutput = t.guestOutput ∧
      (t.sendUpstream cfg).Flushed ∧ (t.Asking → (t.sendUpstream cfg).Asking) := by
  obtain ⟨suspended, pending, complete, sent, out, he, hkeep, hlen, hends, hsend, -⟩ := sendUpstream_eq cfg hp hc.ends
  rw [he]
  refine ⟨⟨?_, hs.downward, hlen.trans hs.room, hs.heads, hs.eof⟩, .tunneling hp ⟨hc.accepted, hc.head, hends, hc.room, hc.live⟩
    hsend,
    rfl, { hf with }, id⟩
  exact hs.upward.trans (by rw [List.append_nil, List.append_nil, hkeep])

theorem Between.sendUpstream (hp : t.phase = .tunneling) (hs : Streams cfg [] t) (hc : Relaying cfg up t)
    (hr : t.guestOutput.length ≤ cfg.maximumBufferedBytes) (hf : t.Flushed) (ha : t.Asking) : Between cfg up []
      (t.sendUpstream cfg) := by
  obtain ⟨hs', hc', hg, hf', ha'⟩ := hc.sendUpstream hp hs hf
  exact ⟨hs', hc', by rw [hg]; exact hr, fun _ => hf', ha' ha⟩

theorem Control.suspend (h : Control cfg up t) : Control cfg up t.suspendGuestRead := by
  cases h with
  | reading hp h =>
    refine .reading hp ⟨{ h.quiet with }, h.reads, h.unconnected, h.output,
      h.fresh, h.unanswered, fun hc => ⟨?_, (h.answered hc).2⟩⟩
    change (t.guestReadSuspended || t.guestReadSource) = true
    rw [h.reads, Bool.or_true]
  | armed hp h hw =>
    refine .armed hp { h with
      quiet := { h.quiet with }, closing := fun _ => ?_ } hw
    change (t.guestReadSuspended || t.guestReadSource) = true
    rw [h.reads, Bool.or_true]
  | connecting hp h =>
    exact .connecting hp { h with quiet := { h.quiet with } }
  | tunneling hp h hs => exact .tunneling hp ⟨h.accepted, h.head, h.ends, h.room, h.live⟩ hs
  | closed hp h => exact .closed hp fun hu => ⟨(h hu).head, (h hu).upstream, (h hu).idle, (h hu).guest, (h hu).eof⟩

theorem Between.suspend (h : Between cfg up owed t) : Between cfg up owed t.suspendGuestRead :=
  ⟨⟨h.streams.upward, h.streams.downward, h.streams.room, h.streams.heads, h.streams.eof⟩, h.control.suspend, h.room,
    fun hp => ⟨(h.flushed hp).blocked, (h.flushed hp).stays, (h.flushed hp).shut⟩, h.asking⟩

/-- A session that is to end once the guest has read what is written. -/
theorem Between.closeAfterPending (hs : Streams cfg [] t) (hc :
    Control cfg up { t.suspendGuestRead with closeAfterGuestOutput := true })
    (hr : t.guestOutput.length ≤ cfg.maximumBufferedBytes) (hf : t.Flushed) (ha : t.Asking) :
    Between cfg up [] t.closeAfterPendingGuestOutput := by
  have hs' : Streams cfg [] { t.suspendGuestRead with closeAfterGuestOutput := true } :=
    ⟨hs.upward, hs.downward, hs.room, hs.heads, hs.eof⟩
  unfold Tunnel.closeAfterPendingGuestOutput
  dsimp only
  split
  · rename_i hg
    exact .stop hs' (hc.closing hs' (fun h => absurd rfl h) rfl hg) hr
  · rename_i hg
    exact ⟨hs', hc, hr, fun _ => ⟨hf.blocked, fun h => absurd h hg, hf.shut⟩, ha⟩

theorem Armed.shut (h : Armed cfg up t) (hu : up → t.receivedTunnelPayload = false) (r p : Bool) :
    Armed cfg up { t.suspendGuestRead with
    closeAfterGuestOutput := true, resolving := r, prePayloadTimer := p } := by
  refine { h with
    quiet := { h.quiet with }, resolves := fun hn => (nomatch hn), closing := fun _ => ?_, live := fun h' _ => hu h' }
  change (t.guestReadSuspended || t.guestReadSource) = true
  rw [h.reads, Bool.or_true]

/-! ## Connecting -/

theorem Between.connectNextAddress (hp : t.phase = .connecting) (hs : Streams cfg [] t) (hc : Connecting cfg False t)
    (hr : t.guestOutput.length ≤ cfg.maximumBufferedBytes) (hf : t.Flushed)
    (hu : up → 0 < t.addressesLeft ∧ t.closeAfterGuestOutput = false) : Between cfg up [] t.connectNextAddress := by
  unfold Tunnel.connectNextAddress
  split
  · refine ⟨⟨?_, hs.downward, hs.room, hs.heads, hs.eof⟩, .connecting hp ⟨{ hc.quiet with sent := rfl }, hc.accepted, hc.head,
      hc.target, fun h => ⟨rfl, (hu h).2⟩⟩, hr, fun _ => ⟨hf.blocked, hf.stays, hf.shut⟩,
      fun h => ?_⟩
    · rw [hs.upward, hc.quiet.sent]
    · rw [show t.phase = .tunneling from h] at hp
      cases hp
  · rename_i hcond
    have hnot : ¬up := fun h => hcond ⟨hp, (hu h).1, hc.target⟩
    have hc' : Connecting cfg up { t.suspendGuestRead with closeAfterGuestOutput := true } :=
      { hc with quiet := { hc.quiet with }, live := fun h => absurd h hnot }
    refine .closeAfterPending hs (.connecting hp hc') hr hf fun h => ?_
    rw [hp] at h
    cases h

theorem Between.maybeConnect (hp : t.phase = .armed) (hs : Streams cfg [] t) (hc : Armed cfg up t)
    (hr : t.guestOutput.length ≤ cfg.maximumBufferedBytes) (hf : t.Flushed) : Between cfg up [] t.maybeConnect := by
  unfold Tunnel.maybeConnect
  split
  · rename_i hcond
    obtain ⟨l, hl⟩ := Option.isSome_iff_exists.1 hcond.2.2
    refine .connectNextAddress rfl ⟨hs.upward, hs.downward, hs.room, hs.heads, hs.eof⟩
      ⟨{ hc.quiet with }, hc.accepted, hc.head, hc.target, False.elim⟩ hr
      ⟨hf.blocked, hf.stays, hf.shut⟩ fun h => ⟨?_, ?_⟩
    · change 0 < (t.resolvedAddresses.getD []).length - t.nextAddressIndex
      rw [hl, hc.untried]
      exact List.length_pos_of_ne_nil (hc.addresses l hl)
    · by_contra hne
      rw [Bool.not_eq_false] at hne
      have := hcond.2.1
      rw [hc.live h hne] at this
      cases this
  · rename_i hcond
    refine ⟨hs, .armed hp hc fun hrec => ?_, hr, fun _ => hf, fun h => ?_⟩
    · by_contra hne
      exact hcond ⟨hp, hrec, Option.isSome_iff_ne_none.2 hne⟩
    · rw [hp] at h
      cases h

/-! ## The guest's bytes -/

/-- **Payload that fits is buffered.** -/
theorem Between.bufferForUpstream (h : Between cfg up data t) (hread : t.phase ≠ .readingRequest) (hclosed : t.phase = .closed →
    ¬up)
    (hcl : t.phase = .armed → t.closeAfterGuestOutput = false) (hin : t.phase = .tunneling → t.guestInputComplete = false)
      (hfit : t.upstreamOutput.length + data.length ≤ cfg.maximumBufferedBytes) :
    Between cfg up [] (t.bufferForUpstream cfg data) := by
  unfold Tunnel.bufferForUpstream
  split
  · rename_i hd
    subst hd
    exact h
  · dsimp only
    rw [if_neg (not_lt.2 hfit)]
    obtain ⟨b, hb, he⟩ : ∃ b, (t.guestReadSuspended = true → b = true) ∧
        (if (t.upstreamOutput ++ data).length = cfg.maximumBufferedBytes then
          suspendGuestRead { t with receivedTunnelPayload := true, upstreamOutput := t.upstreamOutput ++ data }
        else { t with receivedTunnelPayload := true, upstreamOutput := t.upstreamOutput ++ data }) =
          { t with receivedTunnelPayload := true, upstreamOutput := t.upstreamOutput ++ data, guestReadSuspended := b } := by
      split
      · exact ⟨_, fun hb => by rw [hb]; rfl, rfl⟩
      · exact ⟨_, id, rfl⟩
    rw [he]
    have hs : Streams cfg [] { t with
        receivedTunnelPayload := true, upstreamOutput := t.upstreamOutput ++ data, guestReadSuspended := b } := by
      refine ⟨?_, h.streams.downward, ?_, h.streams.heads, h.streams.eof⟩
      · rw [h.streams.upward, List.append_nil]
      · rw [List.length_append]
        exact hfit
    have hf : t.phase ≠ .closed → Flushed { t with
        receivedTunnelPayload := true, upstreamOutput := t.upstreamOutput ++ data, guestReadSuspended := b } := fun hp =>
      ⟨(h.flushed hp).blocked, (h.flushed hp).stays, (h.flushed hp).shut⟩
    cases h.control with
    | reading hp _ => exact absurd hp hread
    | armed hp hc hw =>
      rw [if_pos hp]
      refine .maybeConnect hp hs ⟨{ hc.quiet with }, hc.accepted, hc.head, hc.target, hc.reads, hc.unconnected, hc.untried,
        hc.addresses,
        fun hn => (nomatch hn), hc.resolves, fun hc' => hb (hc.closing hc'), fun _ hn => ?_⟩ h.room (hf
          (by rw [hp]; exact fun hn => (nomatch hn)))
      rw [show t.closeAfterGuestOutput = true from hn] at hcl
      exact absurd (hcl hp) (fun hn => (nomatch hn))
    | connecting hp hc =>
      rw [if_neg (by rw [hp]; exact fun hn => (nomatch hn)), if_neg (by rw [hp]; exact fun hn => (nomatch hn))]
      exact ⟨hs, .connecting hp { hc with quiet := { hc.quiet with } }, h.room, hf, h.asking⟩
    | tunneling hp hc hsend =>
      rw [if_neg (by rw [hp]; exact fun hn => (nomatch hn)), if_pos hp]
      have hends : t.upstreamOutputComplete ≠ true := fun hn => by
        rw [(hc.ends hn).1] at hin
        exact absurd (hin hp) (fun h => (nomatch h))
      exact .sendUpstream hp hs ⟨hc.accepted, hc.head, fun hn => absurd hn hends, hc.room, hc.live⟩ h.room
        (hf (by rw [hp]; exact fun hn => (nomatch hn))) h.asking
    | closed hp hd =>
      rw [if_neg (by rw [hp]; exact fun hn => (nomatch hn)), if_neg (by rw [hp]; exact fun hn => (nomatch hn))]
      exact .of_closed hp hs (fun hu => absurd hu (hclosed hp)) h.room

/-- A response head to a guest that has had none. -/
theorem Between.answer (hp : t.phase ≠ .closed) (hs : Streams cfg owed t) (head : List U8) (hnone : t.answers = [] ∧
    t.guestOutput = [] ∧
      t.upstreamReceived = []) (hc : Control cfg up { t with answers := t.answers ++ [head], guestOutput := t.guestOutput ++ head })
    (ho : owed ≠ [] → t.closeAfterGuestOutput = false) (hroom : head.length ≤ cfg.maximumBufferedBytes + socket.room)
    (hu : up → socket.broken = false) : Between cfg up owed (t.answer cfg socket head) := by
  have hs' : Streams cfg owed { t with answers := t.answers ++ [head], guestOutput := t.guestOutput ++ head } := by
    refine ⟨hs.upward, ?_, hs.room, ?_, hs.eof⟩
    · have hd := hs.downward
      rw [hnone.1, hnone.2.1, hnone.2.2, List.append_nil] at hd
      change t.guestWritten ++ (t.guestOutput ++ head) = (t.answers ++ [head]).flatten ++ t.upstreamReceived
      rw [hd, hnone.1, hnone.2.1, hnone.2.2]
      simp
    · change (t.answers ++ [head]).length ≤ 1
      rw [hnone.1]
      exact le_rfl
  unfold Tunnel.answer Tunnel.enqueueGuest
  rw [if_neg hp]
  refine .flushGuestOutput hp hs' hc ho ?_ hu
  change ((t.guestOutput ++ head).drop socket.room).length ≤ _
  rw [hnone.2.1, List.nil_append, List.length_drop]
  omega

/-- A session whose request is not answered yet. -/
structure Unanswered (t : Tunnel) : Prop where
  phase : t.phase = .readingRequest
  quiet : t.Quiet
  reads : t.guestReadSource = true
  unconnected : t.upstream = none
  output : t.upstreamOutput = []
  fresh : t.receivedTunnelPayload = false ∧ t.resolvedAddresses = none ∧ t.nextAddressIndex = 0
  silent : t.answers = [] ∧ t.guestOutput = [] ∧ t.guestWritten = []
  open' : t.closeAfterGuestOutput = false ∧ t.guestInputComplete = false

theorem Between.unanswered (h : Between cfg up owed t) (hp : t.phase = .readingRequest) (hcl : t.closeAfterGuestOutput = false) :
    t.Unanswered ∧ t.requestBuffer = t.guestReceived := by
  have hc := h.control.of_reading hp
  obtain ⟨hbuf, -, hans, hout⟩ := hc.unanswered hcl
  have hd := h.streams.downward
  rw [hans, hout, hc.quiet.received, List.append_nil] at hd
  refine ⟨⟨hp, hc.quiet, hc.reads, hc.unconnected, hc.output, hc.fresh, ⟨hans, hout, hd⟩, hcl, ?_⟩, hbuf⟩
  by_contra hin
  have := hc.reads.symm.trans (h.streams.eof (Bool.not_eq_false _ ▸ hin))
  cases this

theorem Unanswered.streams (h : t.Unanswered) (hpay : payload cfg t.guestReceived = owed) : Streams cfg owed t := by
  refine ⟨?_, ?_, ?_, ?_, fun hin => ?_⟩
  · rw [hpay, h.quiet.sent, h.output]
    rfl
  · rw [h.silent.1, h.silent.2.1, h.silent.2.2, h.quiet.received]
    rfl
  · rw [h.output]
    exact Nat.zero_le _
  · rw [h.silent.1]
    exact Nat.zero_le _
  · rw [h.open'.2] at hin
    cases hin

/-- A request that is rejected. -/
theorem Unanswered.respondAndClose (h : t.Unanswered) (hpay : payload cfg t.guestReceived = []) (status : ℕ) (reason : String)
    (hroom : (rejection status reason).length ≤ cfg.maximumBufferedBytes + socket.room) (hu : up → socket.broken = false) :
    Between cfg up [] (t.respondAndClose cfg socket status reason) := by
  have hs := h.streams hpay
  have hs' : Streams cfg [] { t.suspendGuestRead with closeAfterGuestOutput := true } :=
    ⟨hs.upward, hs.downward, hs.room, hs.heads, hs.eof⟩
  have hp : t.phase ≠ .closed := by
    rw [h.phase]
    exact fun hn => (nomatch hn)
  refine Between.answer (t := { t.suspendGuestRead with closeAfterGuestOutput := true }) hp hs' _
    ⟨h.silent.1, h.silent.2.1, h.quiet.received⟩ (.reading h.phase ?_) (fun hn => absurd rfl hn) hroom hu
  refine ⟨{ h.quiet with }, h.reads, h.unconnected, h.output, h.fresh, fun hn => (nomatch hn), fun _ => ⟨?_, ?_⟩⟩
  · change (t.guestReadSuspended || t.guestReadSource) = true
    rw [h.reads, Bool.or_true]
  · change (t.answers ++ [_]).length = 1
    rw [h.silent.1]
    rfl

/-- What is written to the guest changes nothing else, but may end the session. -/
def Kept (t r : Tunnel) : Prop :=
  r.closeAfterGuestOutput = t.closeAfterGuestOutput ∧ r.upstreamOutput = t.upstreamOutput ∧ (r.phase = t.phase ∨ r.phase = .closed)

theorem stop_kept (t : Tunnel) : t.Kept t.stop := by
  unfold Tunnel.stop
  split
  · exact ⟨rfl, rfl, .inl rfl⟩
  · exact ⟨rfl, rfl, .inr rfl⟩

theorem completeGuestOutput_kept (t : Tunnel) : t.Kept t.completeGuestOutputWhenDrained := by
  unfold Tunnel.completeGuestOutputWhenDrained Tunnel.finishIfComplete
  split
  · split
    · exact stop_kept { t with guestOutputComplete := true }
    · exact ⟨rfl, rfl, .inl rfl⟩
  · exact ⟨rfl, rfl, .inl rfl⟩

theorem receiveUpstream_kept (cfg : DelayedConnectProxyConfiguration) {r : Tunnel} (h : t.Kept r) : t.Kept
    (r.receiveUpstream cfg) := by
  unfold Tunnel.receiveUpstream
  split
  · exact h
  · exact h

theorem guestDrained_kept (t : Tunnel) : t.Kept (t.guestDrained cfg) := by
  unfold Tunnel.guestDrained
  dsimp only
  split
  · exact stop_kept { t with guestWriteSource := false }
  · split
    · exact receiveUpstream_kept cfg (completeGuestOutput_kept { t with guestWriteSource := false })
    · exact receiveUpstream_kept cfg ⟨rfl, rfl, .inl rfl⟩

theorem flushGuestOutput_kept (t : Tunnel) : t.Kept (t.flushGuestOutput cfg socket) := by
  unfold Tunnel.flushGuestOutput
  dsimp only
  split
  · exact ⟨rfl, rfl, .inl rfl⟩
  split
  · exact guestDrained_kept { t with guestWritten := _, guestOutput := _ }
  split
  · exact stop_kept { t with guestWritten := _, guestOutput := _ }
  · exact ⟨rfl, rfl, .inl rfl⟩

theorem enqueueGuest_kept (cfg : DelayedConnectProxyConfiguration) (socket : GuestSocket) (data : List U8) (t : Tunnel) :
    t.Kept (t.enqueueGuest cfg socket data) := by
  unfold Tunnel.enqueueGuest
  split
  · exact ⟨rfl, rfl, .inl rfl⟩
  · exact flushGuestOutput_kept { t with guestOutput := _ }

theorem answer_kept (cfg : DelayedConnectProxyConfiguration) (socket : GuestSocket) (head : List U8) (t : Tunnel) :
    t.Kept (t.answer cfg socket head) := enqueueGuest_kept cfg socket head { t with answers := t.answers ++ [head] }

theorem answer_open (cfg : DelayedConnectProxyConfiguration) (hb : socket.broken = false) (hcl :
    t.closeAfterGuestOutput = false) (hin : t.upstreamInputComplete = false)
    (head : List U8) : (t.answer cfg socket head).phase = t.phase := by
  unfold Tunnel.answer Tunnel.enqueueGuest
  split
  · rfl
  · exact flush_open (t := { t with answers := _, guestOutput := _ }) hb hcl hin

/-- A request that is accepted: the tunnel is armed, and the payload that came with it kept. -/
theorem Unanswered.accept (h : t.Unanswered) (hacc : Accepted cfg t) (target : ConnectTarget)
    (hfit : (payload cfg t.guestReceived).length ≤ cfg.maximumBufferedBytes)
    (hroom : established.length ≤ cfg.maximumBufferedBytes + socket.room) (hu : up → socket.broken = false) :
    Between cfg up [] (((t.arm target).answer cfg socket established).bufferForUpstream cfg (payload cfg t.guestReceived)) := by
  have hs : Streams cfg _ t := h.streams rfl
  have hbetween : Between cfg up (payload cfg t.guestReceived) ((t.arm target).answer cfg socket established) := by
    refine Between.answer (t := t.arm target) (fun hn => (nomatch hn)) ⟨hs.upward, hs.downward, hs.room, hs.heads, hs.eof⟩ _
      ⟨h.silent.1, h.silent.2.1, h.quiet.received⟩ (.armed rfl ?_ ?_) (fun _ => h.open'.1) hroom hu
    · refine ⟨{ h.quiet with }, hacc, ?_, rfl, h.reads, h.unconnected, h.fresh.2.2, fun l hl => ?_, fun _ => h.output,
        fun _ _ => rfl,
        fun hn => ?_, fun _ hn => ?_⟩
      · change (t.answers ++ [established]).length = 1
        rw [h.silent.1]
        rfl
      · exact absurd (h.fresh.2.1.symm.trans hl) (fun hn => (nomatch hn))
      · exact absurd (h.open'.1.symm.trans hn) (fun hn => (nomatch hn))
      · exact absurd (h.open'.1.symm.trans hn) (fun hn => (nomatch hn))
    · exact fun hn => absurd (h.fresh.1.symm.trans hn) (fun hn => (nomatch hn))
  have hin : (t.arm target).upstreamInputComplete = false := h.quiet.ended
  obtain ⟨hcl, hout, hphase⟩ := answer_kept cfg socket established (t.arm target)
  have hphase' : ((t.arm target).answer cfg socket established).phase = .armed ∨
      ((t.arm target).answer cfg socket established).phase = .closed := hphase
  refine hbetween.bufferForUpstream ?_ (fun hclosed hup => ?_) (fun _ => hcl.trans h.open'.1) ?_ ?_
  · rcases hphase' with hq | hq
    · rw [hq]
      exact fun hn => (nomatch hn)
    · rw [hq]
      exact fun hn => (nomatch hn)
  · have := answer_open cfg (t := t.arm target) (hu hup) h.open'.1 hin established
    rw [hclosed] at this
    cases this
  · intro hq
    rw [hq] at hphase'
    exact absurd hphase' (by simp)
  · rw [hout, show (t.arm target).upstreamOutput = [] from h.output]
    exact (Nat.zero_add _).trans_le hfit

/-! ## One event -/

/-- The bytes the guest sends in an event before its request is answered are answered within the limits. -/
def Answerable (cfg : DelayedConnectProxyConfiguration) (socket : GuestSocket) (bytes : List U8) : Prop :=
  (payload cfg bytes).length ≤ cfg.maximumBufferedBytes ∧ (responseTo cfg bytes).length ≤ cfg.maximumBufferedBytes + socket.room

/-- **The bytes of a request**, however they are cut. -/
theorem Unanswered.readRequest (h : t.Unanswered) (hbuf : t.requestBuffer = t.guestReceived) (hans :
    Answerable cfg socket t.guestReceived)
    (hu : up → socket.broken = false) : Between cfg up [] (t.readRequest cfg socket) := by
  obtain ⟨hfit, hroom⟩ := hans
  have hnew : Unanswered { t with requestBuffer := [] } := { h with quiet := { h.quiet with } }
  unfold Tunnel.readRequest
  rw [hbuf]
  split
  · rename_i hnone
    have hpay : payload cfg t.guestReceived = [] := by
      simp only [payload, hnone]
    split
    · rename_i hbig
      simp only [responseTo, hnone, if_pos hbig] at hroom
      exact h.respondAndClose hpay _ _ hroom hu
    · refine ⟨h.streams hpay, .reading h.phase ⟨h.quiet, h.reads, h.unconnected, h.output, h.fresh,
        fun _ => ⟨hbuf, hnone, h.silent.1, h.silent.2.1⟩, fun hn => absurd (h.open'.1.symm.trans hn) (fun hn => (nomatch hn))⟩, ?_,
        fun _ => ⟨fun hn => absurd h.silent.2.1 hn, fun _ => h.open'.1, fun _ hin => absurd (h.quiet.ended.symm.trans hin)
          (fun hn => (nomatch hn))⟩,
        fun hn => absurd (h.phase.symm.trans hn) (fun hn => (nomatch hn))⟩
      rw [h.silent.2.1]
      exact Nat.zero_le _
  · rename_i header rest hsome
    split
    · rename_i hbig
      have hno : accepts cfg header = false := by
        simp only [accepts, Bool.and_eq_false_iff, decide_eq_false_iff_not]
        exact .inl (not_le.2 hbig)
      simp only [responseTo, hsome, if_pos hbig] at hroom
      refine h.respondAndClose ?_ _ _ hroom hu
      simp only [payload, hsome, hno, Bool.false_eq_true, if_false]
    · rename_i hsize
      simp only [responseTo, hsome, if_neg hsize] at hroom
      unfold Tunnel.requestRead
      dsimp only
      cases hparse : ConnectRequestParser.parse header cfg.allowedPorts with
      | error e =>
        have hno : accepts cfg header = false := by
          simp only [accepts, hparse, Except.isOk, Except.toBool, Bool.and_false]
        rw [hparse] at hroom
        refine hnew.respondAndClose ?_ _ _ hroom hu
        simp only [payload, hsome, hno, Bool.false_eq_true, if_false]
      | ok target =>
        have hyes : accepts cfg header = true := by
          simp only [accepts, hparse, Except.isOk, Except.toBool, Bool.and_true, decide_eq_true_eq]
          exact not_lt.1 hsize
        have hpay : payload cfg t.guestReceived = rest := by
          simp only [payload, hsome, hyes, if_true]
        rw [hparse] at hroom
        rw [← hpay]
        exact hnew.accept ⟨_, hsome, hyes⟩ target hfit hroom hu

/-- The guest's bytes after its request are owed to upstream. -/
theorem Between.owe (h : Between cfg up [] t) (hread : t.phase ≠ .readingRequest) (hopen : t.phase ≠ .closed) (data : List U8) :
    Between cfg up data { t with guestReceived := t.guestReceived ++ data } := by
  have hc : Accepted cfg t ∧ Control cfg up { t with guestReceived := t.guestReceived ++ data } := by
    cases h.control with
    | reading hp => exact absurd hp hread
    | armed hp hc hw =>
      exact ⟨hc.accepted, .armed hp { hc with quiet := { hc.quiet with }, accepted := .append cfg hc.accepted data } hw⟩
    | connecting hp hc =>
      exact ⟨hc.accepted, .connecting hp { hc with quiet := { hc.quiet with }, accepted := .append cfg hc.accepted data }⟩
    | tunneling hp hc hs => exact ⟨hc.accepted, .tunneling hp { hc with accepted := .append cfg hc.accepted data } hs⟩
    | closed hp => exact absurd hp hopen
  refine ⟨⟨?_, h.streams.downward, h.streams.room, h.streams.heads, h.streams.eof⟩, hc.2, h.room,
    fun hp => { h.flushed hp with }, h.asking⟩
  change payload cfg (t.guestReceived ++ data) = _
  rw [payload_append cfg hc.1, h.streams.upward, List.append_nil, List.append_assoc]

/-- **Payload read from the guest.** -/
theorem Between.payloadData (h : Between cfg up [] t) (hread : t.phase ≠ .readingRequest) (hopen : t.phase ≠ .closed) (hreads :
    t.Reads)
    (hfit : data.length ≤ cfg.maximumBufferedBytes - t.upstreamOutput.length) :
    Between cfg up [] ({ t with guestReceived := t.guestReceived ++ data }.bufferForUpstream cfg data) := by
  refine (h.owe hread hopen data).bufferForUpstream hread (fun hp => absurd hp hopen) (fun hp => ?_) (fun hp => ?_) ?_
  · by_contra hne
    have := hreads.2.symm.trans ((h.control.of_armed hp).1.closing (Bool.not_eq_false _ ▸ hne))
    cases this
  · by_contra hne
    have := hreads.1.symm.trans (h.streams.eof (Bool.not_eq_false _ ▸ hne))
    cases this
  · have := h.streams.room
    change t.upstreamOutput.length + data.length ≤ _
    omega

theorem Between.guestData (h : Between cfg up [] t) (hopen : t.phase ≠ .closed) (hreads : t.Reads) (hlen :
    data.length ≤ t.readCapacity cfg)
    (hans : t.phase = .readingRequest → Answerable cfg socket (t.requestBuffer ++ data)) (hu : up → socket.broken = false) :
    Between cfg up [] (t.processGuestData cfg socket data) := by
  unfold Tunnel.processGuestData
  unfold Tunnel.readCapacity at hlen
  dsimp only
  split
  · rename_i hp
    have hcl : t.closeAfterGuestOutput = false := by
      by_contra hne
      have := hreads.2.symm.trans ((h.control.of_reading hp).answered (Bool.not_eq_false _ ▸ hne)).1
      cases this
    obtain ⟨hun, hbuf⟩ := h.unanswered hp hcl
    have hans := hans hp
    rw [hbuf] at hans
    rw [hbuf]
    have hnew : Unanswered { t with guestReceived := t.guestReceived ++ data, requestBuffer := t.guestReceived ++ data } :=
      { hun with quiet := { hun.quiet with } }
    exact hnew.readRequest rfl hans hu
  all_goals
    rename_i hp
    rw [hp] at hlen
  · exact h.payloadData (by rw [hp]; exact fun hn => (nomatch hn)) hopen hreads (hlen.trans (min_le_right _ _))
  · exact h.payloadData (by rw [hp]; exact fun hn => (nomatch hn)) hopen hreads (hlen.trans (min_le_right _ _))
  · exact h.payloadData (by rw [hp]; exact fun hn => (nomatch hn)) hopen hreads (hlen.trans (min_le_right _ _))
  · exact absurd hp hopen

/-- **The guest's end of stream**; the payload of an armed tunnel would be lost. -/
theorem Between.guestEof (h : Between cfg up [] t) (hopen : t.phase ≠ .closed) (hread : t.phase ≠ .readingRequest)
    (harmed : t.phase = .armed → t.upstreamOutput = [] ∧ t.guestOutput = []) : Between cfg up []
      (t.handleGuestInputComplete cfg) := by
  have hs : Streams cfg [] (cancelGuestRead { t with guestInputComplete := true }) :=
    ⟨h.streams.upward, h.streams.downward, h.streams.room, h.streams.heads, fun _ => rfl⟩
  have hf : Flushed (cancelGuestRead { t with guestInputComplete := true }) := { h.flushed hopen with }
  unfold Tunnel.handleGuestInputComplete
  dsimp only
  split
  · rename_i hp
    exact absurd hp hread
  · rename_i hp
    obtain ⟨hc, -⟩ := h.control.of_armed hp
    exact .stop hs (fun _ => ⟨hc.head, (harmed hp).1, hc.quiet.idle, (harmed hp).2, fun _ => rfl⟩) h.room
  · rename_i hp
    have hc := h.control.of_connecting hp
    exact ⟨hs, .connecting hp { hc with quiet := { hc.quiet with } }, h.room, fun _ => hf, h.asking⟩
  · rename_i hp
    obtain ⟨hc, -⟩ := h.control.of_tunneling hp
    exact .sendUpstream hp hs ⟨hc.accepted, hc.head, fun hn => ⟨rfl, (hc.ends hn).2⟩, hc.room, hc.live⟩ h.room hf h.asking
  · rename_i hp
    exact absurd hp hopen

/-! ## The network's events -/

/-- A change of the resolver and the timers, which matter only while a tunnel is armed. -/
theorem Between.retime (h : Between cfg up [] t) (hp : t.phase ≠ .armed) (r q p : Bool) :
    Between cfg up [] { t with resolving := r, requestTimer := q, prePayloadTimer := p } := by
  refine ⟨{ h.streams with }, ?_, h.room, fun hn => { h.flushed hn with }, h.asking⟩
  cases h.control with
  | reading hq hc => exact .reading hq { hc with quiet := { hc.quiet with } }
  | armed hq => exact absurd hq hp
  | connecting hq hc => exact .connecting hq { hc with quiet := { hc.quiet with } }
  | tunneling hq hc hs => exact .tunneling hq { hc with } hs
  | closed hq hd => exact .closed hq fun hu => { hd hu with }

theorem Between.resolved (h : Between cfg up [] t) (hopen : t.phase ≠ .closed) (result : Option (List String)) (hne :
    result ≠ some [])
    (hu : up → result ≠ none) : Between cfg up [] (t.resolved result) := by
  unfold Tunnel.resolved
  dsimp only
  split
  · rename_i hp
    obtain ⟨hc, hw⟩ := h.control.of_armed hp
    cases result with
    | none =>
      refine .closeAfterPending { h.streams with } (.armed hp (hc.shut (fun h' => absurd rfl (hu h')) _ _) hw) h.room
        { h.flushed hopen with } h.asking
    | some l =>
      refine .maybeConnect hp { h.streams with } { hc with
        quiet := { hc.quiet with }, addresses := fun l' hl => ?_, resolves := fun _ hn =>
          (nomatch hn) } h.room { h.flushed hopen with }
      cases hl
      exact fun hn => hne (congrArg some hn)
  · rename_i hp
    exact h.retime hp _ _ _

/-- **The connection is ready**, and takes what was kept for it. -/
theorem Between.ready (h : Between cfg up [] t) (hopen : t.phase ≠ .closed) (hup : t.upstream.isSome = true) :
    Between cfg up [] (t.connectionReady cfg) := by
  have hc : Relaying cfg up { t with phase := .tunneling } := by
    cases h.control with
    | reading hp hc =>
      rw [hc.unconnected] at hup
      cases hup
    | armed hp hc =>
      rw [hc.unconnected] at hup
      cases hup
    | connecting hp hc =>
      exact ⟨hc.accepted, hc.head, fun hn => absurd (hc.quiet.unfinished.symm.trans hn) (fun hn => (nomatch hn)),
        fun hn => absurd (hc.quiet.asked.symm.trans hn) (fun hn => (nomatch hn)), hc.live⟩
    | tunneling hp hc hs => exact { hc with }
    | closed hp => exact absurd hp hopen
  obtain ⟨hs', hc', hg, hf', -⟩ := Relaying.sendUpstream (t := { t with phase := .tunneling }) rfl { h.streams with } hc
    { h.flushed hopen with }
  unfold Tunnel.connectionReady
  exact .receiveUpstream hs' hc' (by rw [hg]; exact h.room) fun _ => hf'

/-- **The connection fails** or is given up; the next address is tried. -/
theorem Between.lost (h : Between cfg up [] t) (hopen : t.phase ≠ .closed) (hup : t.upstream.isSome = true)
    (hu : up → t.phase = .connecting ∧ 0 < t.addressesLeft) : Between cfg up [] t.connectionLost := by
  unfold Tunnel.connectionLost
  have hs : Streams cfg [] { t with upstream := none } := { h.streams with }
  have hf : Flushed { t with upstream := none } := { h.flushed hopen with }
  cases h.control with
  | reading hp hc =>
    rw [hc.unconnected] at hup
    cases hup
  | armed hp hc =>
    rw [hc.unconnected] at hup
    cases hup
  | connecting hp hc =>
    exact .connectNextAddress hp hs { hc with quiet := { hc.quiet with }, live := False.elim } h.room hf fun h' =>
      ⟨(hu h').2, (hc.live h').2⟩
  | tunneling hp hc hsend =>
    have hnot : ¬up := fun h' => absurd (hp.symm.trans (hu h').1) (fun hn => (nomatch hn))
    have hn : t.phase ≠ .connecting := by
      rw [hp]
      exact fun hn => (nomatch hn)
    unfold Tunnel.connectNextAddress
    rw [if_neg fun hcond => hn hcond.1]
    exact .closeAfterPending hs (.tunneling hp { hc with live := fun h' => absurd h' hnot } fun hn => (nomatch hn)) h.room hf
      fun _ _ hn => (nomatch hn)
  | closed hp => exact absurd hp hopen

theorem Between.sendProcessed (h : Between cfg up [] t) (hopen : t.phase ≠ .closed) (hpend :
    t.upstreamSendPending = true) {failed : Bool}
    (hu : up → failed = false) : Between cfg up [] (t.sendProcessed cfg failed) := by
  have hquiet : ¬t.Quiet := fun hq => absurd (hq.idle.symm.trans hpend) (fun hn => (nomatch hn))
  have hs : Streams cfg [] { t with upstreamSendPending := false } := { h.streams with }
  have hf : Flushed { t with upstreamSendPending := false } := { h.flushed hopen with }
  unfold Tunnel.sendProcessed
  dsimp only
  split
  · rename_i hfail
    refine .stop hs (fun h' => ?_) h.room
    rw [hu h'] at hfail
    cases hfail
  cases h.control with
  | reading hp hc => exact absurd hc.quiet hquiet
  | armed hp hc => exact absurd hc.quiet hquiet
  | connecting hp hc => exact absurd hc.quiet hquiet
  | tunneling hp hc hsend =>
    have hc' : Relaying cfg up { t with upstreamSendPending := false } := { hc with }
    split
    · rename_i hcomplete
      exact Between.finishIfComplete ⟨hs, .tunneling hp hc' fun _ _ => ⟨(hc.ends hcomplete).2, fun _ => hcomplete⟩, h.room,
        fun _ => hf,
        h.asking⟩
    · exact .sendUpstream hp hs hc' h.room hf h.asking
  | closed hp => exact absurd hp hopen

/-- The end of the upstream's stream. -/
theorem Between.upstreamEnd (hs : Streams cfg [] t) (hc : Control cfg up t) (hr : t.guestOutput.length ≤ cfg.maximumBufferedBytes)
    (hf : t.phase ≠ .closed → t.Flushed) (hphase : t.phase = .tunneling ∨ t.phase = .closed) :
    Between cfg up [] { t with upstreamInputComplete := true }.completeGuestOutputWhenDrained := by
  refine .completeGuestOutput { hs with } ?_ hr (fun hn => (hf hn).blocked) (fun hn => (hf hn).stays) fun _ _ _ => .inr rfl
  rcases hphase with hp | hp
  · obtain ⟨h, hsend⟩ := hc.of_tunneling hp
    exact .tunneling hp { h with } hsend
  · exact .closed hp fun hu => { hc.of_closed hp hu with }

/-- **Bytes from upstream**, or the end of its stream. -/
theorem Between.received (h : Between cfg up [] t) (hopen : t.phase ≠ .closed) (hpend : t.upstreamReceivePending = true)
    (hlen : data.length ≤ t.receiveCapacity) (ended : Bool) (hu : up → socket.broken = false) :
    Between cfg up [] (t.received cfg socket data ended) := by
  have hquiet : ¬t.Quiet := fun hq => absurd (hq.asked.symm.trans hpend) (fun hn => (nomatch hn))
  have hp : t.phase = .tunneling := by
    cases h.control with
    | reading hp hc => exact absurd hc.quiet hquiet
    | armed hp hc => exact absurd hc.quiet hquiet
    | connecting hp hc => exact absurd hc.quiet hquiet
    | tunneling hp hc hsend => exact hp
    | closed hp => exact absurd hp hopen
  obtain ⟨hc, hsend⟩ := h.control.of_tunneling hp
  have hroom := hc.room hpend
  unfold Tunnel.received
  dsimp only
  rw [if_neg (by omega)]
  have hmid : (t' : Tunnel) → t' = (if data = [] then
      { t with upstreamReceivePending := false, upstreamReceived := t.upstreamReceived ++ data }
    else enqueueGuest cfg socket data { t with upstreamReceivePending := false, upstreamReceived := t.upstreamReceived ++ data }) →
      Streams cfg [] t' ∧ Control cfg up t' ∧ t'.guestOutput.length ≤ cfg.maximumBufferedBytes ∧ (t'.phase ≠ .closed → t'.Flushed) ∧
        (t'.phase = .tunneling ∨ t'.phase = .closed) := by
    rintro t' rfl
    split
    · rename_i hd
      refine ⟨{ h.streams with downward := ?_ }, .tunneling hp { hc with room := fun hn => (nomatch hn) } hsend, h.room,
        fun _ => { h.flushed hopen with }, .inl hp⟩
      rw [hd, List.append_nil]
      exact h.streams.downward
    · have hphase := (enqueueGuest_kept cfg socket data
        { t with upstreamReceivePending := false, upstreamReceived := t.upstreamReceived ++ data }).2.2
      have hb : Between cfg up [] (enqueueGuest cfg socket data
          { t with upstreamReceivePending := false, upstreamReceived := t.upstreamReceived ++ data }) := by
        unfold Tunnel.enqueueGuest
        rw [if_neg hopen]
        refine .flushGuestOutput hopen { h.streams with downward := ?_ } (.tunneling hp { hc with room := fun hn =>
          (nomatch hn) } hsend)
          (fun hn => absurd rfl hn) ?_ hu
        · rw [← List.append_assoc, h.streams.downward, List.append_assoc]
        · refine le_trans ?_ ((Nat.add_le_add_left hlen _).trans hroom)
          rw [List.length_drop, List.length_append]
          exact Nat.sub_le _ _
      exact ⟨hb.streams, hb.control, hb.room, hb.flushed, hphase.imp_left (·.trans hp)⟩
  obtain ⟨hs', hc', hr', hf', hphase⟩ := hmid _ rfl
  split
  · exact .upstreamEnd hs' hc' hr' hf' hphase
  · exact .receiveUpstream hs' hc' hr' hf'

theorem Between.prePayloadTimedOut (h : Between cfg up [] t) (hopen : t.phase ≠ .closed) :
    Between cfg up [] t.prePayloadTimedOut := by
  unfold Tunnel.prePayloadTimedOut
  dsimp only
  split
  · rename_i hcond
    obtain ⟨hc, hw⟩ := h.control.of_armed hcond.1
    exact .closeAfterPending { h.streams with } (.armed hcond.1 (hc.shut (fun _ => by simpa using hcond.2) _ _) hw) h.room
      { h.flushed hopen with } h.asking
  · by_cases hp : t.phase = .armed
    · obtain ⟨hc, hw⟩ := h.control.of_armed hp
      exact ⟨{ h.streams with }, .armed hp { hc with quiet := { hc.quiet with } } hw, h.room, fun hn => { h.flushed hn with },
        h.asking⟩
    · exact h.retime hp _ _ _

theorem Between.requestTimedOut (h : Between cfg up [] t) (hcl : t.phase = .readingRequest → t.closeAfterGuestOutput = false)
    (hroom : t.phase = .readingRequest → (rejection 408 "Request Timeout").length ≤ cfg.maximumBufferedBytes + socket.room)
    (hu : up → socket.broken = false) : Between cfg up [] (t.requestTimedOut cfg socket) := by
  unfold Tunnel.requestTimedOut
  dsimp only
  split
  · rename_i hp
    obtain ⟨hun, hbuf⟩ := h.unanswered hp (hcl hp)
    have hnone := ((h.control.of_reading hp).unanswered (hcl hp)).2.1
    refine Unanswered.respondAndClose (t := { t with requestTimer := false }) { hun with quiet := { hun.quiet with } } ?_ _ _
      (hroom hp) hu
    simp only [payload, hnone]
  · by_cases hp : t.phase = .armed
    · obtain ⟨hc, hw⟩ := h.control.of_armed hp
      exact ⟨{ h.streams with }, .armed hp { hc with quiet := { hc.quiet with } } hw, h.room, fun hn => { h.flushed hn with },
        h.asking⟩
    · exact h.retime hp _ _ _

end Tunnel
end Lish
