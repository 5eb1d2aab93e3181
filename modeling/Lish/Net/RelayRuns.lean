import Lish.Net.Relay
/-!
# RelayRuns — the streams of a whole session

A session relays faithfully through every run of events, those apart that it mishandles: an end of stream while it keeps
payload or its answer, and a second answer by its timer.
-/
namespace Lish
namespace Tunnel

variable {cfg : DelayedConnectProxyConfiguration} {up : Prop} {t : Tunnel}

/-! ## What a session is to do -/

/-- Both streams are faithful, after one response head, and within the limits. -/
structure Relays (cfg : DelayedConnectProxyConfiguration) (t : Tunnel) : Prop where
  upstream : t.upstreamSent <+: payload cfg t.guestReceived
  guest : t.guestWritten <+: t.answers.flatten ++ t.upstreamReceived
  head : t.answers.length ≤ 1
  upstreamRoom : t.upstreamOutput.length ≤ cfg.maximumBufferedBytes
  guestRoom : t.guestOutput.length ≤ cfg.maximumBufferedBytes

/-- A session that has ended has relayed everything, and one that has not waits for what will relay the rest. -/
structure Delivers (cfg : DelayedConnectProxyConfiguration) (t : Tunnel) : Prop where
  head : t.phase = .closed → t.answers.length = 1
  upstream : t.phase = .closed → t.upstreamSent = payload cfg t.guestReceived ∧ t.upstreamSendPending = false
  guest : t.phase = .closed → t.guestWritten = t.answers.flatten ++ t.upstreamReceived
  eof : t.phase = .closed → payload cfg t.guestReceived ≠ [] → t.guestInputComplete = true
  waits : t.phase ≠ .closed → t.upstreamSent ≠ payload cfg t.guestReceived →
    t.phase = .armed ∧ t.resolving = true ∨ t.phase = .connecting ∧ t.upstream.isSome = true ∨
      t.phase = .tunneling ∧ t.upstreamSendPending = true
  connects : t.phase = .connecting → t.Enabled cfg .ready → (t.handle cfg .ready).upstreamSent = payload cfg t.guestReceived
  sends : t.Enabled cfg (.sendProcessed false) → (t.handle cfg (.sendProcessed false)).upstreamSent = payload cfg t.guestReceived
  blocks : t.phase ≠ .closed → t.guestOutput ≠ [] → t.guestWriteSource = true
  writes : ∀ socket, t.guestOutput.length ≤ socket.room → t.Enabled cfg (.guestWritable socket) →
    (t.handle cfg (.guestWritable socket)).guestWritten = t.answers.flatten ++ t.upstreamReceived
  asks : t.Asking

/-- The event is none that a session mishandles. -/
def Handled (cfg : DelayedConnectProxyConfiguration) (t : Tunnel) (e : Event) : Prop :=
  match e with
  | .guestData socket data => t.phase = .readingRequest → Answerable cfg socket (t.requestBuffer ++ data)
  | .guestEof => t.phase ≠ .readingRequest ∧ (t.phase = .armed → t.upstreamOutput = [] ∧ t.guestOutput = [])
  | .requestTimeout socket => t.phase = .readingRequest →
      t.closeAfterGuestOutput = false ∧ (rejection 408 "Request Timeout").length ≤ cfg.maximumBufferedBytes + socket.room
  | _ => True

/-- The event leaves both ends up: neither socket fails, and a connection that does not open leaves an address to try. -/
def StaysUp (t : Tunnel) (e : Event) : Prop :=
  match e with
  | .guestData socket _ => socket.broken = false
  | .guestFull => True
  | .guestEof => True
  | .guestReadFailed => False
  | .guestWritable socket => socket.broken = false
  | .resolved result => result ≠ none
  | .ready => True
  | .lost => t.phase = .connecting ∧ 0 < t.addressesLeft
  | .connectTimeout generation => t.phase = .connecting → t.upstream = some generation → 0 < t.addressesLeft
  | .sendProcessed failed => failed = false
  | .received socket _ _ failed => socket.broken = false ∧ failed = false
  | .prePayloadTimeout => True
  | .requestTimeout socket => socket.broken = false
  | .proxyStop => False

/-! ## Runs -/

theorem between_start (cfg : DelayedConnectProxyConfiguration) (up : Prop) : Between cfg up [] start :=
  ⟨⟨rfl, rfl, Nat.zero_le _, Nat.zero_le _, fun h => (nomatch h)⟩, .reading rfl ⟨⟨rfl, rfl, rfl, rfl, rfl, rfl⟩, rfl, rfl, rfl,
    ⟨rfl, rfl, rfl⟩, fun _ => ⟨rfl, rfl, rfl, rfl⟩, fun h => (nomatch h)⟩, Nat.zero_le _,
    fun _ => ⟨fun h => absurd rfl h, fun _ => rfl, fun _ h => (nomatch h)⟩, fun h => (nomatch h)⟩

/-- **One event keeps a session.** -/
theorem Between.handle {e : Event} (h : Between cfg up [] t) (he : t.Enabled cfg e) (hh : Handled cfg t e) (hu : up → StaysUp t e) :
    Between cfg up [] (t.handle cfg e) := by
  obtain ⟨hopen, he⟩ := he
  cases e with
  | guestData socket data => exact h.guestData hopen he.1 he.2.2 hh hu
  | guestFull => exact h.suspend
  | guestEof => exact h.guestEof hopen hh.1 hh.2
  | guestReadFailed => exact .stop h.streams (fun hup => (hu hup).elim) h.room
  | guestWritable socket =>
    refine .flushGuestOutput hopen h.streams h.control (fun hn => absurd rfl hn) ?_ hu
    rw [List.length_drop]
    exact (Nat.sub_le _ _).trans h.room
  | resolved result => exact h.resolved hopen result he.2 hu
  | ready => exact h.ready hopen he
  | lost => exact h.lost hopen he hu
  | connectTimeout generation =>
    change Between cfg up [] (t.connectTimedOut generation)
    unfold connectTimedOut
    split
    · rename_i hc
      refine h.lost hopen (by rw [hc.2.2]; rfl) fun hup => ⟨hc.1, hu hup hc.1 hc.2.2⟩
    · exact h
  | sendProcessed failed => exact h.sendProcessed hopen he hu
  | received socket data ended failed => exact h.received hopen he.1 he.2 _ fun hup => (hu hup).1
  | prePayloadTimeout => exact h.prePayloadTimedOut hopen
  | requestTimeout socket => exact h.requestTimedOut (fun hp => (hh hp).1) (fun hp => (hh hp).2) hu
  | proxyStop => exact .stop h.streams (fun hup => (hu hup).elim) h.room

theorem Run.between {P : Tunnel → Event → Prop} (hP : ∀ t e, P t e → Handled cfg t e ∧ (up → StaysUp t e)) (h : Run cfg P t) :
    Between cfg up [] t := by
  induction h with
  | start => exact between_start cfg up
  | step _ he hp ih => exact ih.handle he (hP _ _ hp).1 (hP _ _ hp).2

/-- The events can happen one after the other, and each meets `P`. -/
def Plays (cfg : DelayedConnectProxyConfiguration) (P : Tunnel → Event → Prop) : Tunnel → List Event → Prop
  | _, [] => True
  | t, e :: es => (t.Enabled cfg e ∧ P t e) ∧ Plays cfg P (t.handle cfg e) es

def play (cfg : DelayedConnectProxyConfiguration) (t : Tunnel) (events : List Event) : Tunnel :=
  events.foldl (fun t e => t.handle cfg e) t

theorem Run.play {P : Tunnel → Event → Prop} {events : List Event} (h : Run cfg P t) (hp : Plays cfg P t events) :
    Run cfg P (t.play cfg events) := by
  induction events generalizing t with
  | nil => exact h
  | cons e es ih => exact ih (h.step hp.1.1 hp.1.2) hp.2

/-! ## Results -/

theorem Between.relays (h : Between cfg up [] t) : Relays cfg t := by
  refine ⟨⟨t.upstreamOutput, ?_⟩, ⟨t.guestOutput, h.streams.downward⟩, h.streams.heads, h.streams.room, h.room⟩
  rw [h.streams.upward, List.append_nil]

/-- What the connection was handed is the whole payload once nothing is buffered. -/
theorem Between.sent (h : Between cfg up [] t) (hout : t.upstreamOutput = []) : t.upstreamSent = payload cfg t.guestReceived := by
  rw [h.streams.upward, hout, List.append_nil, List.append_nil]

theorem Between.waits (h : Between cfg True [] t) (hopen : t.phase ≠ .closed) (hne : t.upstreamSent ≠ payload cfg t.guestReceived) :
    t.phase = .armed ∧ t.resolving = true ∨ t.phase = .connecting ∧ t.upstream.isSome = true ∨
      t.phase = .tunneling ∧ t.upstreamSendPending = true := by
  have hout : t.upstreamOutput ≠ [] := fun hout => hne (h.sent hout)
  cases h.control with
  | reading hp hc => exact absurd hc.output hout
  | armed hp hc hw =>
    have hrec : t.receivedTunnelPayload = true := by
      by_contra hn
      exact hout (hc.output (Bool.not_eq_true _ ▸ hn))
    refine .inl ⟨hp, hc.resolves ?_ (hw hrec)⟩
    by_contra hn
    have := hrec.symm.trans (hc.live trivial (Bool.not_eq_false _ ▸ hn))
    cases this
  | connecting hp hc => exact .inr (.inl ⟨hp, (hc.live trivial).1⟩)
  | tunneling hp hc hs =>
    refine .inr (.inr ⟨hp, ?_⟩)
    by_contra hn
    exact hout (hs (hc.live trivial).1 (Bool.not_eq_true _ ▸ hn)).1
  | closed hp => exact absurd hp hopen

theorem receiveUpstream_sent (t : Tunnel) : (t.receiveUpstream cfg).upstreamSent = t.upstreamSent := by
  unfold receiveUpstream
  split
  · rfl
  · rfl

theorem finishIfComplete_sent (t : Tunnel) : t.finishIfComplete.upstreamSent = t.upstreamSent := by
  unfold finishIfComplete stop
  split
  · split
    · rfl
    · rfl
  · rfl

/-- A send that is free to start takes all that is left of the payload. -/
theorem Between.send_all (h : Between cfg True [] t) {r : Tunnel} (hp : r.phase = .tunneling) (hup : r.upstream.isSome = true)
    (hidle : r.upstreamSendPending = false) (hends : r.upstreamOutputComplete = true → r.guestInputComplete = true ∧
      r.upstreamOutput = [])
    (hsame : r.upstreamSent = t.upstreamSent ∧ r.upstreamOutput = t.upstreamOutput) :
    (r.sendUpstream cfg).upstreamSent = payload cfg t.guestReceived := by
  obtain ⟨_, _, _, sent, out, he, hkeep, -, -, -, hall⟩ := sendUpstream_eq cfg hp hends
  have hsent : sent = r.upstreamSent ++ r.upstreamOutput := by
    rw [← hkeep, hall hup hidle, List.append_nil]
  rw [he, h.streams.upward, List.append_nil, ← hsame.1, ← hsame.2]
  exact hsent

theorem Between.connects (h : Between cfg True [] t) (hp : t.phase = .connecting) :
    (t.handle cfg .ready).upstreamSent = payload cfg t.guestReceived := by
  have hc := h.control.of_connecting hp
  change ((({ t with phase := .tunneling } : Tunnel).sendUpstream cfg).receiveUpstream cfg).upstreamSent = _
  rw [receiveUpstream_sent]
  exact h.send_all rfl (hc.live trivial).1 hc.quiet.idle (fun hn => absurd (hc.quiet.unfinished.symm.trans hn) (fun hn =>
    (nomatch hn)))
    ⟨rfl, rfl⟩

theorem Between.sends (h : Between cfg True [] t) (he : t.Enabled cfg (.sendProcessed false)) :
    (t.handle cfg (.sendProcessed false)).upstreamSent = payload cfg t.guestReceived := by
  obtain ⟨hopen, hpend⟩ := he
  have hquiet : ¬t.Quiet := fun hq => absurd (hq.idle.symm.trans hpend) (fun hn => (nomatch hn))
  change (t.sendProcessed cfg false).upstreamSent = _
  unfold Tunnel.sendProcessed
  dsimp only
  rw [if_neg Bool.false_ne_true]
  cases h.control with
  | reading hp hc => exact absurd hc.quiet hquiet
  | armed hp hc => exact absurd hc.quiet hquiet
  | connecting hp hc => exact absurd hc.quiet hquiet
  | tunneling hp hc hs =>
    split
    · rename_i hcomplete
      rw [finishIfComplete_sent]
      exact h.sent (hc.ends hcomplete).2
    · exact h.send_all (r := { t with upstreamSendPending := false }) hp (hc.live trivial).1 rfl hc.ends ⟨rfl, rfl⟩
  | closed hp => exact absurd hp hopen

theorem finishIfComplete_written (t : Tunnel) : t.finishIfComplete.guestWritten = t.guestWritten := by
  unfold finishIfComplete stop
  split
  · split
    · rfl
    · rfl
  · rfl

theorem completeGuestOutput_written (t : Tunnel) : t.completeGuestOutputWhenDrained.guestWritten = t.guestWritten := by
  unfold completeGuestOutputWhenDrained
  split
  · exact finishIfComplete_written _
  · rfl

theorem guestDrained_written (t : Tunnel) : (t.guestDrained cfg).guestWritten = t.guestWritten := by
  unfold guestDrained receiveUpstream stop
  dsimp only
  split
  · split
    · rfl
    · rfl
  · split
    · split
      · exact completeGuestOutput_written { t with guestWriteSource := false }
      · exact completeGuestOutput_written { t with guestWriteSource := false }
    · split
      · rfl
      · rfl

/-- A socket with room for it takes everything that is buffered for the guest. -/
theorem Between.writes (h : Between cfg up [] t) (hopen : t.phase ≠ .closed) (socket : GuestSocket) (hroom :
    t.guestOutput.length ≤ socket.room) :
    (t.flushGuestOutput cfg socket).guestWritten = t.answers.flatten ++ t.upstreamReceived := by
  have hw : t.guestWritten ++ t.guestOutput.take socket.room = t.answers.flatten ++ t.upstreamReceived := by
    rw [List.take_of_length_le hroom]
    exact h.streams.downward
  unfold Tunnel.flushGuestOutput
  dsimp only
  rw [if_neg hopen, if_pos (List.drop_eq_nil_of_le hroom), guestDrained_written]
  exact hw

/-- **A session relays faithfully, unless it mishandles an event; and it delivers everything while both ends stay up.** -/
theorem relays_and_delivers (cfg : DelayedConnectProxyConfiguration) :
    (∀ t, Run cfg (Handled cfg) t → Relays cfg t) ∧
      ∀ t, Run cfg (fun t e => Handled cfg t e ∧ StaysUp t e) t → Delivers cfg t := by
  refine ⟨fun t h => ?_, fun t h => ?_⟩
  · have hb : Between cfg False [] t := h.between fun _ _ hP => ⟨hP, False.elim⟩
    exact hb.relays
  · have hb : Between cfg True [] t := h.between fun _ _ hP => ⟨hP.1, fun _ => hP.2⟩
    have hd : t.phase = .closed → Delivered cfg t := fun hp => hb.control.of_closed hp trivial
    refine ⟨fun hp => (hd hp).head, fun hp => ⟨hb.sent (hd hp).upstream, (hd hp).idle⟩, fun hp => ?_, fun hp => (hd hp).eof,
      hb.waits,
      fun hp _ => hb.connects hp, hb.sends, fun hp => (hb.flushed hp).blocked,
        fun socket hroom he => hb.writes he.1 socket hroom, hb.asking⟩
    rw [← hb.streams.downward, (hd hp).guest, List.append_nil]

/-- A request and its first byte of payload. -/
def connectRequest : List U8 := asciiBytes "CONNECT a:443 HTTP/1.1\r\nHost: a:443\r\n\r\nx"

/-- A whole session: payload, an answer from upstream, and the end of both streams. -/
def session : List Event :=
  [.guestData ⟨100, false⟩ connectRequest, .resolved (some ["192.0.2.1"]), .ready, .sendProcessed false,
    .received ⟨100, false⟩ (asciiBytes "y") true false, .guestEof, .sendProcessed false]

theorem relays_and_delivers_session : (start.play .standard session).phase = .closed ∧
    (start.play .standard session).upstreamSent = asciiBytes "x" ∧
    (start.play .standard session).guestWritten = established ++ asciiBytes "y" ∧
    Delivers .standard (start.play .standard session) := by
  refine ⟨by decide, by decide, by decide, (relays_and_delivers .standard).2 _ (Run.start.play ?_)⟩
  refine ⟨⟨by decide, fun _ => ⟨by decide, by decide⟩, rfl⟩, ⟨by decide, trivial, fun h => (nomatch h)⟩, ⟨by decide, trivial,
    trivial⟩,
    ⟨by decide, trivial, rfl⟩, ⟨by decide, trivial, rfl, rfl⟩, ⟨by decide, ⟨by decide, fun h => (nomatch h)⟩, trivial⟩,
    ⟨by decide, trivial, rfl⟩, trivial⟩

/-- The guest sends its payload and its end of stream before its target is resolved. -/
theorem payload_lost_while_resolving :
    ¬((∀ t, Run .standard (fun _ _ => True) t → Relays .standard t) ∧
      ∀ t, Run .standard StaysUp t → Delivers .standard t) := by
  rintro ⟨-, h⟩
  have hrun : Run .standard StaysUp (start.play .standard [.guestData ⟨100, false⟩ connectRequest, .guestEof]) :=
    Run.start.play ⟨⟨by decide, rfl⟩, ⟨by decide, trivial⟩, trivial⟩
  have hlost := ((h _ hrun).upstream (by decide)).1
  revert hlost
  decide

end Tunnel
end Lish
