import Lish.System.VirtBus
/-!
# Lines — device interrupt lines and their enables

The serial port has two interrupt sources and the clock one.  A line is asserted by a source that is enabled and pending; the latches of
the transmitter and of the alarm outlive their enables, so that a line follows them only where neither is disabled while it is latched.
-/
namespace Lish

/-- The two devices with enables of their own. -/
structure LineDevices where
  uart : Uart
  rtc : GoldfishRtc

/-- An interrupt source. -/
inductive IrqSource
  | rxData
  | thrEmpty
  | alarm
  deriving DecidableEq

/-- What happens to the devices. -/
inductive LineAccess
  | uartRead (off : U64)
  | uartWrite (off : U64) (val : U8)
  | rtcRead (off : U64)
  | rtcWrite (off : U64) (val : U32)
  /-- Console input. -/
  | input (bytes : List U8)
  /-- The host takes the console output. -/
  | output
  | hostTime (ns : U64)

namespace LineDevices

variable {s : LineDevices} {e : LineAccess} {x : IrqSource}

def new : LineDevices := ⟨.new, .new⟩

def apply (s : LineDevices) : LineAccess → LineDevices
  | .uartRead off => { s with uart := (s.uart.read off).2 }
  | .uartWrite off val => { s with uart := s.uart.write off val }
  | .rtcRead off => { s with rtc := (s.rtc.read off).2 }
  | .rtcWrite off val => { s with rtc := s.rtc.write off val }
  | .input bytes => { s with uart := { s.uart with rx := s.uart.rx ++ bytes } }
  | .output => { s with uart := { s.uart with txOut := [] } }
  | .hostTime ns => { s with rtc := s.rtc.setHostTimeNs ns }

def after (es : List LineAccess) : LineDevices := es.foldl apply new

theorem after_append (es : List LineAccess) (e : LineAccess) : after (es ++ [e]) = (after es).apply e := by
  unfold after
  rw [List.foldl_append]
  rfl

/-! ## Sources -/

/-- The guest has enabled a source. -/
def Enabled (s : LineDevices) : IrqSource → Prop
  | .rxData => s.uart.ier &&& 1 ≠ 0
  | .thrEmpty => s.uart.ier &&& 2 ≠ 0
  | .alarm => s.rtc.irqEnabled = true

/-- A source asks for service: received data, an empty transmitter that was not noticed, an alarm that has expired and was not
acknowledged. -/
def Pending (s : LineDevices) : IrqSource → Prop
  | .rxData => s.uart.rx ≠ []
  | .thrEmpty => s.uart.threIp = true
  | .alarm => s.rtc.irqPending = true ∨ (s.rtc.alarmArmed = true ∧ s.rtc.alarmNs ≤ s.rtc.timeNs)

/-- The line of a source's device. -/
def line (s : LineDevices) : IrqSource → Bool
  | .rxData | .thrEmpty => s.uart.irq
  | .alarm => s.rtc.irq

/-- Two sources of one device. -/
def SameDevice : IrqSource → IrqSource → Prop
  | .alarm, y => y = .alarm
  | _, y => y ≠ .alarm

/-- What the identification register reads while it reports a source; an alarm has no such register. -/
def Reports (s : LineDevices) : IrqSource → Prop
  | .rxData => (s.uart.read 2).1 = 0xc4
  | .thrEmpty => (s.uart.read 2).1 = 0xc2
  | .alarm => False

/-- The guest disables a source. -/
def Disables (s : LineDevices) (e : LineAccess) : IrqSource → Prop
  | .rxData => ∃ off val, e = .uartWrite off val ∧ off.toNat = 1 ∧ s.uart.dlab = false ∧ val &&& 1 = 0
  | .thrEmpty => ∃ off val, e = .uartWrite off val ∧ off.toNat = 1 ∧ s.uart.dlab = false ∧ val &&& 2 = 0
  | .alarm => ∃ off val, e = .rtcWrite off val ∧ off.toNat = 0x10 ∧ val = 0

/-- The guest takes what a source has: it reads the data or the identification, or acknowledges the alarm. -/
def Takes (e : LineAccess) : IrqSource → Prop
  | .rxData => ∃ off, e = .uartRead off ∧ off.toNat = 0
  | .thrEmpty => ∃ off, e = .uartRead off ∧ off.toNat = 2
  | .alarm => ∃ off val, e = .rtcWrite off val ∧ (off.toNat = 0x14 ∨ off.toNat = 0x1c)

/-- What the lines promise after an access. -/
structure Follows (s : LineDevices) : Prop where
  /-- A line is asserted while a source of its device is enabled and pending, and only then. -/
  asserted : ∀ x, s.line x = true ↔ ∃ y, SameDevice x y ∧ s.Enabled y ∧ s.Pending y
  identified : ∀ x, s.Reports x → s.Enabled x ∧ s.Pending x

/-- What an access does to the lines. -/
structure Steady (s : LineDevices) (e : LineAccess) : Prop where
  /-- A source that is disabled drops the line, if no other is pending. -/
  dropped : ∀ x, s.Disables e x → (∀ y, SameDevice x y → y ≠ x → ¬(Enabled (s.apply e) y ∧ Pending (s.apply e) y)) → line (s.apply e) x = false
  /-- The line stays asserted until the source is taken or disabled. -/
  stays : ∀ x, s.Enabled x → s.Pending x → ¬s.Disables e x → ¬Takes e x →
    Enabled (s.apply e) x ∧ Pending (s.apply e) x ∧ line (s.apply e) x = true

/-! ## Accesses to one device -/

theorem uart_write_ier {u : Uart} {off : U64} {val : U8} (h : ¬(off.toNat = 1 ∧ u.dlab = false)) : (u.write off val).ier = u.ier := by
  unfold Uart.write
  split
  · split <;> rfl
  · rename_i h1
    cases hd : u.dlab with
    | false => exact absurd ⟨h1, hd⟩ h
    | true => rfl
  all_goals rfl

theorem uart_write_rx (u : Uart) (off : U64) (val : U8) : (u.write off val).rx = u.rx := by
  unfold Uart.write
  split
  · split <;> rfl
  · split <;> rfl
  all_goals rfl

theorem uart_write_enable {u : Uart} {off : U64} (val : U8) (h1 : off.toNat = 1) (hd : u.dlab = false) :
    u.write off val = { u with ier := val, threIp := u.threIp || (val &&& 2 != 0 && u.ier &&& 2 == 0) } := by
  unfold Uart.write
  rw [h1]
  exact if_neg (by rw [hd]; exact Bool.false_ne_true)

/-- A write latches the transmitter only while it is enabled, and never clears the latch. -/
theorem uart_write_thre (u : Uart) (off : U64) (val : U8) :
    (u.threIp = true → (u.write off val).threIp = true) ∧
      ((u.write off val).threIp = true → u.threIp = true ∨ (u.write off val).ier &&& 2 ≠ 0) := by
  unfold Uart.write
  split
  · split
    · exact ⟨id, .inl⟩
    · refine ⟨fun h => by simp [h], fun h => ?_⟩
      rcases Bool.or_eq_true_iff.1 h with h | h
      · exact .inl h
      · exact .inr (bne_iff_ne.1 h)
  · split
    · exact ⟨id, .inl⟩
    · refine ⟨fun h => by simp [h], fun h => ?_⟩
      rcases Bool.or_eq_true_iff.1 h with h | h
      · exact .inl h
      · exact .inr (bne_iff_ne.1 (Bool.and_eq_true_iff.1 h).1)
  all_goals exact ⟨id, .inl⟩

theorem uart_read_keeps (u : Uart) (off : U64) : (u.read off).2.ier = u.ier ∧ ((u.read off).2.threIp = true → u.threIp = true) ∧
    (off.toNat ≠ 0 → (u.read off).2.rx = u.rx) ∧ (off.toNat ≠ 2 → (u.read off).2.threIp = u.threIp) := by
  unfold Uart.read
  split
  · rename_i h0
    split
    · exact ⟨rfl, id, fun _ => rfl, fun _ => rfl⟩
    · exact ⟨rfl, id, fun h => absurd h0 h, fun _ => rfl⟩
  · exact ⟨rfl, id, fun _ => rfl, fun _ => rfl⟩
  · rename_i h2
    split
    · exact ⟨rfl, id, fun _ => rfl, fun _ => rfl⟩
    · split
      · exact ⟨rfl, fun h => (nomatch h), fun _ => rfl, fun h => absurd h2 h⟩
      · exact ⟨rfl, id, fun _ => rfl, fun _ => rfl⟩
  all_goals exact ⟨rfl, id, fun _ => rfl, fun _ => rfl⟩

/-- The alarm is not left waiting: armed and enabled, it has not expired. -/
def Waits (r : GoldfishRtc) : Prop := r.alarmArmed = true → r.irqEnabled = true → r.timeNs < r.alarmNs

theorem updateAlarm_waits (r : GoldfishRtc) : Waits r.updateAlarm := by
  unfold GoldfishRtc.updateAlarm
  split
  · exact fun h => nomatch h
  · rename_i hn
    intro ha he
    exact BitVec.not_le.1 fun hle => hn ⟨ha, he, hle⟩

theorem updateAlarm_enabled (r : GoldfishRtc) : r.updateAlarm.irqEnabled = r.irqEnabled := by
  unfold GoldfishRtc.updateAlarm
  split <;> rfl

theorem updateAlarm_pending (r : GoldfishRtc) :
    (r.irqPending = true → r.updateAlarm.irqPending = true) ∧ (r.updateAlarm.irqPending = true → r.irqPending = true ∨ r.irqEnabled = true) := by
  unfold GoldfishRtc.updateAlarm
  split
  · rename_i h
    exact ⟨fun _ => rfl, fun _ => .inr h.2.1⟩
  · exact ⟨id, .inl⟩

theorem rtc_read_keeps (r : GoldfishRtc) (off : U64) : (r.read off).2 = { r with latchedTimeHigh := (r.read off).2.latchedTimeHigh } := by
  unfold GoldfishRtc.read
  split <;> rfl

theorem rtc_write_waits {r : GoldfishRtc} (h : Waits r) (off : U64) (val : U32) : Waits (r.write off val) := by
  unfold GoldfishRtc.write
  split
  · exact h
  · exact updateAlarm_waits _
  · exact h
  · exact updateAlarm_waits _
  · exact updateAlarm_waits _
  · exact fun hn => nomatch hn
  · exact h
  · exact h

theorem rtc_write_enabled {r : GoldfishRtc} {off : U64} {val : U32} (h : off.toNat ≠ 0x10) : (r.write off val).irqEnabled = r.irqEnabled := by
  unfold GoldfishRtc.write
  split
  · rfl
  · exact updateAlarm_enabled _
  · rfl
  · exact updateAlarm_enabled _
  · rename_i h10
    exact absurd h10 h
  all_goals rfl

theorem rtc_write_enable {r : GoldfishRtc} {off : U64} (val : U32) (h : off.toNat = 0x10) : (r.write off val).irqEnabled = (val != 0) := by
  unfold GoldfishRtc.write
  rw [h]
  exact updateAlarm_enabled _

/-- A write latches the alarm only while it is enabled, and clears the latch only to acknowledge it. -/
theorem rtc_write_pending (r : GoldfishRtc) (off : U64) (val : U32) :
    (r.irqPending = true → ¬(off.toNat = 0x14 ∨ off.toNat = 0x1c) → (r.write off val).irqPending = true) ∧
      ((r.write off val).irqPending = true → r.irqPending = true ∨ (r.write off val).irqEnabled = true) := by
  unfold GoldfishRtc.write
  split
  · exact ⟨fun h _ => h, .inl⟩
  · exact ⟨fun h _ => (updateAlarm_pending _).1 h, fun h => ((updateAlarm_pending _).2 h).imp_right fun he => by rw [updateAlarm_enabled]; exact he⟩
  · exact ⟨fun h _ => h, .inl⟩
  · exact ⟨fun h _ => (updateAlarm_pending _).1 h, fun h => ((updateAlarm_pending _).2 h).imp_right fun he => by rw [updateAlarm_enabled]; exact he⟩
  · exact ⟨fun h _ => (updateAlarm_pending _).1 h, fun h => ((updateAlarm_pending _).2 h).imp_right fun he => by rw [updateAlarm_enabled]; exact he⟩
  · rename_i h14
    exact ⟨fun _ hn => absurd (.inl h14) hn, fun h => nomatch h⟩
  · rename_i h1c
    exact ⟨fun _ hn => absurd (.inr h1c) hn, fun h => nomatch h⟩
  · exact ⟨fun h _ => h, .inl⟩

/-! ## Runs -/

/-- The latch of a source is set. -/
def Latched (s : LineDevices) : IrqSource → Prop
  | .rxData => False
  | .thrEmpty => s.uart.threIp = true
  | .alarm => s.rtc.irqPending = true

/-- An access does not disable a source whose latch is set. -/
def Allowed (s : LineDevices) (e : LineAccess) : Prop := ∀ x, s.Disables e x → ¬s.Latched x

/-- The states of the runs whose accesses all meet `P`. -/
inductive Reach (P : LineDevices → LineAccess → Prop) : LineDevices → Prop
  | new : Reach P .new
  | access {s : LineDevices} (e : LineAccess) (h : Reach P s) (hP : P s e) : Reach P (s.apply e)

theorem waits_apply (h : Waits s.rtc) (e : LineAccess) : Waits (s.apply e).rtc := by
  cases e with
  | rtcRead off =>
    change Waits (s.rtc.read off).2
    rw [rtc_read_keeps]
    exact h
  | rtcWrite off val => exact rtc_write_waits h off val
  | hostTime ns => exact updateAlarm_waits _
  | _ => exact h

theorem Reach.waits {P : LineDevices → LineAccess → Prop} (h : Reach P s) : Waits s.rtc := by
  induction h with
  | new => exact fun hn => nomatch hn
  | access e _ _ ih => exact waits_apply ih e

/-- A latched source is enabled. -/
def Kept (s : LineDevices) : Prop := ∀ x, s.Latched x → s.Enabled x

/-- **An allowed access** latches enabled sources only. -/
theorem kept_apply (h : Kept s) (hP : s.Allowed e) : Kept (s.apply e) := by
  intro x hx
  cases x with
  | rxData => exact hx.elim
  | thrEmpty =>
    cases e with
    | uartRead off =>
      obtain ⟨hier, hle, -, -⟩ := uart_read_keeps s.uart off
      change (s.uart.read off).2.ier &&& 2 ≠ 0
      rw [hier]
      exact h .thrEmpty (hle hx)
    | uartWrite off val =>
      change (s.uart.write off val).ier &&& 2 ≠ 0
      rcases (uart_write_thre s.uart off val).2 hx with hl | he
      · by_cases hw : off.toNat = 1 ∧ s.uart.dlab = false
        · intro hn
          rw [uart_write_enable val hw.1 hw.2] at hn
          exact hP .thrEmpty ⟨off, val, rfl, hw.1, hw.2, hn⟩ hl
        · rw [uart_write_ier hw]
          exact h .thrEmpty hl
      · exact he
    | _ => exact h .thrEmpty hx
  | alarm =>
    cases e with
    | rtcRead off =>
      change (s.rtc.read off).2.irqEnabled = true
      change (s.rtc.read off).2.irqPending = true at hx
      rw [rtc_read_keeps] at hx ⊢
      exact h .alarm hx
    | rtcWrite off val =>
      change (s.rtc.write off val).irqEnabled = true
      rcases (rtc_write_pending s.rtc off val).2 hx with hl | he
      · by_cases hw : off.toNat = 0x10
        · rw [rtc_write_enable val hw]
          by_contra hn
          have hz : val = 0 := by simpa using hn
          exact hP .alarm ⟨off, val, rfl, hw, hz⟩ hl
        · rw [rtc_write_enabled hw]
          exact h .alarm hl
      · exact he
    | hostTime ns =>
      change (GoldfishRtc.setHostTimeNs s.rtc ns).irqEnabled = true
      unfold GoldfishRtc.setHostTimeNs
      rw [updateAlarm_enabled]
      exact ((updateAlarm_pending _).2 hx).elim (h .alarm) id
    | _ => exact h .alarm hx

theorem Reach.kept (h : Reach Allowed s) : Kept s := by
  induction h with
  | new => exact fun x hx => by cases x <;> cases hx
  | access e _ hP ih => exact kept_apply ih hP

/-! ## Lines -/

theorem uart_irq_iff (u : Uart) : u.irq = true ↔ (u.ier &&& 1 ≠ 0 ∧ u.rx ≠ []) ∨ u.threIp = true := by
  unfold Uart.irq
  rw [Bool.or_eq_true, Bool.and_eq_true, bne_iff_ne, Bool.not_eq_true', List.isEmpty_eq_false_iff]

/-- A source that is enabled and pending asserts its line. -/
theorem line_of_pending (hw : Waits s.rtc) (he : s.Enabled x) (hp : s.Pending x) : s.line x = true := by
  cases x with
  | rxData => exact (uart_irq_iff _).2 (.inl ⟨he, hp⟩)
  | thrEmpty => exact (uart_irq_iff _).2 (.inr hp)
  | alarm =>
    rcases hp with hp | ⟨ha, hle⟩
    · exact hp
    · exact absurd hle (BitVec.not_le.2 (hw ha he))

theorem line_congr {y : IrqSource} (h : SameDevice x y) : s.line x = s.line y := by
  cases x <;> cases y <;> first | rfl | exact absurd rfl h | cases h

/-- A line is asserted by a source of its device. -/
theorem source_of_line (hk : Kept s) (h : s.line x = true) : ∃ y, SameDevice x y ∧ s.Enabled y ∧ s.Pending y := by
  have huart : s.uart.irq = true → ∃ y, y ≠ IrqSource.alarm ∧ s.Enabled y ∧ s.Pending y := fun hu => by
    rcases (uart_irq_iff _).1 hu with ⟨he, hp⟩ | hp
    · exact ⟨.rxData, IrqSource.noConfusion, he, hp⟩
    · exact ⟨.thrEmpty, IrqSource.noConfusion, hk .thrEmpty hp, hp⟩
  cases x with
  | rxData => exact huart h
  | thrEmpty => exact huart h
  | alarm => exact ⟨.alarm, rfl, hk .alarm h, .inl h⟩

/-- The identification register names the source that it serves. -/
theorem pending_of_reports (s : LineDevices) (x : IrqSource) : s.Reports x → s.Pending x ∧ (x = .rxData → s.Enabled x) := by
  have hread : (s.uart.read 2).1 = if s.uart.ier &&& 1 ≠ 0 ∧ s.uart.rx ≠ [] then 0xc4 else if s.uart.threIp then 0xc2 else 0xc1 := by
    change (if _ then ((0xc4 : U8), s.uart) else _).1 = _
    split
    · rfl
    · split <;> rfl
  intro hr
  cases x with
  | rxData =>
    change (s.uart.read 2).1 = 0xc4 at hr
    rw [hread] at hr
    split at hr
    · rename_i h
      exact ⟨h.2, fun _ => h.1⟩
    · split at hr <;> exact absurd hr (by decide)
  | thrEmpty =>
    change (s.uart.read 2).1 = 0xc2 at hr
    rw [hread] at hr
    split at hr
    · exact absurd hr (by decide)
    · split at hr
      · rename_i h
        exact ⟨h, fun hn => nomatch hn⟩
      · exact absurd hr (by decide)
  | alarm => exact hr.elim

theorem follows_of_kept (hw : Waits s.rtc) (hk : Kept s) : Follows s where
  asserted x := ⟨source_of_line hk, fun ⟨_, hy, he, hp⟩ => (line_congr hy).trans (line_of_pending hw he hp)⟩
  identified x hr := by
    obtain ⟨hp, he⟩ := pending_of_reports s x hr
    cases x with
    | rxData => exact ⟨he rfl, hp⟩
    | thrEmpty => exact ⟨hk .thrEmpty hp, hp⟩
    | alarm => exact hr.elim

/-- An access that neither takes nor disables a source leaves it pending and enabled. -/
theorem stays_apply (hw : Waits s.rtc) (he : s.Enabled x) (hp : s.Pending x) (hd : ¬s.Disables e x) (ht : ¬Takes e x) :
    Enabled (s.apply e) x ∧ Pending (s.apply e) x := by
  cases x with
  | rxData =>
    cases e with
    | uartRead off =>
      obtain ⟨hier, -, hrx, -⟩ := uart_read_keeps s.uart off
      refine ⟨?_, ?_⟩
      · change (s.uart.read off).2.ier &&& 1 ≠ 0
        rw [hier]
        exact he
      · change (s.uart.read off).2.rx ≠ []
        rw [hrx fun h0 => ht ⟨off, rfl, h0⟩]
        exact hp
    | uartWrite off val =>
      refine ⟨?_, ?_⟩
      · change (s.uart.write off val).ier &&& 1 ≠ 0
        by_cases hw1 : off.toNat = 1 ∧ s.uart.dlab = false
        · rw [uart_write_enable val hw1.1 hw1.2]
          exact fun hn => hd ⟨off, val, rfl, hw1.1, hw1.2, hn⟩
        · rw [uart_write_ier hw1]
          exact he
      · change (s.uart.write off val).rx ≠ []
        rw [uart_write_rx]
        exact hp
    | input bytes => exact ⟨he, fun hn => hp (List.append_eq_nil_iff.1 hn).1⟩
    | _ => exact ⟨he, hp⟩
  | thrEmpty =>
    cases e with
    | uartRead off =>
      obtain ⟨hier, -, -, hthre⟩ := uart_read_keeps s.uart off
      refine ⟨?_, ?_⟩
      · change (s.uart.read off).2.ier &&& 2 ≠ 0
        rw [hier]
        exact he
      · change (s.uart.read off).2.threIp = true
        rw [hthre fun h2 => ht ⟨off, rfl, h2⟩]
        exact hp
    | uartWrite off val =>
      refine ⟨?_, (uart_write_thre s.uart off val).1 hp⟩
      change (s.uart.write off val).ier &&& 2 ≠ 0
      by_cases hw1 : off.toNat = 1 ∧ s.uart.dlab = false
      · rw [uart_write_enable val hw1.1 hw1.2]
        exact fun hn => hd ⟨off, val, rfl, hw1.1, hw1.2, hn⟩
      · rw [uart_write_ier hw1]
        exact he
    | _ => exact ⟨he, hp⟩
  | alarm =>
    have hl : s.rtc.irqPending = true := hp.elim id fun h => absurd h.2 (BitVec.not_le.2 (hw h.1 he))
    cases e with
    | rtcRead off =>
      refine ⟨?_, .inl ?_⟩
      · change (s.rtc.read off).2.irqEnabled = true
        rw [rtc_read_keeps]
        exact he
      · change (s.rtc.read off).2.irqPending = true
        rw [rtc_read_keeps]
        exact hl
    | rtcWrite off val =>
      refine ⟨?_, .inl ((rtc_write_pending s.rtc off val).1 hl fun hn => ht ⟨off, val, rfl, hn⟩)⟩
      change (s.rtc.write off val).irqEnabled = true
      by_cases h10 : off.toNat = 0x10
      · rw [rtc_write_enable val h10, bne_iff_ne]
        exact fun hn => hd ⟨off, val, rfl, h10, hn⟩
      · rw [rtc_write_enabled h10]
        exact he
    | hostTime ns =>
      refine ⟨?_, .inl ((updateAlarm_pending _).1 hl)⟩
      change (GoldfishRtc.setHostTimeNs s.rtc ns).irqEnabled = true
      unfold GoldfishRtc.setHostTimeNs
      rw [updateAlarm_enabled]
      exact he
    | _ => exact ⟨he, .inl hl⟩

/-- A source that has just been disabled is not enabled. -/
theorem not_enabled_of_disables (h : s.Disables e x) : ¬Enabled (s.apply e) x := by
  cases x with
  | rxData =>
    obtain ⟨off, val, rfl, h1, hd, hv⟩ := h
    change ¬(s.uart.write off val).ier &&& 1 ≠ 0
    rw [uart_write_enable val h1 hd]
    exact not_not.2 hv
  | thrEmpty =>
    obtain ⟨off, val, rfl, h1, hd, hv⟩ := h
    change ¬(s.uart.write off val).ier &&& 2 ≠ 0
    rw [uart_write_enable val h1 hd]
    exact not_not.2 hv
  | alarm =>
    obtain ⟨off, val, rfl, h1, rfl⟩ := h
    change ¬(s.rtc.write off 0).irqEnabled = true
    rw [rtc_write_enable 0 h1]
    exact Bool.false_ne_true

/-- **The lines follow their enables** in every run that disables no source while its latch is set. -/
theorem lines_follow_enables (h : Reach Allowed s) : Follows s ∧ ∀ e, s.Allowed e → Steady s e := by
  refine ⟨follows_of_kept h.waits h.kept, fun e hP => ?_⟩
  have hnext := Reach.access e h hP
  refine ⟨fun x hx hother => ?_, fun x he hp hd ht => ?_⟩
  · by_contra hl
    obtain ⟨y, hy, he, hp⟩ := source_of_line hnext.kept (Bool.eq_true_of_not_eq_false hl)
    refine hother y hy (fun hyx => ?_) ⟨he, hp⟩
    rw [hyx] at he
    exact not_enabled_of_disables hx he
  · obtain ⟨he', hp'⟩ := stays_apply h.waits he hp hd ht
    exact ⟨he', hp', line_of_pending hnext.waits he' hp'⟩

/-- The transmitter is enabled, sends a byte and is noticed before it is disabled. -/
theorem lines_follow_enables_sent : Follows ((((new.apply (.uartWrite 1 2)).apply (.uartWrite 0 0x41)).apply (.uartRead 2)).apply (.uartWrite 1 0)) :=
  (lines_follow_enables (.access (.uartWrite 1 0) (.access (.uartRead 2) (.access (.uartWrite 0 0x41) (.access (.uartWrite 1 2) .new
    (fun x hx hl => by cases x <;> cases hl)) (fun x hx hl => by
      cases x with
      | rxData => cases hl
      | thrEmpty =>
        obtain ⟨off, val, he, h1, -, -⟩ := hx
        cases he
        exact absurd h1 (by decide)
      | alarm => cases hl)) (fun x hx hl => by
      cases x with
      | rxData => cases hl
      | thrEmpty =>
        obtain ⟨off, val, he, -⟩ := hx
        cases he
      | alarm => cases hl)) (fun x hx hl => by cases x <;> cases hl))).1

/-- The transmitter's interrupt outlives its enable. -/
theorem thre_outlives_enable : ¬∀ s, Reach (fun _ _ => True) s → Follows s ∧ ∀ e, Steady s e := by
  intro hall
  have hreach : Reach (fun _ _ => True) ((new.apply (.uartWrite 1 2)).apply (.uartWrite 1 0)) :=
    .access (.uartWrite 1 0) (.access (.uartWrite 1 2) .new trivial) trivial
  obtain ⟨y, hy, he, hp⟩ := ((hall _ hreach).1.asserted .thrEmpty).1 rfl
  cases y with
  | rxData => exact hp rfl
  | thrEmpty => exact he rfl
  | alarm => exact hy rfl

end LineDevices

namespace VirtBus

open LineDevices

/-! ## On the bus -/

def lineDevices (b : VirtBus) : LineDevices := ⟨b.uart, b.rtc⟩

/-- The devices after at most one access. -/
def OneAccess (b b' : VirtBus) : Prop := b'.lineDevices = b.lineDevices ∨ ∃ e, b'.lineDevices = b.lineDevices.apply e

theorem processQueue_lineDevices (b : VirtBus) (i qi : ℕ) : (b.processQueue i qi).lineDevices = b.lineDevices := by
  unfold processQueue
  split
  · rfl
  · split <;> rfl

theorem virtioWrite_lineDevices (b : VirtBus) (i : ℕ) (off : U64) (val : U32) : (b.virtioWrite i off val).lineDevices = b.lineDevices := by
  unfold virtioWrite
  split
  · rfl
  · split
    · rfl
    · exact processQueue_lineDevices _ _ _

/-- **A load** from the bus is at most one access to the devices. -/
theorem busRead_oneAccess (w : Width) (b : VirtBus) (addr : U64) : OneAccess b (busRead w b addr).2 := by
  have hmmio : OneAccess b (b.mmioRead addr w.bytes).2 := by
    unfold mmioRead
    split
    · exact .inl rfl
    · exact .inl rfl
    · exact .inl rfl
    · rename_i off _ _ _ _
      exact .inr ⟨.uartRead off, rfl⟩
    · rename_i off _ _ _ _ _
      exact .inr ⟨.rtcRead off, rfl⟩
    · exact .inl rfl
    · exact .inl rfl
  unfold busRead
  split
  · exact .inl rfl
  · split <;> (rename_i h; rw [h] at hmmio; exact hmmio)

/-- **A store** on the bus is at most one access to the devices. -/
theorem busWrite_oneAccess (w : Width) (b : VirtBus) (addr val : U64) : OneAccess b (busWrite w b addr val).2 := by
  have hmmio : ∀ (b b' : VirtBus) v, b.mmioWrite addr v = some b' → OneAccess b b' := fun b b' v h => by
    unfold mmioWrite at h
    split at h
    · cases h
      unfold testWrite
      dsimp only
      split <;> exact .inl rfl
    · cases h
      unfold clintWrite
      split <;> exact .inl rfl
    · cases h
      exact .inl rfl
    · rename_i off _ _ _ _
      cases h
      exact .inr ⟨.uartWrite off (v.setWidth 8), rfl⟩
    · rename_i off _ _ _ _ _
      cases h
      exact .inr ⟨.rtcWrite off (v.setWidth 32), rfl⟩
    · cases h
      exact .inl (virtioWrite_lineDevices _ _ _ _)
    · cases h
  unfold busWrite
  dsimp only
  split
  · exact .inl rfl
  · split
    · rename_i h
      exact hmmio { b with jit := b.jit.noteStore addr } _ _ h
    · exact .inl rfl

end VirtBus
end Lish
