import Lish.Web.SlotPartition
/-!
# StoreSteps — each operation keeps the partition

Registrations, reservations, retirement, clearing and destruction of the store, one lemma each.
-/
namespace Lish
namespace JitCodeStore

open FreeRuns Lish.Span

variable {s s' : JitCodeStore} {host : TableHost}

theorem canRegister_room {n bytes : ℕ} (h : s.canRegister n bytes = true) :
    0 < n ∧ s.owners.size + s.reservations.size < s.limits.maxModules ∧ s.liveSlots + s.pendingSlots + n ≤ s.limits.maxSlots ∧
      s.liveBytes + s.pendingBytes + bytes ≤ s.limits.maxBytes ∧ s.hasRun n = true := by
  unfold canRegister at h
  simp only [Bool.and_eq_true, decide_eq_true_eq] at h
  obtain ⟨⟨⟨⟨⟨⟨⟨-, -⟩, h1⟩, -⟩, h2⟩, h3⟩, h4⟩, h5⟩ := h
  exact ⟨h1, h2, h3, h4, h5⟩

theorem Allocated.reservations {n b : ℕ} (h : Allocated s n b s') : s'.reservations = s.reservations := by
  cases h <;> rfl

/-- The slots an operation is about to hand out have null entries. -/
theorem Sound.handedOut {n b : ℕ} (h : Sound s) {bytes : ℕ} (hc : s.canRegister n bytes = true) (ha : s.allocate host n = (.ok b, s')) :
    Balanced (.module b n bytes) s' ∧ ∀ x, 0 < inside ⟨b, n⟩ x → s.table.get x = none := by
  obtain ⟨-, hm, hs, hb, hrun⟩ := canRegister_room hc
  exact h.allocated (allocate_ok hrun ha) hm hs hb

/-! ## Registration -/

theorem mapM_length {exports : JsInstance} {names : List String} {fs : List JsFunction} (h : names.mapM exports = some fs) :
    fs.length = names.length := by
  induction names generalizing fs with
  | nil =>
    cases h
    rfl
  | cons n ns ih =>
    rw [List.mapM_cons] at h
    obtain ⟨f, -, h⟩ := Option.bind_eq_some_iff.1 h
    obtain ⟨gs, hgs, h⟩ := Option.bind_eq_some_iff.1 h
    obtain rfl := Option.some.inj h
    rw [List.length_cons, List.length_cons, ih hgs]

/-- A registration can undo what it installs. -/
def Undoes (s : JitCodeStore) (host : TableHost) (exports : JsInstance) (names : List String) : Prop :=
  ∀ fs b, names.mapM exports = some fs → (s.allocate host fs.length).1 = .ok b → RollsBack host b fs

theorem Sound.register {exports : JsInstance} {names : List String} {bytes : ℕ} (h : Sound s)
    (hu : s.canRegister names.length bytes = true → s.Undoes host exports names) :
    Sound (s.register host exports names bytes).2 := by
  unfold JitCodeStore.register
  cases hc : s.canRegister names.length bytes with
  | false => exact h.stats _
  | true =>
    rw [Bool.not_true, if_neg Bool.false_ne_true]
    unfold getFunctions
    cases hf : names.mapM exports with
    | none => exact h.stats _
    | some fs =>
      have hlen := mapM_length hf
      have hu := hu hc
      rw [← hlen] at hc
      dsimp only
      rcases ha : s.allocate host fs.length with ⟨e | b, s₁⟩
      · rw [allocate_error ha]
        exact h
      · have hb := (h.handedOut hc ha).1
        have hne : fs ≠ [] := fun h0 => by
          have := (canRegister_room hc).1
          rw [h0] at this
          exact Nat.lt_irrefl 0 this
        have hi := hb.install hne (hu fs b hf (by rw [ha]))
        dsimp only
        generalize s₁.install host b fs bytes = r at hi
        cases hi with
        | live hs _ _ _ => exact hs
        | failed hs _ _ => exact hs

/-! ## Reservations -/

theorem Sound.reserve {n bytes : ℕ} (h : Sound s) : Sound (s.reserve host n bytes).2 := by
  unfold JitCodeStore.reserve
  cases hc : s.canRegister n bytes with
  | false => exact h.stats _
  | true =>
    rw [Bool.not_true, if_neg Bool.false_ne_true]
    rcases ha : s.allocate host n with ⟨e | b, s₁⟩
    · rw [allocate_error ha]
      exact h
    · have hb := (h.handedOut hc ha).1
      have hnew : s₁.reservations.get? s₁.nextReservation = none := by
        cases ho : s₁.reservations.get? s₁.nextReservation with
        | none => rfl
        | some w => exact absurd (hb.reservation _ w ho).2.1 (Nat.lt_irrefl _)
      refine Balanced.stats ?_ _
      exact { hb with
        partition := fun x => by
          have hp := hb.partition x
          change s₁.live x + (s₁.reservations.set s₁.nextReservation ⟨s₁.nextReservation, s₁.generation, b, n, bytes⟩).sum
            (fun r => r.span.inside x) + count s₁.free x + 0 = if s₁.base ≤ x ∧ x < s₁.next then 1 else 0
          rw [OrderedMap.sum_set_new hnew]
          change s₁.live x + s₁.reserved x + count s₁.free x + inside ⟨b, n⟩ x = _ at hp
          change s₁.live x + (s₁.reserved x + inside ⟨b, n⟩ x) + count s₁.free x + 0 = if s₁.base ≤ x ∧ x < s₁.next then 1 else 0
          omega
        reservation := fun id r hr => by
          dsimp only at hr ⊢
          rw [OrderedMap.get?_set] at hr
          split_ifs at hr with hid
          · cases hr
            exact ⟨hid.symm, by omega, (canRegister_room hc).1⟩
          · obtain ⟨h1, h2, h3⟩ := hb.reservation id r hr
            exact ⟨h1, by omega, h3⟩
        pendingSlots := by
          dsimp only
          rw [OrderedMap.sum_set_new hnew, hb.pendingSlots]
        pendingBytes := by
          dsimp only
          rw [OrderedMap.sum_set_new hnew, hb.pendingBytes]
        modules_le := by
          have := hb.modules_le
          dsimp only [InHand.nothing, InHand.module] at this ⊢
          rw [OrderedMap.size_set_new hnew]
          omega
        slots_le := by
          have := hb.slots_le
          dsimp only [InHand.nothing, InHand.module] at this ⊢
          omega
        bytes_le := by
          have := hb.bytes_le
          dsimp only [InHand.nothing, InHand.module] at this ⊢
          omega }

/-- A consumed reservation is in hand. -/
theorem Sound.consume {id : ℕ} {r : Reservation} (h : Sound s) (hr : s.reservations.get? id = some r) :
    Balanced (.module r.base r.slotCount r.byteLength) (s.consumeReservation r) := by
  obtain rfl := (h.reservation id r hr).1
  have h1 := OrderedMap.sum_delete hr (·.slotCount)
  have h2 := OrderedMap.sum_delete hr (·.byteLength)
  have h3 := OrderedMap.size_delete hr
  exact { h with
    partition := fun x => by
      have hp := h.partition x
      have hd := OrderedMap.sum_delete hr fun r => r.span.inside x
      change s.live x + (s.reservations.delete r.id).sum (fun r => r.span.inside x) + count s.free x + inside r.span x =
        if s.base ≤ x ∧ x < s.next then 1 else 0
      change s.live x + s.reservations.sum (fun r => r.span.inside x) + count s.free x + 0 = _ at hp
      omega
    reservation := fun i q hq => by
      change (s.reservations.delete r.id).get? i = some q at hq
      rw [OrderedMap.get?_delete] at hq
      split_ifs at hq
      exact h.reservation i q hq
    pendingSlots := by
      have := h.pendingSlots
      dsimp only [consumeReservation]
      omega
    pendingBytes := by
      have := h.pendingBytes
      dsimp only [consumeReservation]
      omega
    modules_le := by
      have := h.modules_le
      dsimp only [consumeReservation, InHand.nothing, InHand.module] at this ⊢
      omega
    slots_le := by
      have := h.slots_le
      have := h.pendingSlots
      dsimp only [consumeReservation, InHand.nothing, InHand.module] at *
      omega
    bytes_le := by
      have := h.bytes_le
      have := h.pendingBytes
      dsimp only [consumeReservation, InHand.nothing, InHand.module] at *
      omega }

/-- A released reservation's slots are free, and the reservation is gone. -/
theorem Sound.release {id : ℕ} (h : Sound s) :
    Sound (s.releaseReservation id).2 ∧ (s.releaseReservation id).2.reservations.get? id = none ∧
      ∀ r, s.reservations.get? id = some r → ∀ x, 0 < r.span.inside x → 0 < count (s.releaseReservation id).2.free x := by
  unfold releaseReservation
  cases hr : s.reservations.get? id with
  | none => exact ⟨h, hr, fun r hc => (nomatch hc)⟩
  | some r =>
    have hb := (h.consume hr).drop
    refine ⟨hb.releaseHeld, ?_, fun q hq x hx => ?_⟩
    · change (s.reservations.delete r.id).get? id = none
      rw [OrderedMap.get?_delete, if_pos (h.reservation id r hr).1.symm]
    · cases hq
      exact hb.held_free hx

/-- A reserved module can be installed: its reservation is current, its exports are functions, as many as reserved, and the
table takes them. -/
def Installable (s : JitCodeStore) (host : TableHost) (r : Reservation) (exports : JsInstance) (names : List String) : Prop :=
  r.generation = s.generation ∧ names.length = r.slotCount ∧
    ∃ fs, names.mapM exports = some fs ∧ ∀ j < fs.length, host.set (r.base + j) fs[j]? = false

/-- Turning a reservation into a module can undo what it installs. -/
def UndoesReserved (s : JitCodeStore) (host : TableHost) (id : ℕ) (exports : JsInstance) (names : List String) : Prop :=
  ∀ r fs, s.reservations.get? id = some r → r.generation = s.generation → names.length = r.slotCount → names.mapM exports = some fs →
    RollsBack host r.base fs

/-- **Turning a reservation into a module** owns every slot of it or frees every slot; the reservation is gone either way. -/
theorem Sound.registerReserved {id : ℕ} {exports : JsInstance} {names : List String} (h : Sound s)
    (hu : s.UndoesReserved host id exports names) :
    Sound (s.registerReserved host id exports names).2 ∧ (s.registerReserved host id exports names).2.reservations.get? id = none ∧
      ∀ r, s.reservations.get? id = some r →
        ((s.registerReserved host id exports names).1 = .ok r.base ∧ s.Installable host r exports names ∧
          ∀ x, 0 < r.span.inside x → (s.registerReserved host id exports names).2.slotOwners.has x = true) ∨
        ((∀ i, (s.registerReserved host id exports names).1 = .ok i → i < 0) ∧
          ∀ x, 0 < r.span.inside x → 0 < count (s.registerReserved host id exports names).2.free x) := by
  unfold JitCodeStore.registerReserved
  cases hr : s.reservations.get? id with
  | none => exact ⟨h, hr, fun r hc => (nomatch hc)⟩
  | some r =>
    have hid := (h.reservation id r hr).1
    dsimp only
    by_cases hg : r.generation ≠ s.generation
    · rw [if_pos hg]
      obtain ⟨h1, h2, h3⟩ := @Sound.release s id h
      refine ⟨h1, h2, fun q hq => .inr ⟨fun i hi => ?_, fun x hx => h3 q (hr.trans hq) x hx⟩⟩
      cases hi
      decide
    rw [if_neg hg]
    by_cases hn : names.length ≠ r.slotCount
    · rw [if_pos hn]
      obtain ⟨h1, h2, h3⟩ := @Sound.release s.registrationFailure id (h.stats _)
      exact ⟨h1, h2, fun q hq => .inr ⟨fun i hi => (nomatch hi), fun x hx => h3 q (hr.trans hq) x hx⟩⟩
    rw [if_neg hn]
    rw [not_not] at hn
    unfold getFunctions
    cases hf : names.mapM exports with
    | none =>
      obtain ⟨h1, h2, h3⟩ := @Sound.release s.registrationFailure id (h.stats _)
      exact ⟨h1, h2, fun q hq => .inr ⟨fun i hi => (nomatch hi), fun x hx => h3 q (hr.trans hq) x hx⟩⟩
    | some fs =>
      have hlen : fs.length = r.slotCount := (mapM_length hf).trans hn
      have hb := h.consume hr
      rw [← hlen] at hb
      have hne : fs ≠ [] := fun h0 => by
        have := (h.reservation id r hr).2.2
        rw [← hlen, h0] at this
        exact Nat.lt_irrefl 0 this
      have hgone : (s.consumeReservation r).reservations.get? id = none := by
        change (s.reservations.delete r.id).get? id = none
        rw [OrderedMap.get?_delete, if_pos hid.symm]
      have hi := hb.install hne (hu r fs hr (not_not.1 hg) hn hf)
      have hspan : r.span = ⟨r.base, fs.length⟩ := by rw [Reservation.span, hlen]
      dsimp only
      revert hi
      generalize (s.consumeReservation r).install host r.base fs r.byteLength = q
      intro hi
      cases hi with
      | live hs hres hacc hx =>
        refine ⟨hs, by rw [hres]; exact hgone, fun q hq => ?_⟩
        cases hq
        rw [hspan]
        exact .inl ⟨rfl, ⟨not_not.1 hg, hn, fs, hf, hacc⟩, hx⟩
      | @failed s₁ hs hres hx =>
        have hrel : s₁.releaseReservation id = (false, s₁) := by
          unfold releaseReservation
          rw [hres, hgone]
        dsimp only
        rw [hrel]
        refine ⟨hs, by rw [hres]; exact hgone, fun q hq => ?_⟩
        cases hq
        rw [hspan]
        exact .inr ⟨fun i hi => (nomatch hi), hx⟩

/-! ## Retirement -/

/-- What retiring a slot queues. -/
theorem has_retire (slot reason x : ℕ) :
    (s.retire slot reason).retirements.has x = (s.retirements.has x || (s.slotOwners.has slot && decide (x = slot))) := by
  unfold JitCodeStore.retire
  cases hl : s.slotOwners.has slot with
  | false => rw [Bool.not_false, if_pos rfl, Bool.false_and, Bool.or_false]
  | true =>
    rw [Bool.not_true, if_neg Bool.false_ne_true, Bool.true_and]
    unfold OrderedMap.has
    dsimp only
    rw [OrderedMap.get?_set]
    by_cases hx : x = slot
    · rw [if_pos hx, decide_eq_true hx, Bool.or_true]
      rfl
    · rw [if_neg hx, decide_eq_false hx, Bool.or_false]

theorem retire_rest (slot reason : ℕ) : s.retire slot reason = { s with retirements := (s.retire slot reason).retirements } := by
  unfold JitCodeStore.retire
  split_ifs <;> rfl

/-- Only live slots are queued. -/
theorem Balanced.queue {hand : InHand} (h : Balanced hand s) (queue : OrderedMap ℕ ℕ)
    (hq : ∀ x, queue.has x = true → s.slotOwners.has x = true) : Balanced hand { s with retirements := queue } :=
  { h with retired := hq }

theorem Sound.retire (h : Sound s) (slot reason : ℕ) : Sound (s.retire slot reason) := by
  rw [retire_rest]
  refine h.queue _ fun x hx => ?_
  rw [has_retire, Bool.or_eq_true, Bool.and_eq_true, decide_eq_true_iff] at hx
  rcases hx with hx | ⟨hl, rfl⟩
  · exact h.retired x hx
  · exact hl

/-- A slot leaves the maps and the table, whatever becomes of its owner. -/
theorem Balanced.leave {released : List ℕ} {slot o : ℕ} {w : JitOwner} {table : FunctionTable} (owners : OrderedMap ℕ JitOwner)
    (liveBytes : ℕ) (h : Balanced ⟨fun x => released.count x, 0, 0, 0⟩ s) (hs : s.slotOwners.get? slot = some o) (hw : s.owners.get? o = some w)
    (hl : table.length = s.table.length) (ht : ∀ x, table.get x = if x = slot then none else s.table.get x)
    (hr : ∀ x, s.retirements.has x = false) (hother : ∀ o', o' ≠ o → owners.get? o' = s.owners.get? o')
    (hself : ∀ w', owners.get? o = some w' → w'.slots = w.slots.erase slot ∧ w'.slots ≠ [])
    (hgone : owners.get? o = none → w.slots.erase slot = [])
    (hslots : owners.sum (·.slots.length) = s.liveSlots - 1) (hbytes : liveBytes = owners.sum (·.bytes)) (hle : liveBytes ≤ s.liveBytes)
    (hsize : owners.size ≤ s.owners.size) :
    Balanced ⟨fun x => (released ++ [slot]).count x, 0, 0, 0⟩
      { s with
        table := table, slotOwners := s.slotOwners.delete slot, owners := owners
        liveSlots := s.liveSlots - 1, liveBytes := liveBytes } := by
  have hnodup := (h.owner o w hw).1
  have hhas : ∀ x, (s.slotOwners.delete slot).has x = if x = slot then false else s.slotOwners.has x := fun x => by
    unfold OrderedMap.has
    rw [OrderedMap.get?_delete]
    split_ifs <;> rfl
  have hslot : s.slotOwners.has slot = true := by
    unfold OrderedMap.has
    rw [hs]
    rfl
  refine { h with
    next_le := by rw [hl]; exact h.next_le
    partition := fun x => ?_
    filled := fun x hx => ?_
    null := fun x hx hn => ?_
    owned := fun x o' => ?_
    owner := fun o' w' hw' => ?_
    retired := fun x hx => ?_
    liveSlots := hslots.symm
    liveBytes := hbytes
    modules_le := ?_
    slots_le := ?_
    bytes_le := ?_ }
  · have hp := h.partition x
    change live { s with slotOwners := s.slotOwners.delete slot } x + s.reserved x + count s.free x + (released ++ [slot]).count x =
      if s.base ≤ x ∧ x < s.next then 1 else 0
    rw [← hp, List.count_append, List.count_singleton]
    unfold live
    dsimp only
    rw [hhas]
    by_cases hx : x = slot
    · rw [if_pos hx, hx, hslot, if_pos rfl, if_neg Bool.false_ne_true, beq_self_eq_true, if_pos rfl]
      omega
    · have hbeq : (slot == x) = false := beq_eq_false_iff_ne.2 (Ne.symm hx)
      rw [if_neg hx, hbeq, if_neg Bool.false_ne_true, Nat.add_zero]
  · dsimp only at hx ⊢
    rw [hhas] at hx
    rw [ht]
    split_ifs at hx ⊢ with he
    exact h.filled x hx
  · dsimp only at hn ⊢
    rw [hhas] at hn
    rw [ht]
    split_ifs at hn ⊢ with he
    · rfl
    · exact h.null x hx hn
  · dsimp only
    rw [OrderedMap.get?_delete]
    by_cases ho : o' = o
    · subst ho
      by_cases hx : x = slot
      · rw [if_pos hx]
        refine ⟨fun hc => absurd hc.symm (Option.some_ne_none _), ?_⟩
        rintro ⟨w', hw', hm⟩
        rw [(hself w' hw').1, hx] at hm
        exact absurd hm hnodup.not_mem_erase
      · rw [if_neg hx, h.owned x o', hw]
        constructor
        · rintro ⟨w', hw', hm⟩
          cases hw'
          have hm' := (List.mem_erase_of_ne hx).2 hm
          cases hg : owners.get? o' with
          | none =>
            rw [hgone hg] at hm'
            cases hm'
          | some w' => exact ⟨w', rfl, by rw [(hself w' hg).1]; exact hm'⟩
        · rintro ⟨w', hw', hm⟩
          rw [(hself w' hw').1] at hm
          exact ⟨w, rfl, (List.mem_erase_of_ne hx).1 hm⟩
    · rw [hother o' ho, ← h.owned x o']
      by_cases hx : x = slot
      · rw [if_pos hx, hx, hs]
        exact ⟨fun hc => absurd hc.symm (Option.some_ne_none _), fun hc => absurd (Option.some.inj hc).symm ho⟩
      · rw [if_neg hx]
  · dsimp only at hw'
    by_cases ho : o' = o
    · subst ho
      obtain ⟨h1, h2⟩ := hself w' hw'
      exact ⟨by rw [h1]; exact hnodup.erase slot, h2, (h.owner o' w hw).2.2⟩
    · rw [hother o' ho] at hw'
      exact h.owner o' w' hw'
  · dsimp only at hx
    rw [hr x] at hx
    cases hx
  · have := h.modules_le
    dsimp only at this ⊢
    omega
  · have := h.slots_le
    dsimp only at this ⊢
    omega
  · have := h.bytes_le
    dsimp only at this ⊢
    omega

/-- **A slot leaves its owner**; the last one takes the owner with it. -/
theorem Balanced.dropSlot {released : List ℕ} {slot o : ℕ} {w : JitOwner} {table : FunctionTable}
    (h : Balanced ⟨fun x => released.count x, 0, 0, 0⟩ s) (reason : ℕ) (hs : s.slotOwners.get? slot = some o) (hw : s.owners.get? o = some w)
    (hl : table.length = s.table.length) (ht : ∀ x, table.get x = if x = slot then none else s.table.get x)
    (hr : ∀ x, s.retirements.has x = false) :
    Balanced ⟨fun x => (released ++ [slot]).count x, 0, 0, 0⟩
      (JitCodeStore.dropSlot { s with table := table, slotOwners := s.slotOwners.delete slot } slot reason o w) := by
  have hmem : slot ∈ w.slots := by
    obtain ⟨w', hw', hm⟩ := (h.owned slot o).1 hs
    rw [hw] at hw'
    rw [Option.some.inj hw']
    exact hm
  have hpos := List.length_pos_of_mem hmem
  have hlen : (w.slots.erase slot).length = w.slots.length - 1 := List.length_erase_of_mem hmem
  have hls := h.liveSlots
  have hlb := h.liveBytes
  unfold JitCodeStore.dropSlot
  dsimp only
  generalize hv : ({ w with slots := w.slots.erase slot, evicted := w.evicted || reason == 1 } : JitOwner) = v
  have hvs : v.slots = w.slots.erase slot := by rw [← hv]
  have hvb : v.bytes = w.bytes := by rw [← hv]
  have hs1 := OrderedMap.sum_set_old hw v (·.slots.length)
  have hs2 := OrderedMap.sum_set_old hw v (·.bytes)
  have hs3 := OrderedMap.size_set_old hw v
  have hget : (s.owners.set o v).get? o = some v := by rw [OrderedMap.get?_set, if_pos rfl]
  have hother : ∀ o', o' ≠ o → (s.owners.set o v).get? o' = s.owners.get? o' := fun o' ho => by rw [OrderedMap.get?_set, if_neg ho]
  rw [hvs] at hs1
  by_cases he : w.slots.erase slot = []
  · have hd1 := OrderedMap.sum_delete hget (·.slots.length)
    have hd2 := OrderedMap.sum_delete hget (·.bytes)
    have hd3 := OrderedMap.size_delete hget
    rw [hvs] at hd1
    have hzero : (w.slots.erase slot).length = 0 := by rw [he]; rfl
    rw [if_pos he]
    refine (h.leave ((s.owners.set o v).delete o) (s.liveBytes - w.bytes) hs hw hl ht hr (fun o' ho => ?_)
      (fun w' hw' => ?_) (fun _ => he) ?_ ?_ (Nat.sub_le _ _) ?_).stats _
    · rw [OrderedMap.get?_delete, if_neg ho, hother o' ho]
    · rw [OrderedMap.get?_delete, if_pos rfl] at hw'
      cases hw'
    · omega
    · omega
    · omega
  · rw [if_neg he]
    refine (h.leave (s.owners.set o v) s.liveBytes hs hw hl ht hr hother (fun w' hw' => ?_)
      (fun hc => ?_) ?_ ?_ le_rfl ?_).stats _
    · rw [hget] at hw'
      rw [← Option.some.inj hw', hvs]
      exact ⟨rfl, he⟩
    · rw [hget] at hc
      cases hc
    · omega
    · omega
    · omega

/-! ## Flushing -/

/-- What no retirement touches. -/
structure Untouched (s s' : JitCodeStore) : Prop where
  reservations : s'.reservations = s.reservations
  base : s'.base = s.base
  next : s'.next = s.next
  destroyed : s'.destroyed = s.destroyed
  generation : s'.generation = s.generation

theorem Untouched.refl (s : JitCodeStore) : Untouched s s := ⟨rfl, rfl, rfl, rfl, rfl⟩

theorem Untouched.trans {s'' : JitCodeStore} (h : Untouched s s') (h' : Untouched s' s'') : Untouched s s'' :=
  ⟨h'.reservations.trans h.reservations, h'.base.trans h.base, h'.next.trans h.next, h'.destroyed.trans h.destroyed,
    h'.generation.trans h.generation⟩

theorem untouched_dropSlot (slot reason o : ℕ) (w : JitOwner) : Untouched s (s.dropSlot slot reason o w) := by
  unfold JitCodeStore.dropSlot
  dsimp only
  split_ifs <;> exact ⟨rfl, rfl, rfl, rfl, rfl⟩

theorem dropSlot_maps (slot reason o : ℕ) (w : JitOwner) :
    (s.dropSlot slot reason o w).slotOwners = s.slotOwners ∧ (s.dropSlot slot reason o w).retirements = s.retirements := by
  unfold JitCodeStore.dropSlot
  dsimp only
  split_ifs <;> exact ⟨rfl, rfl⟩

/-- **The loop** takes out every slot it is given, when the table takes every null. -/
theorem Balanced.flushLoop (slots : List (ℕ × ℕ)) {released : List ℕ} (h : Balanced ⟨fun x => released.count x, 0, 0, 0⟩ s)
    (hr : ∀ x, s.retirements.has x = false) (hset : ∀ e ∈ slots, host.set e.1 none = false) :
    ∃ all s', flushLoop host slots released s = (.ok all, s') ∧ Balanced ⟨fun x => all.count x, 0, 0, 0⟩ s' ∧ Untouched s s' ∧
      (∀ x, s'.slotOwners.has x = true → s.slotOwners.has x = true) ∧ ∀ e ∈ slots, s'.slotOwners.has e.1 = false := by
  induction slots generalizing released s with
  | nil => exact ⟨released, s, rfl, h, .refl s, fun x hx => hx, fun e he => (nomatch he)⟩
  | cons e rest ih =>
    obtain ⟨slot, reason⟩ := e
    have hrest : ∀ e ∈ rest, host.set e.1 none = false := fun e he => hset e (List.mem_cons_of_mem _ he)
    rw [JitCodeStore.flushLoop]
    cases ho : s.slotOwners.get? slot with
    | none =>
      obtain ⟨all, s', hrun, hb, hu, hmono, hout⟩ := ih h hr hrest
      refine ⟨all, s', hrun, hb, hu, hmono, fun e he => ?_⟩
      rcases List.mem_cons.1 he with rfl | hm
      · by_contra hc
        have := hmono slot (eq_true_of_ne_false hc)
        rw [OrderedMap.has, ho] at this
        cases this
      · exact hout e hm
    | some o =>
      have hlive : s.slotOwners.has slot = true := by
        rw [OrderedMap.has, ho]
        rfl
      have hin : slot < s.table.length := by
        have hp := h.partition slot
        have hl := live_pos.2 hlive
        split_ifs at hp with hb
        · exact hb.2.trans_le h.next_le
        · omega
      dsimp only
      cases ht : s.table.set host slot none with
      | none =>
        have := set_none ht hin
        rw [hset _ List.mem_cons_self] at this
        cases this
      | some table =>
        obtain ⟨-, -, hlen, hget⟩ := set_some ht
        obtain ⟨w, hw, -⟩ := (h.owned slot o).1 ho
        dsimp only
        rw [hw]
        dsimp only
        have hb := h.dropSlot reason ho hw hlen hget hr
        have hu : Untouched s { s with table := table, slotOwners := s.slotOwners.delete slot } := ⟨rfl, rfl, rfl, rfl, rfl⟩
        have hu := hu.trans (untouched_dropSlot slot reason o w)
        have hm := dropSlot_maps (s := { s with table := table, slotOwners := s.slotOwners.delete slot }) slot reason o w
        revert hb hu hm
        generalize JitCodeStore.dropSlot { s with table := table, slotOwners := s.slotOwners.delete slot } slot reason o w = s₁
        intro hb hu hm
        obtain ⟨all, s', hrun, hb', hu', hmono, hout⟩ := ih hb (fun x => by rw [hm.2]; exact hr x) hrest
        have hdel : ∀ x, s₁.slotOwners.has x = true → x ≠ slot ∧ s.slotOwners.has x = true := fun x hx => by
          rw [hm.1, OrderedMap.has, OrderedMap.get?_delete] at hx
          split_ifs at hx with he
          · cases hx
          · exact ⟨he, hx⟩
        refine ⟨all, s', hrun, hb', hu.trans hu', fun x hx => (hdel x (hmono x hx)).2, fun e he => ?_⟩
        rcases List.mem_cons.1 he with rfl | hmem
        · by_contra hc
          exact (hdel slot (hmono slot (eq_true_of_ne_false hc))).1 rfl
        · exact hout e hmem

theorem count_cons_inside (slot : ℕ) (slots : List ℕ) (x : ℕ) : (slot :: slots).count x = inside ⟨slot, 1⟩ x + slots.count x := by
  rw [List.count_cons, Nat.add_comm]
  congr 1
  unfold inside
  dsimp only
  by_cases hx : x = slot
  · rw [if_pos (beq_iff_eq.2 hx.symm), if_pos (by omega)]
  · rw [if_neg fun hc => hx (beq_iff_eq.1 hc).symm, if_neg (by omega)]

/-- The slots cleared are given back. -/
theorem Balanced.releaseRuns (rest : List ℕ) {start len : ℕ}
    (h : Balanced ⟨fun x => inside ⟨start, len⟩ x + rest.count x, 0, 0, 0⟩ s) :
    Sound (s.releaseRuns start len rest) ∧ Untouched s (s.releaseRuns start len rest) ∧
      (s.releaseRuns start len rest).slotOwners = s.slotOwners ∧ (s.releaseRuns start len rest).retirements = s.retirements := by
  induction rest generalizing start len s with
  | nil => exact ⟨h.releaseRun, ⟨rfl, rfl, rfl, rfl, rfl⟩, rfl, rfl⟩
  | cons slot slots ih =>
    have hone := count_cons_inside slot slots
    rw [JitCodeStore.releaseRuns]
    by_cases hs : slot = start + len
    · rw [if_pos hs]
      refine ih ?_
      have heq : (fun x => inside ⟨start, len + 1⟩ x + slots.count x) = fun x => inside ⟨start, len⟩ x + (slot :: slots).count x := by
        funext x
        rw [hone, inside_join, hs, Nat.add_assoc]
      rw [heq]
      exact h
    · rw [if_neg hs]
      have hrel := h.releaseRun
      have heq : (fun x => (slot :: slots).count x) = fun x => inside ⟨slot, 1⟩ x + slots.count x := funext hone
      rw [heq] at hrel
      obtain ⟨h1, h2, h3, h4⟩ := ih hrel
      exact ⟨h1, (show Untouched s (s.releaseRun start len) from ⟨rfl, rfl, rfl, rfl, rfl⟩).trans h2, h3, h4⟩

/-- The table takes every null, or none: it refuses the first already. -/
def Flushes (s : JitCodeStore) (host : TableHost) : Prop :=
  (∀ x, s.retirements.has x = true → host.set x none = false) ∨
    ∃ e rest, s.retirements.entries.mergeSort (fun a b => decide (a.1 ≤ b.1)) = e :: rest ∧ host.set e.1 none = true

/-- **A flush** frees the slots it clears. -/
theorem Sound.flushRetired (h : Sound s) (hf : s.Flushes host) :
    Sound (s.flushRetired host).2 ∧ Untouched s (s.flushRetired host).2 ∧
      (∀ x, (s.flushRetired host).2.slotOwners.has x = true → s.slotOwners.has x = true) ∧
      ((∀ x, s.retirements.has x = true → host.set x none = false) → ∀ x, s.retirements.has x = true → 0 < count (s.flushRetired host).2.free x) := by
  unfold JitCodeStore.flushRetired
  by_cases hz : s.retirements.size = 0
  · rw [if_pos hz]
    refine ⟨h, .refl s, fun x hx => hx, fun _ x hx => ?_⟩
    have := OrderedMap.mem_keys.2 hx
    rw [OrderedMap.keys, List.length_eq_zero_iff.1 hz] at this
    cases this
  rw [if_neg hz]
  have hempty : ∀ x, (OrderedMap.empty : OrderedMap ℕ ℕ).has x = false := fun x => rfl
  have hq : Sound { s with retirements := .empty } := h.queue _ fun x hx => (nomatch hx)
  dsimp only
  rcases hf with hall | ⟨e, rest, hsort, href⟩
  · have hset : ∀ e ∈ s.retirements.entries.mergeSort (fun a b => decide (a.1 ≤ b.1)), host.set e.1 none = false := fun e he => by
      have hm := List.mem_mergeSort.1 he
      refine hall e.1 (OrderedMap.mem_keys.1 (List.mem_map_of_mem hm))
    obtain ⟨all, s', hrun, hb, hu, hmono, hout⟩ := @Balanced.flushLoop _ host _ [] hq hempty hset
    rw [hrun]
    have hfinal : ∀ s'' : JitCodeStore, Sound s'' → Untouched s' s'' → s''.slotOwners = s'.slotOwners →
        Sound s'' ∧ Untouched s s'' ∧ (∀ x, s''.slotOwners.has x = true → s.slotOwners.has x = true) ∧ ((∀ x, s.retirements.has x = true → host.set x none = false) →
          ∀ x, s.retirements.has x = true → 0 < count s''.free x) := by
      intro s'' hs'' hu'' ho
      have hut : Untouched s s'' := (show Untouched s { s with retirements := .empty } from ⟨rfl, rfl, rfl, rfl, rfl⟩).trans (hu.trans hu'')
      refine ⟨hs'', hut, fun x hx => hmono x (by rw [← ho]; exact hx), fun _ x hx => ?_⟩
      -- it was live, so it lies in the range and is not reserved; now it is not live
      have hlive := h.retired x hx
      have hp := h.partition x
      have hl := live_pos.2 hlive
      have hp'' := hs''.partition x
      obtain ⟨⟨k, r⟩, he, hk⟩ := List.mem_map.1 (OrderedMap.mem_keys.2 hx)
      have hdead : s''.live x = 0 := by
        unfold live
        rw [ho, ← hk, hout (k, r) (List.mem_mergeSort.2 he), if_neg Bool.false_ne_true]
      have hres : s''.reserved x = s.reserved x := by
        unfold reserved
        rw [hut.reservations]
      rw [hut.base, hut.next, hdead, hres] at hp''
      change _ + _ + _ + 0 = _ at hp hp''
      split_ifs at hp hp'' <;> omega
    cases all with
    | nil => exact hfinal s' hb (.refl s') rfl
    | cons slot released =>
      have heq : (fun x => (slot :: released).count x) = fun x => inside ⟨slot, 1⟩ x + released.count x := by
        funext x
        exact count_cons_inside slot released x
      rw [heq] at hb
      obtain ⟨h1, h2, h3, -⟩ := Balanced.releaseRuns released hb
      exact hfinal _ h1 h2 h3
  · -- nothing has been cleared yet
    obtain ⟨slot, reason⟩ := e
    have hm : (slot, reason) ∈ s.retirements.entries := List.mem_mergeSort.1 (by rw [hsort]; exact List.mem_cons_self)
    have hret : s.retirements.has slot = true := OrderedMap.mem_keys.1 (List.mem_map_of_mem (f := Prod.fst) hm)
    obtain ⟨o, ho⟩ := Option.isSome_iff_exists.1 (h.retired slot hret)
    have hset : s.table.set host slot none = none := if_neg fun hc => by
      rw [href] at hc
      cases hc.2
    rw [hsort, JitCodeStore.flushLoop, ho]
    dsimp only
    rw [hset]
    refine ⟨hq, ⟨rfl, rfl, rfl, rfl, rfl⟩, fun x hx => hx, fun hall => ?_⟩
    rw [hall slot hret] at href
    cases href

end JitCodeStore
end Lish
