import Mathlib.Data.List.Induction
import Lish.Web.StoreSteps
/-!
# StoreRuns — no slot is aliased or lost, whatever the order

Runs of the store's operations, with compilations that complete in between.
-/
namespace Lish
namespace JitCodeStore

open FreeRuns Lish.Span

variable {s s' : JitCodeStore} {host : TableHost}

/-- A used slot that is neither live nor reserved is free. -/
theorem Sound.free {x : ℕ} (h : Sound s) (h1 : s.base ≤ x) (h2 : x < s.next) (hl : s.slotOwners.has x = false) (hr : s.reserved x = 0) :
    0 < count s.free x := by
  have hp := h.partition x
  have h0 : s.live x = 0 := by
    unfold live
    rw [hl, if_neg Bool.false_ne_true]
  rw [if_pos ⟨h1, h2⟩, h0, hr] at hp
  change 0 + 0 + count s.free x + 0 = 1 at hp
  omega

theorem Sound.of_free {x : ℕ} (h : Sound s) (hf : 0 < count s.free x) :
    s.base ≤ x ∧ x < s.next ∧ s.slotOwners.has x = false ∧ s.reserved x = 0 := by
  have hp := h.partition x
  split_ifs at hp with hb
  · exact ⟨hb.1, hb.2, not_live (by omega), by omega⟩
  · omega

/-! ## Clearing and destroying -/

theorem has_foldl_set (ks : List ℕ) (m : OrderedMap ℕ ℕ) (x : ℕ) :
    (ks.foldl (fun m slot => m.set slot 0) m).has x = true ↔ m.has x = true ∨ x ∈ ks := by
  induction ks generalizing m with
  | nil => simp
  | cons k ks ih =>
    rw [List.foldl_cons, ih, List.mem_cons]
    have hset : (m.set k 0).has x = true ↔ m.has x = true ∨ x = k := by
      unfold OrderedMap.has
      rw [OrderedMap.get?_set]
      by_cases hx : x = k
      · simp [hx]
      · simp [hx]
    rw [hset, or_assoc]

theorem Sound.retireAll (h : Sound s) : Sound s.retireAll := by
  refine h.queue _ fun x hx => ?_
  rcases (has_foldl_set _ _ x).1 hx with hq | hk
  · exact h.retired x hq
  · exact OrderedMap.mem_keys.1 hk

theorem Sound.clear (h : Sound s) (hf : s.destroyed = false → ({ s with generation := s.generation + 1 }.retireAll).Flushes host) :
    Sound (s.clear host).2 := by
  unfold JitCodeStore.clear
  split_ifs with hd
  · exact h
  · exact ((Sound.retireAll (h.generation _ _)).flushRetired (hf (eq_false_of_ne_true hd))).1

theorem Sound.releaseAll (ids : List ℕ) (h : Sound s) : Sound (ids.foldl (fun s id => (s.releaseReservation id).2) s) := by
  induction ids generalizing s with
  | nil => exact h
  | cons id ids ih => exact ih h.release.1

theorem Sound.destroy (h : Sound s)
    (hf : s.destroyed = false → ({ s with destroyed := true, generation := s.generation + 1 }.retireAll).Flushes host) :
    Sound (s.destroy host).2 := by
  unfold JitCodeStore.destroy
  by_cases hd : s.destroyed
  · rw [if_pos hd]
    exact h
  rw [if_neg hd]
  have hs := ((Sound.retireAll (h.generation (s.generation + 1) true)).flushRetired (hf (eq_false_of_ne_true hd))).1
  revert hs
  generalize ({ s with destroyed := true, generation := s.generation + 1 }.retireAll).flushRetired host = q
  obtain ⟨e | u, s'⟩ := q
  · exact fun hs => hs
  · exact fun hs => hs.releaseAll _

/-! ## Completions -/

/-- The module of a completion lands: its reservation stands and it can be installed. -/
def Lands (s : JitCodeStore) (c : Completion) : Prop :=
  ∃ id r exports, c.reservation = some id ∧ s.reservations.get? id = some r ∧ c.result = some exports ∧
    s.Installable c.install r exports (exportNames c.slotCount)

/-- The store once a completion's module has been handed over, before the flush. -/
def handedOver (s : JitCodeStore) (c : Completion) : JitCodeStore := (s.completedIndex c).2.handOver c (s.completedIndex c).1

/-- What is asked of the host at a completion: the flush clears what is queued, and when the handover of a module that has
landed throws, all its slots but the first have been retired during it. -/
structure CompletesCleanly (s : JitCodeStore) (c : Completion) : Prop where
  undoes : ∀ id exports, c.reservation = some id → c.result = some exports →
    s.UndoesReserved c.install id exports (exportNames c.slotCount)
  flushes : (s.handedOver c).Flushes c.flush
  clears : c.returned = false → s.Lands c → ∀ x, (s.handedOver c).retirements.has x = true → c.flush.set x none = false
  orphans : c.returned = false → s.Lands c → ∀ id r, c.reservation = some id → s.reservations.get? id = some r →
    ∀ x, r.base < x → x < r.base + r.slotCount → x ∈ c.retired.map Prod.fst

/-- How the installation of a completion ends. -/
theorem Sound.completedIndex {c : Completion} (h : Sound s) (hc : s.CompletesCleanly c) :
    Sound (s.completedIndex c).2 ∧ ∀ id r, c.reservation = some id → s.reservations.get? id = some r →
      ((s.completedIndex c).1 = r.base ∧ s.Lands c ∧ (s.completedIndex c).2.reservations.get? id = none ∧
        ∀ x, 0 < r.span.inside x → (s.completedIndex c).2.slotOwners.has x = true) ∨
      ((s.completedIndex c).1 < 0 ∧ (s.completedIndex c).2.reservations.get? id = none ∧
        ∀ x, 0 < r.span.inside x → 0 < count (s.completedIndex c).2.free x) ∨
      ((s.completedIndex c).1 < 0 ∧ (s.completedIndex c).2 = s) := by
  unfold JitCodeStore.completedIndex
  cases hres : c.result with
  | none => exact ⟨h, fun id r _ _ => .inr (.inr ⟨by dsimp only; decide, rfl⟩)⟩
  | some exports =>
    cases hid : c.reservation with
    | none => exact ⟨h, fun id r hc _ => (nomatch hc)⟩
    | some id =>
      dsimp only
      obtain ⟨hs, hgone, hruns⟩ := @Sound.registerReserved s c.install id exports (exportNames c.slotCount) h
        (hc.undoes id exports hid hres)
      revert hs hgone hruns
      generalize s.registerReserved c.install id exports (exportNames c.slotCount) = q
      obtain ⟨e | idx, s₁⟩ := q
      · intro hs hgone hruns
        refine ⟨hs, fun id' r hid' hr => ?_⟩
        cases hid'
        rcases hruns r hr with ⟨hok, -⟩ | ⟨-, hfree⟩
        · cases hok
        · exact .inr (.inl ⟨by dsimp only; decide, hgone, hfree⟩)
      · intro hs hgone hruns
        refine ⟨hs, fun id' r hid' hr => ?_⟩
        cases hid'
        rcases hruns r hr with ⟨hok, hinst, hlive⟩ | ⟨hneg, hfree⟩
        · cases hok
          exact .inl ⟨rfl, ⟨id, r, exports, hid, hr, hres, hinst⟩, hgone, hlive⟩
        · exact .inr (.inl ⟨hneg idx rfl, hgone, hfree⟩)

theorem Sound.retireEach (slots : List (ℕ × ℕ)) (h : Sound s) : Sound (slots.foldl (fun s (slot, reason) => s.retire slot reason) s) := by
  induction slots generalizing s with
  | nil => exact h
  | cons e slots ih => exact ih (h.retire _ _)

/-- What retiring slots leaves alone, and what it queues. -/
theorem retireEach_spec (slots : List (ℕ × ℕ)) (s : JitCodeStore) :
    let s' := slots.foldl (fun s (slot, reason) => s.retire slot reason) s
    s' = { s with retirements := s'.retirements } ∧
      ∀ x, s'.retirements.has x = true ↔ s.retirements.has x = true ∨ (x ∈ slots.map Prod.fst ∧ s.slotOwners.has x = true) := by
  induction slots generalizing s with
  | nil => exact ⟨rfl, fun x => by simp⟩
  | cons e slots ih =>
    obtain ⟨slot, reason⟩ := e
    obtain ⟨heq, hhas⟩ := ih (s.retire slot reason)
    have hrest := retire_rest (s := s) slot reason
    dsimp only at heq hhas ⊢
    rw [List.foldl_cons]
    refine ⟨?_, fun x => ?_⟩
    · rw [heq, hrest]
    · rw [hhas, has_retire, show (s.retire slot reason).slotOwners = s.slotOwners by rw [hrest], List.map_cons, List.mem_cons,
        Bool.or_eq_true, Bool.and_eq_true, decide_eq_true_iff]
      constructor
      · rintro ((hq | ⟨hl, rfl⟩) | ⟨hm, hl⟩)
        · exact .inl hq
        · exact .inr ⟨.inl rfl, hl⟩
        · exact .inr ⟨.inr hm, hl⟩
      · rintro (hq | ⟨rfl | hm, hl⟩)
        · exact .inl (.inl hq)
        · exact .inl (.inr ⟨hl, rfl⟩)
        · exact .inr ⟨hm, hl⟩

/-- The handover queues slots and does nothing else to the store. -/
theorem handOver_spec (c : Completion) (idx : ℤ) :
    s.handOver c idx = { s with retirements := (s.handOver c idx).retirements } ∧
      (∀ x, x ∈ c.retired.map Prod.fst → s.slotOwners.has x = true → (s.handOver c idx).retirements.has x = true) ∧
      (c.returned = false → ∀ b : ℕ, idx = b → s.slotOwners.has b = true → (s.handOver c idx).retirements.has b = true) := by
  obtain ⟨heq, hhas⟩ := retireEach_spec c.retired s
  unfold JitCodeStore.handOver
  dsimp only at heq hhas ⊢
  revert heq hhas
  generalize c.retired.foldl (fun s (slot, reason) => s.retire slot reason) s = s₁
  intro heq hhas
  have howners : s₁.slotOwners = s.slotOwners := by rw [heq]
  cases hret : c.returned with
  | true =>
    rw [if_pos rfl]
    exact ⟨heq, fun x hx hl => (hhas x).2 (.inr ⟨hx, hl⟩), fun hc => (nomatch hc)⟩
  | false =>
    rw [if_neg Bool.false_ne_true]
    by_cases hi : idx ≥ 0
    · rw [if_pos hi]
      have hrest := retire_rest (s := s₁) idx.toNat 0
      refine ⟨?_, fun x hx hl => ?_, fun _ b hb hl => ?_⟩
      · rw [hrest, heq]
      · rw [has_retire, (hhas x).2 (.inr ⟨hx, hl⟩), Bool.true_or]
      · rw [has_retire, hb, Int.toNat_natCast, howners, hl, decide_eq_true rfl, Bool.and_self, Bool.or_true]
    · rw [if_neg hi]
      exact ⟨heq, fun x hx hl => (hhas x).2 (.inr ⟨hx, hl⟩), fun _ b hb _ => absurd (by omega) hi⟩

theorem Sound.handOver (h : Sound s) (c : Completion) (idx : ℤ) : Sound (s.handOver c idx) := by
  unfold JitCodeStore.handOver
  have h1 := h.retireEach c.retired
  dsimp only
  split_ifs
  · exact h1
  · exact h1.retire _ _
  · exact h1

/-- A module is handed over: it has landed and the handover returned. -/
def HandedOver (s : JitCodeStore) (c : Completion) (r : Reservation) : Prop :=
  s.Lands c ∧ (s.completedIndex c).1 = r.base ∧ c.returned = true

/-- Every slot of a completed run is handed over, queued or free. -/
def RunSettled (s : JitCodeStore) (c : Completion) : Prop :=
  ∀ id r, c.reservation = some id → s.reservations.get? id = some r → ∀ x, 0 < r.span.inside x →
    HandedOver s c r ∨ (s.completeAsyncJit c).retirements.has x = true ∨ 0 < count (s.completeAsyncJit c).free x

/-- Releasing a reservation keeps what is free. -/
theorem Sound.release_free {id x : ℕ} (h : Sound s) (hx : 0 < count s.free x) : 0 < count (s.releaseReservation id).2.free x := by
  unfold releaseReservation
  cases hr : s.reservations.get? id with
  | none => exact hx
  | some r =>
    have hb := (h.consume hr).drop
    have hs := hb.releaseHeld
    obtain ⟨h1, h2, h3, h4⟩ := h.of_free hx
    refine hs.free h1 h2 h3 ?_
    have hd := OrderedMap.sum_delete hr fun r => r.span.inside x
    obtain rfl := (h.reservation id r hr).1
    change (s.reservations.delete r.id).sum (fun r => r.span.inside x) = 0
    change s.reservations.sum (fun r => r.span.inside x) = 0 at h4
    omega

/-- **A completion** keeps the partition, and leaves no slot of its run behind. -/
theorem Sound.complete {c : Completion} (h : Sound s) (hc : c.alive = true → s.destroyed = false → s.CompletesCleanly c) :
    Sound (s.completeAsyncJit c) ∧ s.RunSettled c := by
  by_cases hgo : (!c.alive || s.destroyed) = true
  · have hdone : ∀ id, c.reservation = some id → s.completeAsyncJit c = (s.releaseReservation id).2 := fun id hid => by
      unfold JitCodeStore.completeAsyncJit
      rw [if_pos hgo, hid]
    refine ⟨?_, fun id r hid hr x hx => ?_⟩
    · cases hid : c.reservation with
      | none =>
        unfold JitCodeStore.completeAsyncJit
        rw [if_pos hgo, hid]
        exact h
      | some id =>
        rw [hdone id hid]
        exact h.release.1
    · rw [hdone id hid]
      exact .inr (.inr (h.release.2.2 r hr x hx))
  rw [Bool.or_eq_true, Bool.not_eq_true', not_or] at hgo
  have hc := hc (eq_true_of_ne_false hgo.1) (eq_false_of_ne_true hgo.2)
  have hif : ¬ (!c.alive || s.destroyed) = true := by
    rw [Bool.or_eq_true, Bool.not_eq_true', not_or]
    exact hgo
  obtain ⟨hs₁, hidx⟩ := h.completedIndex hc
  have hs₂ : Sound (s.handedOver c) := hs₁.handOver c _
  obtain ⟨hs₃, hu, hmono, hfree⟩ := hs₂.flushRetired hc.flushes
  obtain ⟨heq, hqueued, horphan⟩ := handOver_spec (s := (s.completedIndex c).2) c (s.completedIndex c).1
  have hdone : ∀ id, c.reservation = some id →
      s.completeAsyncJit c = (((s.handedOver c).flushRetired c.flush).2.releaseReservation id).2 := fun id hid => by
    unfold JitCodeStore.completeAsyncJit
    rw [if_neg hif, hid]
    rfl
  refine ⟨?_, fun id r hid hr x hx => ?_⟩
  · cases hid : c.reservation with
    | none =>
      unfold JitCodeStore.completeAsyncJit
      rw [if_neg hif, hid]
      exact hs₃
    | some id =>
      rw [hdone id hid]
      exact hs₃.release.1
  have howners : (s.handedOver c).slotOwners = (s.completedIndex c).2.slotOwners := by
    unfold handedOver
    rw [heq]
  rw [hdone id hid]
  rcases hidx id r hid hr with ⟨hbase, hlands, -, hlive⟩ | ⟨-, -, hgone⟩ | ⟨-, hsame⟩
  · -- it has landed: either Rust owns it, or every slot of it is queued and flushed
    cases hret : c.returned with
    | true => exact .inl ⟨hlands, hbase, hret⟩
    | false =>
      refine .inr (.inr (hs₃.release_free (hfree (hc.clears hret hlands) x ?_)))
      rcases Nat.eq_or_lt_of_le (inside_pos.1 hx).1 with hx0 | hx0
      · exact horphan hret x (by rw [hbase]; exact congrArg Nat.cast hx0) (hlive x hx)
      · exact hqueued x (hc.orphans hret hlands id r hid hr x hx0 (inside_pos.1 hx).2) (hlive x hx)
  · -- its slots were freed, and stay free
    obtain ⟨h1, h2, h3, h4⟩ := hs₁.of_free (hgone x hx)
    refine .inr (.inr (hs₃.release_free (hs₃.free ?_ ?_ ?_ ?_)))
    · rw [hu.base, handedOver, heq]
      exact h1
    · rw [hu.next, handedOver, heq]
      exact h2
    · by_contra hl
      have := hmono x (eq_true_of_ne_false hl)
      rw [howners, h3] at this
      cases this
    · unfold reserved
      rw [hu.reservations, handedOver, heq]
      exact h4
  · -- it was not tried: the reservation stands, and is released
    have hres : ((s.handedOver c).flushRetired c.flush).2.reservations.get? id = some r := by
      rw [hu.reservations, handedOver, heq, hsame]
      exact hr
    exact .inr (.inr (hs₃.release.2.2 r hres x hx))

/-! ## Runs -/

/-- What is done to the store. -/
inductive StoreEvent
  | register (host : TableHost) (exports : JsInstance) (exportNames : List String) (byteLength : ℕ)
  | reserve (host : TableHost) (slotCount byteLength : ℕ)
  | registerReserved (host : TableHost) (id : ℕ) (exports : JsInstance) (exportNames : List String)
  | releaseReservation (id : ℕ)
  | retire (slot reason : ℕ)
  | flushRetired (host : TableHost)
  | clear (host : TableHost)
  | destroy (host : TableHost)
  /-- The machine boots again. -/
  | boot
  | complete (c : Completion)

def step (s : JitCodeStore) : StoreEvent → JitCodeStore
  | .register host exports exportNames byteLength => (s.register host exports exportNames byteLength).2
  | .reserve host slotCount byteLength => (s.reserve host slotCount byteLength).2
  | .registerReserved host id exports exportNames => (s.registerReserved host id exports exportNames).2
  | .releaseReservation id => (s.releaseReservation id).2
  | .retire slot reason => s.retire slot reason
  | .flushRetired host => (s.flushRetired host).2
  | .clear host => (s.clear host).2
  | .destroy host => (s.destroy host).2
  | .boot => { s with generation := s.generation + 1 }
  | .complete c => s.completeAsyncJit c

def run (s : JitCodeStore) (es : List StoreEvent) : JitCodeStore := es.foldl step s

/-- The table takes the nulls that an event's roll-backs and flushes set, and the slots of a module whose handover throws have
been retired. -/
def Undone (s : JitCodeStore) : StoreEvent → Prop
  | .register host exports exportNames byteLength => s.canRegister exportNames.length byteLength = true → s.Undoes host exports exportNames
  | .registerReserved host id exports exportNames => s.UndoesReserved host id exports exportNames
  | .flushRetired host => s.Flushes host
  | .clear host => s.destroyed = false → ({ s with generation := s.generation + 1 }.retireAll).Flushes host
  | .destroy host => s.destroyed = false → ({ s with destroyed := true, generation := s.generation + 1 }.retireAll).Flushes host
  | .complete c => c.alive = true → s.destroyed = false → s.CompletesCleanly c
  | _ => True

/-- **One event** keeps the partition. -/
theorem Sound.step {e : StoreEvent} (h : Sound s) (hu : s.Undone e) : Sound (s.step e) := by
  cases e with
  | register host exports exportNames byteLength => exact h.register hu
  | reserve host slotCount byteLength => exact h.reserve
  | registerReserved host id exports exportNames => exact (h.registerReserved hu).1
  | releaseReservation id => exact h.release.1
  | retire slot reason => exact h.retire slot reason
  | flushRetired host => exact (h.flushRetired hu).1
  | clear host => exact h.clear hu
  | destroy host => exact h.destroy hu
  | boot => exact h.generation (s.generation + 1) s.destroyed
  | complete c => exact (h.complete hu).1

/-- Every event of a run can be undone. -/
def AllUndone (s : JitCodeStore) (es : List StoreEvent) : Prop :=
  ∀ pre e post, es = pre ++ e :: post → (s.run pre).Undone e

theorem run_append (s : JitCodeStore) (es : List StoreEvent) (e : StoreEvent) : s.run (es ++ [e]) = (s.run es).step e :=
  List.foldl_concat ..

theorem Sound.run {es : List StoreEvent} (h : Sound s) (hu : s.AllUndone es) : Sound (s.run es) := by
  induction es using List.reverseRecOn with
  | nil => exact h
  | append_singleton es e ih =>
    rw [run_append]
    refine (ih fun pre e' post he => hu pre e' (post ++ [e]) (by rw [he, List.append_assoc, List.cons_append])).step ?_
    exact hu es e [] rfl

def willing : TableHost := ⟨fun _ _ => false, false⟩

def smallLimits : JitLimits := ⟨4, 8, 4096, 4, by decide, by decide, by decide, by decide⟩

def emptyTable : FunctionTable := ⟨0, fun _ => none⟩

def thrownHandover (retired : List (ℕ × ℕ)) : Completion where
  slotCount := 2
  result := some fun name => if name = "r0" then some 0 else if name = "r1" then some 1 else none
  reservation := some 1
  alive := true
  install := willing
  flush := willing
  retired := retired
  returned := false

theorem willing_rollsBack (base : ℕ) (fs : List JsFunction) : RollsBack willing base fs := by
  rintro k - ⟨f, -, hf⟩
  cases hf

end JitCodeStore
end Lish
