import Lish.Web.JitCodeStore
/-!
# SlotPartition — every slot is live, reserved or free

The invariant of the store, kept by each of its operations: live slots, reserved slots and free runs partition the slots the
store has used, and what it counts is what its owners and reservations hold.
-/
namespace Lish
namespace JitCodeStore

open FreeRuns Lish.Span

/-- Whether a slot belongs to a live module: once or not at all. -/
def live (s : JitCodeStore) (x : ℕ) : ℕ := if s.slotOwners.has x then 1 else 0

/-- How often a slot is reserved. -/
def reserved (s : JitCodeStore) (x : ℕ) : ℕ := s.reservations.sum fun r => r.span.inside x

/-- What an operation has in hand between its steps: slots, and room for a module. -/
structure InHand where
  slots : ℕ → ℕ
  modules : ℕ
  slotCount : ℕ
  bytes : ℕ

def InHand.nothing : InHand := ⟨fun _ => 0, 0, 0, 0⟩

def InHand.module (start len bytes : ℕ) : InHand := ⟨inside ⟨start, len⟩, 1, len, bytes⟩

structure Balanced (hand : InHand) (s : JitCodeStore) : Prop where
  base_le : s.base ≤ s.next
  next_le : s.next ≤ s.table.length
  next_max : s.next ≤ s.base + s.limits.maxSlots
  /-- Free runs are sorted, disjoint and maximal. -/
  canonical : Canonical s.free
  partition : ∀ x, s.live x + s.reserved x + count s.free x + hand.slots x = if s.base ≤ x ∧ x < s.next then 1 else 0
  filled : ∀ x, s.slotOwners.has x = true → (s.table.get x).isSome = true
  null : ∀ x, s.base ≤ x → s.slotOwners.has x = false → s.table.get x = none
  owned : ∀ x o, s.slotOwners.get? x = some o ↔ ∃ w, s.owners.get? o = some w ∧ x ∈ w.slots
  owner : ∀ o w, s.owners.get? o = some w → w.slots.Nodup ∧ w.slots ≠ [] ∧ o < s.nextOwner
  reservation : ∀ id r, s.reservations.get? id = some r → r.id = id ∧ id < s.nextReservation ∧ 0 < r.slotCount
  retired : ∀ x, s.retirements.has x = true → s.slotOwners.has x = true
  liveSlots : s.liveSlots = s.owners.sum (·.slots.length)
  liveBytes : s.liveBytes = s.owners.sum (·.bytes)
  pendingSlots : s.pendingSlots = s.reservations.sum (·.slotCount)
  pendingBytes : s.pendingBytes = s.reservations.sum (·.byteLength)
  modules_le : s.owners.size + s.reservations.size + hand.modules ≤ s.limits.maxModules
  slots_le : s.liveSlots + s.pendingSlots + hand.slotCount ≤ s.limits.maxSlots
  bytes_le : s.liveBytes + s.pendingBytes + hand.bytes ≤ s.limits.maxBytes

/-- The invariant between operations. -/
abbrev Sound (s : JitCodeStore) : Prop := Balanced .nothing s

variable {s s' : JitCodeStore} {host : TableHost}

theorem live_pos {x : ℕ} : 0 < s.live x ↔ s.slotOwners.has x = true := by
  unfold live
  split_ifs with h
  · exact ⟨fun _ => h, fun _ => Nat.one_pos⟩
  · exact ⟨fun hc => absurd hc (Nat.lt_irrefl 0), fun hc => absurd hc h⟩

theorem not_live {x : ℕ} (h : s.live x = 0) : s.slotOwners.has x = false := by
  by_contra hc
  have := live_pos.2 (eq_true_of_ne_false hc)
  omega

theorem reserved_pos {id : ℕ} {r : Reservation} (h : s.reservations.get? id = some r) {x : ℕ} (hx : 0 < r.span.inside x) :
    0 < s.reserved x := lt_of_lt_of_le hx (OrderedMap.le_sum h fun r => r.span.inside x)

theorem sound_new (table : FunctionTable) (limits : JitLimits) (hnull : ∀ x, table.length ≤ x → table.get x = none) :
    Sound (new table limits) where
  base_le := le_rfl
  next_le := le_rfl
  next_max := Nat.le_add_right _ _
  canonical := ⟨List.Pairwise.nil, fun r hr => (nomatch hr)⟩
  partition x := by
    change 0 = if table.length ≤ x ∧ x < table.length then 1 else 0
    rw [if_neg (by omega)]
  filled x hx := by cases hx
  null x hx _ := hnull x hx
  owned x o := ⟨fun h => (nomatch h), fun ⟨w, hw, _⟩ => (nomatch hw)⟩
  owner o w hw := by cases hw
  reservation id r hr := by cases hr
  retired x hx := by cases hx
  liveSlots := rfl
  liveBytes := rfl
  pendingSlots := rfl
  pendingBytes := rfl
  modules_le := Nat.zero_le _
  slots_le := Nat.zero_le _
  bytes_le := Nat.zero_le _

/-- Statistics do not matter. -/
theorem Balanced.stats {hand : InHand} (h : Balanced hand s) (stats : JitStats) : Balanced hand { s with stats := stats } :=
  { h with }

theorem Balanced.generation {hand : InHand} (h : Balanced hand s) (generation : ℕ) (destroyed : Bool) :
    Balanced hand { s with generation := generation, destroyed := destroyed } :=
  { h with }

theorem Balanced.drop {slots : ℕ → ℕ} {m n b : ℕ} (h : Balanced ⟨slots, m, n, b⟩ s) : Balanced ⟨slots, 0, 0, 0⟩ s :=
  { h with
    modules_le := le_trans (Nat.add_le_add_left (Nat.zero_le _) _) h.modules_le
    slots_le := le_trans (Nat.add_le_add_left (Nat.zero_le _) _) h.slots_le
    bytes_le := le_trans (Nat.add_le_add_left (Nat.zero_le _) _) h.bytes_le }

/-- A slot in hand is in use by nobody. -/
theorem Balanced.held {hand : InHand} (h : Balanced hand s) {x : ℕ} (hx : 0 < hand.slots x) :
    s.base ≤ x ∧ x < s.next ∧ s.slotOwners.has x = false ∧ s.reserved x = 0 ∧ count s.free x = 0 := by
  have hp := h.partition x
  split_ifs at hp with hb
  · exact ⟨hb.1, hb.2, not_live (by omega), by omega, by omega⟩
  · omega

/-! ## Allocation and release -/

/-- What an allocation does. -/
inductive Allocated (s : JitCodeStore) (n b : ℕ) : JitCodeStore → Prop
  | fit {free : List Span} (h : take n s.free = some (b, free)) : Allocated s n b { s with free := free }
  | extend {table : FunctionTable} (hb : b = s.next) (hlen : s.next + n ≤ table.length) (hmono : s.table.length ≤ table.length)
      (hget : ∀ x, x < s.table.length → table.get x = s.table.get x)
      (hnew : ∀ x, s.table.length ≤ x → table.get x = none ∨ table.get x = s.table.get x)
      (hmax : s.next + n ≤ s.base + s.limits.maxSlots) : Allocated s n b { s with table := table, next := s.next + n }

theorem allocate_ok {n b : ℕ} (hrun : s.hasRun n = true) (h : s.allocate host n = (.ok b, s')) : Allocated s n b s' := by
  unfold allocate at h
  cases ht : take n s.free with
  | some r =>
    obtain ⟨b', free⟩ := r
    rw [ht] at h
    obtain ⟨hb, rfl⟩ := Prod.mk.inj h
    rw [Except.ok.inj hb] at ht
    exact .fit ht
  | none =>
    rw [ht] at h
    have hmax : s.next + n ≤ s.base + s.limits.maxSlots := by
      unfold hasRun at hrun
      rcases Bool.or_eq_true_iff.1 hrun with hany | hle
      · obtain ⟨r, hr, hle⟩ := List.any_eq_true.1 hany
        have := take_none.1 ht r hr
        have := of_decide_eq_true hle
        omega
      · exact of_decide_eq_true hle
    dsimp only at h
    by_cases hreq : s.next + n > s.table.length
    · rw [if_pos hreq] at h
      split_ifs at h with h1 h2
      · cases h
      · cases h
      · obtain ⟨hb, rfl⟩ := Prod.mk.inj h
        refine .extend (Except.ok.inj hb).symm ?_ (Nat.le_add_right _ _) (fun x hx => if_pos hx) (fun x hx => .inl (if_neg (Nat.not_lt.2 hx))) hmax
        have hg := h1
        change s.next + n ≤ s.table.length + min (max s.limits.growSlots (s.next + n - s.table.length)) (s.base + s.limits.maxSlots - s.table.length)
        omega
    · rw [if_neg hreq] at h
      obtain ⟨hb, rfl⟩ := Prod.mk.inj h
      exact .extend (Except.ok.inj hb).symm (Nat.not_lt.1 hreq) le_rfl (fun _ _ => rfl) (fun _ _ => .inr rfl) hmax

theorem allocate_error {n : ℕ} {e : JsError} (h : s.allocate host n = (.error e, s')) : s' = s := by
  unfold allocate at h
  cases ht : take n s.free with
  | some r =>
    rw [ht] at h
    cases h
  | none =>
    rw [ht] at h
    dsimp only at h
    split_ifs at h <;> cases h <;> rfl

/-- **An allocation** hands out slots that nobody uses, and whose entries are null. -/
theorem Sound.allocated {n b bytes : ℕ} (h : Sound s) (ha : Allocated s n b s')
    (hm : s.owners.size + s.reservations.size < s.limits.maxModules) (hs : s.liveSlots + s.pendingSlots + n ≤ s.limits.maxSlots)
    (hb : s.liveBytes + s.pendingBytes + bytes ≤ s.limits.maxBytes) :
    Balanced (.module b n bytes) s' ∧ ∀ x, 0 < inside ⟨b, n⟩ x → s.table.get x = none := by
  cases ha with
  | fit ht =>
    obtain ⟨hc, hcount, -⟩ := take_spec h.canonical ht
    refine ⟨{ h with
      canonical := hc
      partition := fun x => ?_
      modules_le := hm
      slots_le := hs
      bytes_le := hb }, fun x hx => ?_⟩
    · have hp := h.partition x
      rw [hcount x] at hp
      exact (add_assoc _ _ _).trans hp
    · have hp := h.partition x
      rw [hcount x] at hp
      split_ifs at hp with hin
      · exact h.null x hin.1 (not_live (by omega))
      · omega
  | @extend table hbase hlen hmono hget hnew hmax =>
    subst hbase
    have hfresh : ∀ x, s.next ≤ x → s.live x = 0 ∧ s.reserved x = 0 ∧ count s.free x = 0 := fun x hx => by
      have hp := h.partition x
      rw [if_neg (by omega)] at hp
      omega
    have hnull : ∀ x, s.next ≤ x → s.table.get x = none := fun x hx =>
      h.null x (h.base_le.trans hx) (not_live (hfresh x hx).1)
    have htable : ∀ x, table.get x = s.table.get x := fun x => by
      by_cases hx : x < s.table.length
      · exact hget x hx
      · rcases hnew x (Nat.not_lt.1 hx) with h0 | h0
        · rw [h0, hnull x (h.next_le.trans (Nat.not_lt.1 hx))]
        · exact h0
    refine ⟨{ h with
      base_le := h.base_le.trans (Nat.le_add_right _ _)
      next_le := hlen
      next_max := hmax
      partition := fun x => ?_
      filled := fun x hx => by rw [htable]; exact h.filled x hx
      null := fun x hx hl => by rw [htable]; exact h.null x hx hl
      modules_le := hm
      slots_le := hs
      bytes_le := hb }, fun x hx => hnull x (inside_pos.1 hx).1⟩
    have hp := h.partition x
    change s.live x + s.reserved x + count s.free x + inside ⟨s.next, n⟩ x = if s.base ≤ x ∧ x < s.next + n then 1 else 0
    have hb' := h.base_le
    by_cases hx : s.next ≤ x
    · obtain ⟨h1, h2, h3⟩ := hfresh x hx
      rw [h1, h2, h3]
      unfold inside
      dsimp only
      split_ifs <;> omega
    · have h0 : inside ⟨s.next, n⟩ x = 0 := if_neg fun hc => hx hc.1
      rw [h0]
      change s.live x + s.reserved x + count s.free x + 0 = _ at hp
      rw [hp]
      split_ifs <;> omega

/-- **A release** frees the slots in hand. -/
theorem Balanced.releaseRun {slots : ℕ → ℕ} {start len : ℕ} (h : Balanced ⟨fun x => inside ⟨start, len⟩ x + slots x, 0, 0, 0⟩ s) :
    Balanced ⟨slots, 0, 0, 0⟩ (s.releaseRun start len) := by
  have hd : ∀ x, start ≤ x → x < start + len → count s.free x = 0 := fun x h1 h2 =>
    (h.held (Nat.add_pos_left (inside_pos.2 ⟨h1, h2⟩) _)).2.2.2.2
  obtain ⟨hc, hcount⟩ := give_spec h.canonical hd
  refine { h with
    canonical := hc
    partition := fun x => ?_ }
  have hp := h.partition x
  change s.live x + s.reserved x + count (give s.free start len) x + slots x = if s.base ≤ x ∧ x < s.next then 1 else 0
  rw [hcount x, ← hp]
  dsimp only
  omega

theorem Balanced.released_free {slots : ℕ → ℕ} {start len x : ℕ}
    (h : Balanced ⟨fun x => inside ⟨start, len⟩ x + slots x, 0, 0, 0⟩ s) (hx : 0 < inside ⟨start, len⟩ x) :
    0 < count (s.releaseRun start len).free x := by
  have hd : ∀ x, start ≤ x → x < start + len → count s.free x = 0 := fun x h1 h2 =>
    (h.held (Nat.add_pos_left (inside_pos.2 ⟨h1, h2⟩) _)).2.2.2.2
  change 0 < count (give s.free start len) x
  rw [(give_spec h.canonical hd).2 x]
  exact Nat.add_pos_right _ hx

/-- A run in hand, and nothing else, is released. -/
theorem Balanced.releaseHeld {start len : ℕ} (h : Balanced ⟨inside ⟨start, len⟩, 0, 0, 0⟩ s) : Sound (s.releaseRun start len) :=
  @Balanced.releaseRun s (fun _ => 0) start len h

theorem Balanced.held_free {start len x : ℕ} (h : Balanced ⟨inside ⟨start, len⟩, 0, 0, 0⟩ s) (hx : 0 < inside ⟨start, len⟩ x) :
    0 < count (s.releaseRun start len).free x :=
  @Balanced.released_free s (fun _ => 0) start len x h hx

/-! ## Installation -/

/-- An owner's slots in the table and in the map, the rest as before. -/
structure Filled (s s' : JitCodeStore) (owner slot : ℕ) (fs : List JsFunction) : Prop where
  eq : s' = { s with table := s'.table, slotOwners := s'.slotOwners }
  length : s'.table.length = s.table.length
  get : ∀ x, s'.table.get x = if slot ≤ x ∧ x < slot + fs.length then fs[x - slot]? else s.table.get x
  owner : ∀ x, s'.slotOwners.get? x = if slot ≤ x ∧ x < slot + fs.length then some owner else s.slotOwners.get? x

theorem set_some {t t' : FunctionTable} {i : ℕ} {v : Option JsFunction} (h : t.set host i v = some t') :
    i < t.length ∧ host.set i v = false ∧ t'.length = t.length ∧ ∀ x, t'.get x = if x = i then v else t.get x := by
  unfold FunctionTable.set at h
  split_ifs at h with hc
  rw [← Option.some.inj h]
  exact ⟨hc.1, hc.2, rfl, fun _ => rfl⟩

theorem set_none {t : FunctionTable} {i : ℕ} {v : Option JsFunction} (h : t.set host i v = none) (hi : i < t.length) :
    host.set i v = true := by
  unfold FunctionTable.set at h
  split_ifs at h with hc
  by_contra hs
  exact hc ⟨hi, eq_false_of_ne_true hs⟩

/-- The loop fills the slots of the functions it gets through; it stops at the first that the table refuses. -/
theorem installLoop_spec {owner : ℕ} (fs : List JsFunction) (slot : ℕ) (slots : List ℕ) (s : JitCodeStore)
    (hlen : slot + fs.length ≤ s.table.length) :
    ∃ done rest, fs = done ++ rest ∧ (installLoop host owner slot fs slots s).1 = rest.isEmpty ∧
      (installLoop host owner slot fs slots s).2.1 = slots ++ List.range' slot done.length ∧
      Filled s (installLoop host owner slot fs slots s).2.2 owner slot done ∧
      (∀ j < done.length, host.set (slot + j) done[j]? = false) ∧
      ∀ f ∈ rest.head?, host.set (slot + done.length) (some f) = true := by
  induction fs generalizing slot slots s with
  | nil =>
    refine ⟨[], [], rfl, rfl, (List.append_nil _).symm, ⟨rfl, rfl, fun x => ?_, fun x => ?_⟩, fun j hj => absurd hj (Nat.not_lt_zero j),
      fun f hf => (nomatch hf)⟩
    · rw [if_neg fun h => Nat.lt_irrefl _ (Nat.lt_of_le_of_lt h.1 h.2)]
      rfl
    · rw [if_neg fun h => Nat.lt_irrefl _ (Nat.lt_of_le_of_lt h.1 h.2)]
      rfl
  | cons f fs ih =>
    rw [List.length_cons] at hlen
    rw [installLoop]
    cases ht : s.table.set host slot (some f) with
    | none =>
      refine ⟨[], f :: fs, rfl, rfl, (List.append_nil _).symm, ⟨rfl, rfl, fun x => ?_, fun x => ?_⟩, fun j hj => absurd hj (Nat.not_lt_zero j),
        fun g hg => ?_⟩
      · rw [if_neg fun h => Nat.lt_irrefl _ (Nat.lt_of_le_of_lt h.1 h.2)]
      · rw [if_neg fun h => Nat.lt_irrefl _ (Nat.lt_of_le_of_lt h.1 h.2)]
      · rw [List.head?_cons, Option.mem_some_iff] at hg
        subst hg
        have hs : host.set slot (some f) = true := set_none ht (by omega)
        exact hs
    | some table =>
      dsimp only
      obtain ⟨-, hset, htl, hget⟩ := set_some ht
      obtain ⟨done, rest, hfs, hok, hslots, hfill, hacc, href⟩ := ih (slot + 1) (slots ++ [slot])
        { s with table := table, slotOwners := s.slotOwners.set slot owner } (by dsimp only; omega)
      refine ⟨f :: done, rest, by rw [hfs, List.cons_append], hok, ?_, ⟨hfill.eq, hfill.length.trans htl, fun x => ?_, fun x => ?_⟩,
        fun j hj => ?_, fun g hg => ?_⟩
      · rw [hslots, List.length_cons, List.range'_succ, List.append_assoc, List.singleton_append]
      · rw [hfill.get x, List.length_cons]
        dsimp only
        rw [hget x]
        by_cases hx : x = slot
        · rw [if_neg (by omega), if_pos hx, if_pos (by omega), hx, Nat.sub_self]
          rfl
        · by_cases hin : slot + 1 ≤ x ∧ x < slot + 1 + done.length
          · rw [if_pos hin, if_pos (by omega), show x - slot = (x - (slot + 1)) + 1 by omega, List.getElem?_cons_succ]
          · rw [if_neg hin, if_neg hx, if_neg (by omega)]
      · rw [hfill.owner x, List.length_cons]
        dsimp only
        rw [OrderedMap.get?_set]
        by_cases hx : x = slot
        · rw [if_neg (by omega), if_pos hx, if_pos (by omega)]
        · by_cases hin : slot + 1 ≤ x ∧ x < slot + 1 + done.length
          · rw [if_pos hin, if_pos (by omega)]
          · rw [if_neg hin, if_neg hx, if_neg (by omega)]
      · cases j with
        | zero => exact hset
        | succ j =>
          rw [List.getElem?_cons_succ, show slot + (j + 1) = slot + 1 + j by omega]
          exact hacc j (by rw [List.length_cons] at hj; omega)
      · rw [List.length_cons, show slot + (done.length + 1) = slot + 1 + done.length by omega]
        exact href g hg

/-- Slots taken out of the table and the map, the rest as before. -/
structure Emptied (s s' : JitCodeStore) (slots : List ℕ) : Prop where
  eq : s' = { s with table := s'.table, slotOwners := s'.slotOwners }
  length : s'.table.length = s.table.length
  get : ∀ x, s'.table.get x = if x ∈ slots then none else s.table.get x
  owner : ∀ x, s'.slotOwners.get? x = if x ∈ slots then none else s.slotOwners.get? x

theorem rollbackLoop_spec (slots : List ℕ) (s : JitCodeStore) (hlen : ∀ x ∈ slots, x < s.table.length)
    (hset : ∀ x ∈ slots, host.set x none = false) :
    (rollbackLoop host slots s).1 = true ∧ Emptied s (rollbackLoop host slots s).2 slots := by
  induction slots generalizing s with
  | nil => exact ⟨rfl, rfl, rfl, fun x => (if_neg List.not_mem_nil).symm, fun x => (if_neg List.not_mem_nil).symm⟩
  | cons slot slots ih =>
    rw [rollbackLoop]
    cases ht : s.table.set host slot none with
    | none =>
      have := set_none ht (hlen slot List.mem_cons_self)
      rw [hset slot List.mem_cons_self] at this
      cases this
    | some table =>
      dsimp only
      obtain ⟨-, -, htl, hget⟩ := set_some ht
      obtain ⟨hok, he⟩ := ih { s with table := table, slotOwners := s.slotOwners.delete slot }
        (fun x hx => by rw [show _ = _ from htl]; exact hlen x (List.mem_cons_of_mem slot hx))
        fun x hx => hset x (List.mem_cons_of_mem slot hx)
      refine ⟨hok, he.eq, he.length.trans htl, fun x => ?_, fun x => ?_⟩
      · rw [he.get x]
        dsimp only
        rw [hget x]
        by_cases hx : x = slot
        · subst hx
          rw [if_pos rfl, if_pos List.mem_cons_self, ite_self]
        · by_cases hm : x ∈ slots
          · rw [if_pos hm, if_pos (List.mem_cons_of_mem slot hm)]
          · rw [if_neg hm, if_neg hx, if_neg (List.mem_cons.not.2 (not_or.2 ⟨hx, hm⟩))]
      · rw [he.owner x]
        dsimp only
        rw [OrderedMap.get?_delete]
        by_cases hx : x = slot
        · subst hx
          rw [if_pos rfl, if_pos List.mem_cons_self, ite_self]
        · by_cases hm : x ∈ slots
          · rw [if_pos hm, if_pos (List.mem_cons_of_mem slot hm)]
          · rw [if_neg hm, if_neg hx, if_neg (List.mem_cons.not.2 (not_or.2 ⟨hx, hm⟩))]

/-- A module whose slots are all filled is owned. -/
theorem Balanced.installed {base bytes : ℕ} {fs : List JsFunction} {s₁ : JitCodeStore} (h : Balanced (.module base fs.length bytes) s)
    (hn : fs ≠ []) (hf : Filled { s with nextOwner := s.nextOwner + 1 } s₁ s.nextOwner base fs) :
    Sound { s₁ with
      owners := s₁.owners.set s.nextOwner ⟨bytes, false, List.range' base fs.length⟩
      liveSlots := s₁.liveSlots + fs.length
      liveBytes := s₁.liveBytes + bytes } := by
  obtain ⟨heq, hlen, hget, hown⟩ := hf
  revert heq hlen hget hown
  generalize s₁.table = table
  generalize s₁.slotOwners = slotOwners
  rintro rfl hlen hget hown
  dsimp only at hlen hget hown ⊢
  have hfresh : s.owners.get? s.nextOwner = none := by
    cases ho : s.owners.get? s.nextOwner with
    | none => rfl
    | some w => exact absurd (h.owner _ w ho).2.2 (Nat.lt_irrefl _)
  have hrun : ∀ x, base ≤ x ∧ x < base + fs.length → 0 < inside ⟨base, fs.length⟩ x := fun x hx => inside_pos.2 hx
  have hhas : ∀ x, slotOwners.has x = if base ≤ x ∧ x < base + fs.length then true else s.slotOwners.has x := fun x => by
    unfold OrderedMap.has
    rw [hown x]
    split_ifs <;> rfl
  refine { h with
    next_le := by rw [hlen]; exact h.next_le
    partition := fun x => ?_
    filled := fun x hx => ?_
    null := fun x hx hl => ?_
    owned := fun x o => ?_
    owner := fun o w hw => ?_
    retired := fun x hx => ?_
    liveSlots := ?_
    liveBytes := ?_
    modules_le := ?_
    slots_le := ?_
    bytes_le := ?_ }
  · have hp := h.partition x
    have hl : live { s with table := table, slotOwners := slotOwners } x = s.live x + inside ⟨base, fs.length⟩ x := by
      by_cases hx : base ≤ x ∧ x < base + fs.length
      · have h0 := (h.held (hrun x hx)).2.2.1
        unfold live inside
        dsimp only
        rw [hhas, if_pos hx, if_pos rfl, h0, if_neg Bool.false_ne_true, if_pos hx]
      · unfold live inside
        dsimp only
        rw [hhas, if_neg hx, if_neg hx]
        rfl
    change live { s with table := table, slotOwners := slotOwners } x + s.reserved x + count s.free x + 0 =
      if s.base ≤ x ∧ x < s.next then 1 else 0
    change s.live x + s.reserved x + count s.free x + inside ⟨base, fs.length⟩ x = _ at hp
    rw [hl, ← hp]
    omega
  · dsimp only at hx ⊢
    rw [hhas] at hx
    rw [hget]
    split_ifs at hx ⊢ with hr
    · rw [List.getElem?_eq_getElem (by omega)]
      rfl
    · exact h.filled x hx
  · dsimp only at hl ⊢
    rw [hhas] at hl
    rw [hget]
    split_ifs at hl ⊢ with hr
    exact h.null x hx hl
  · dsimp only
    rw [hown x, OrderedMap.get?_set]
    by_cases hr : base ≤ x ∧ x < base + fs.length
    · rw [if_pos hr]
      have h0 := (h.held (hrun x hr)).2.2.1
      constructor
      · intro ho
        rw [← Option.some.inj ho, if_pos rfl]
        exact ⟨_, rfl, List.mem_range'_1.2 hr⟩
      · rintro ⟨w, hw, hm⟩
        by_cases ho : o = s.nextOwner
        · rw [ho]
        · rw [if_neg ho] at hw
          have := (h.owned x o).2 ⟨w, hw, hm⟩
          rw [OrderedMap.has, this] at h0
          cases h0
    · rw [if_neg hr, h.owned x o]
      by_cases ho : o = s.nextOwner
      · subst ho
        rw [if_pos rfl]
        constructor
        · rintro ⟨w, hw, -⟩
          rw [hfresh] at hw
          cases hw
        · rintro ⟨w, hw, hm⟩
          cases hw
          exact absurd (List.mem_range'_1.1 hm) hr
      · rw [if_neg ho]
  · dsimp only at hw ⊢
    rw [OrderedMap.get?_set] at hw
    split_ifs at hw with ho
    · cases hw
      refine ⟨List.nodup_range', fun hc => ?_, by omega⟩
      rw [List.range'_eq_nil_iff] at hc
      exact hn (List.length_eq_zero_iff.1 hc)
    · obtain ⟨h1, h2, h3⟩ := h.owner o w hw
      exact ⟨h1, h2, by omega⟩
  · dsimp only at hx ⊢
    rw [hhas, h.retired x hx, ite_self]
  · dsimp only
    rw [OrderedMap.sum_set_new hfresh, h.liveSlots, List.length_range']
  · dsimp only
    rw [OrderedMap.sum_set_new hfresh, h.liveBytes]
  · have := h.modules_le
    dsimp only [InHand.nothing, InHand.module] at this ⊢
    rw [OrderedMap.size_set_new hfresh]
    omega
  · have := h.slots_le
    dsimp only [InHand.nothing, InHand.module] at this ⊢
    omega
  · have := h.bytes_le
    dsimp only [InHand.nothing, InHand.module] at this ⊢
    omega

/-- What was taken back was never there. -/
theorem Balanced.rolledBack {base bytes n : ℕ} {done : List JsFunction} {s₁ s₂ : JitCodeStore} (h : Balanced (.module base n bytes) s)
    (hd : done.length ≤ n) (hf : Filled { s with nextOwner := s.nextOwner + 1 } s₁ s.nextOwner base done)
    (he : Emptied s₁ s₂ (List.range' base done.length)) : Balanced (.module base n bytes) s₂ := by
  obtain ⟨heq₁, hlen₁, hget₁, hown₁⟩ := hf
  obtain ⟨heq, hlen, hget, hown⟩ := he
  have htable : ∀ x, s₂.table.get x = s.table.get x := fun x => by
    rw [hget x, hget₁ x]
    by_cases hx : base ≤ x ∧ x < base + done.length
    · have hh := h.held (inside_pos.2 ⟨hx.1, show x < base + n by omega⟩)
      rw [if_pos (List.mem_range'_1.2 hx), h.null x hh.1 hh.2.2.1]
    · rw [if_neg fun hm => hx (List.mem_range'_1.1 hm), if_neg hx]
  have howner : ∀ x, s₂.slotOwners.get? x = s.slotOwners.get? x := fun x => by
    rw [hown x, hown₁ x]
    by_cases hx : base ≤ x ∧ x < base + done.length
    · have hh := (h.held (inside_pos.2 ⟨hx.1, show x < base + n by omega⟩)).2.2.1
      rw [if_pos (List.mem_range'_1.2 hx)]
      unfold OrderedMap.has at hh
      exact (Option.not_isSome_iff_eq_none.1 (ne_true_of_eq_false hh)).symm
    · rw [if_neg fun hm => hx (List.mem_range'_1.1 hm), if_neg hx]
  have hlength : s₂.table.length = s.table.length := hlen.trans hlen₁
  have heq₂ : s₂ = { s with table := s₂.table, slotOwners := s₂.slotOwners, nextOwner := s.nextOwner + 1 } := by
    rw [heq₁] at heq
    exact heq
  clear hget hown hget₁ hown₁ heq heq₁ hlen hlen₁
  revert heq₂ htable howner hlength
  generalize s₂.table = table
  generalize s₂.slotOwners = slotOwners
  rintro htable howner hlength rfl
  have hhas : ∀ x, slotOwners.has x = s.slotOwners.has x := fun x => by
    unfold OrderedMap.has
    rw [howner x]
  exact { h with
    next_le := by rw [hlength]; exact h.next_le
    partition := fun x => by
      have hp := h.partition x
      unfold live at hp ⊢
      dsimp only
      rw [hhas]
      exact hp
    filled := fun x hx => by
      dsimp only at hx ⊢
      rw [htable]
      exact h.filled x (by rw [← hhas]; exact hx)
    null := fun x hx hl => by
      dsimp only at hl ⊢
      rw [htable]
      exact h.null x hx (by rw [← hhas]; exact hl)
    owned := fun x o => by
      dsimp only
      rw [howner]
      exact h.owned x o
    owner := fun o w hw => by
      obtain ⟨h1, h2, h3⟩ := h.owner o w hw
      exact ⟨h1, h2, Nat.lt_succ_of_lt h3⟩
    retired := fun x hx => by
      dsimp only at hx ⊢
      rw [hhas]
      exact h.retired x hx }

/-- The host takes back what it has set when it refuses a later function. -/
def RollsBack (host : TableHost) (base : ℕ) (fs : List JsFunction) : Prop :=
  ∀ k, (∀ j < k, host.set (base + j) fs[j]? = false) → (∃ f, fs[k]? = some f ∧ host.set (base + k) (some f) = true) →
    ∀ j < k, host.set (base + j) none = false

/-- How an installation ends: every slot is owned, or every slot is free. -/
inductive Installed (s : JitCodeStore) (host : TableHost) (base : ℕ) (fs : List JsFunction) : Except JsError ℤ × JitCodeStore → Prop
  | live {s' : JitCodeStore} (hs : Sound s') (hr : s'.reservations = s.reservations)
      (hacc : ∀ j < fs.length, host.set (base + j) fs[j]? = false)
      (hx : ∀ x, 0 < inside ⟨base, fs.length⟩ x → s'.slotOwners.has x = true) : Installed s host base fs (.ok base, s')
  | failed {s' : JitCodeStore} (hs : Sound s') (hr : s'.reservations = s.reservations)
      (hx : ∀ x, 0 < inside ⟨base, fs.length⟩ x → 0 < count s'.free x) : Installed s host base fs (.error .table, s')

/-- **An installation** is complete or leaves nothing. -/
theorem Balanced.install {base bytes : ℕ} {fs : List JsFunction} (h : Balanced (.module base fs.length bytes) s) (hn : fs ≠ [])
    (hback : RollsBack host base fs) : Installed s host base fs (s.install host base fs bytes) := by
  have hin : ∀ j < fs.length, base + j < s.table.length := fun j hj => by
    have hh := h.held (inside_pos.2 (⟨Nat.le_add_right base j, show base + j < base + fs.length by omega⟩))
    exact hh.2.1.trans_le h.next_le
  have hend : base + fs.length ≤ s.table.length := by
    have hp := hin (fs.length - 1) (by have := List.length_pos_of_ne_nil hn; omega)
    have := List.length_pos_of_ne_nil hn
    omega
  obtain ⟨done, rest, hfs, hok, hslots, hfill, hacc, href⟩ :=
    @installLoop_spec host s.nextOwner fs base [] { s with nextOwner := s.nextOwner + 1 } hend
  unfold JitCodeStore.install
  revert hok hslots hfill
  dsimp only
  generalize installLoop host s.nextOwner base fs [] { s with nextOwner := s.nextOwner + 1 } = r
  obtain ⟨ok, slots, s₁⟩ := r
  intro hok hslots hfill
  dsimp only at hok hslots hfill
  rw [List.nil_append] at hslots
  subst hok hslots
  cases rest with
  | nil =>
    rw [List.append_nil] at hfs
    subst hfs
    have hreservations : s₁.reservations = s.reservations := by rw [hfill.eq]
    refine .live ((h.installed hn hfill).stats _) hreservations hacc fun x hx => ?_
    change s₁.slotOwners.has x = true
    rw [OrderedMap.has, hfill.owner x, if_pos (inside_pos.1 hx)]
    rfl
  | cons f rest =>
    have hlt : done.length < fs.length := by rw [hfs, List.length_append, List.length_cons]; omega
    have hclear : ∀ x ∈ List.range' base done.length, host.set x none = false := fun x hx => by
      obtain ⟨h1, h2⟩ := List.mem_range'_1.1 hx
      have hget : ∀ j < done.length, fs[j]? = done[j]? := fun j hj => by rw [hfs, List.getElem?_append_left hj]
      have hb := hback done.length (fun j hj => by rw [hget j hj]; exact hacc j hj)
        ⟨f, by rw [hfs, List.getElem?_append_right le_rfl, Nat.sub_self]; rfl, href f rfl⟩ (x - base) (by omega)
      rwa [Nat.add_sub_cancel' h1] at hb
    obtain ⟨hrok, hempty⟩ := @rollbackLoop_spec host (List.range' base done.length) s₁
      (fun x hx => by
        obtain ⟨h1, h2⟩ := List.mem_range'_1.1 hx
        rw [hfill.length]
        dsimp only
        omega) hclear
    revert hrok hempty
    dsimp only [List.isEmpty_cons]
    generalize rollbackLoop host (List.range' base done.length) s₁ = q
    obtain ⟨ok, s₂⟩ := q
    intro hrok hempty
    dsimp only at hrok hempty
    subst hrok
    have hb := (h.rolledBack hlt.le hfill hempty).drop
    have hsound : Sound (s₂.releaseRun base fs.length) := hb.releaseHeld
    refine .failed (hsound.stats _) ?_ fun x hx => ?_
    · change s₂.reservations = s.reservations
      rw [hempty.eq, hfill.eq]
    · exact hb.held_free hx

end JitCodeStore
end Lish
