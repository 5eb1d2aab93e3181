import Mathlib.Data.List.Range
import Mathlib.Logic.Function.Basic
/-!
# RingQueue — a bounded queue in an array that wraps around

The queue is the slots from the head on, `count` of them.  Positions are computed in words, which wrap around at a limit of their
own; with room for two rings below the limit they never do.
-/
namespace Lish

structure RingQueue (α : Type) where
  slots : ℕ → α
  capacity : ℕ
  head : ℕ
  count : ℕ

namespace RingQueue

variable {α : Type} {limit : ℕ} {r r' : RingQueue α} {a : α}

def empty (blank : α) (capacity : ℕ) : RingQueue α := ⟨fun _ => blank, capacity, 0, 0⟩

/-- None where the ring is full. -/
def push (limit : ℕ) (r : RingQueue α) (a : α) : Option (RingQueue α) :=
  if r.count = r.capacity then none
  else some { r with
    slots := Function.update r.slots ((r.head + r.count) % limit % r.capacity) a
    count := r.count + 1 }

/-- None where the ring is empty. -/
def pop (limit : ℕ) (r : RingQueue α) : Option (α × RingQueue α) :=
  if r.count = 0 then none
  else some (r.slots r.head, { r with head := (r.head + 1) % limit % r.capacity, count := r.count - 1 })

/-- What the ring holds, in order. -/
def contents (r : RingQueue α) : List α := (List.range r.count).map fun i => r.slots ((r.head + i) % r.capacity)

structure Proper (limit : ℕ) (r : RingQueue α) : Prop where
  room : 2 * r.capacity ≤ limit
  head : r.head < r.capacity
  count : r.count ≤ r.capacity

theorem length_contents (r : RingQueue α) : r.contents.length = r.count := by
  unfold contents
  rw [List.length_map, List.length_range]

theorem contents_eq_nil : r.contents = [] ↔ r.count = 0 := by rw [← List.length_eq_zero_iff, length_contents]

theorem contents_empty (blank : α) (capacity : ℕ) : (empty blank capacity).contents = [] := rfl

theorem proper_empty (blank : α) {capacity : ℕ} (hpos : 0 < capacity) (hroom : 2 * capacity ≤ limit) : Proper limit
    (empty blank capacity) :=
  ⟨hroom, hpos, Nat.zero_le _⟩

/-- The slots of different places in the queue are different. -/
theorem place_ne {capacity head i j : ℕ} (hij : i < j) (hj : j < capacity) : (head + i) % capacity ≠ (head + j) % capacity := by
  intro he
  have hdvd : capacity ∣ head + j - (head + i) := Nat.dvd_of_mod_eq_zero (Nat.sub_mod_eq_zero_of_mod_eq he.symm)
  have := Nat.le_of_dvd (by omega) hdvd
  omega

/-- A push that succeeds appends. -/
theorem push_some (h : Proper limit r) (hp : push limit r a = some r') : Proper limit r' ∧ r'.contents = r.contents ++ [a] := by
  have hroom := h.room
  have hhead := h.head
  have hcount := h.count
  unfold push at hp
  split at hp
  · cases hp
  · rename_i hfull
    cases hp
    have hplace : (r.head + r.count) % limit % r.capacity = (r.head + r.count) % r.capacity := by
      rw [Nat.mod_eq_of_lt (show r.head + r.count < limit by omega)]
    refine ⟨⟨hroom, hhead, by dsimp only; omega⟩, ?_⟩
    unfold contents
    dsimp only
    rw [hplace, List.range_succ, List.map_append, List.map_singleton, Function.update_self]
    congr 1
    refine List.map_congr_left fun i hi => ?_
    have hlt := List.mem_range.1 hi
    exact Function.update_of_ne (place_ne hlt (by omega)) _ _

theorem push_isSome (h : r.contents.length < r.capacity) : ∃ r', push limit r a = some r' := by
  rw [length_contents] at h
  exact ⟨_, if_neg (by omega)⟩

theorem push_capacity (hp : push limit r a = some r') : r'.capacity = r.capacity := by
  unfold push at hp
  split at hp
  · cases hp
  · cases hp
    rfl

/-- A pop that succeeds takes the first. -/
theorem pop_some (h : Proper limit r) (hp : pop limit r = some (a, r')) : Proper limit r' ∧ r.contents = a :: r'.contents := by
  have hroom := h.room
  have hhead := h.head
  have hcount := h.count
  unfold pop at hp
  split at hp
  · cases hp
  · rename_i hempty
    cases hp
    obtain ⟨n, hn⟩ : ∃ n, r.count = n + 1 := ⟨r.count - 1, by omega⟩
    have hnext : (r.head + 1) % limit % r.capacity = (r.head + 1) % r.capacity := by
      rw [Nat.mod_eq_of_lt (show r.head + 1 < limit by omega)]
    refine ⟨⟨hroom, Nat.mod_lt _ (by omega), by dsimp only; omega⟩, ?_⟩
    unfold contents
    dsimp only
    rw [hn, Nat.add_sub_cancel, hnext, List.range_succ_eq_map, List.map_cons, List.map_map, Nat.add_zero, Nat.mod_eq_of_lt hhead]
    congr 1
    refine List.map_congr_left fun i _ => ?_
    dsimp only [Function.comp_apply]
    rw [Nat.mod_add_mod, Nat.add_assoc, Nat.add_comm 1 i]

theorem pop_none (hp : pop limit r = none) : r.contents = [] := by
  unfold pop at hp
  split at hp
  · rename_i hempty
    exact contents_eq_nil.2 hempty
  · cases hp

theorem pop_isSome (h : r.contents ≠ []) : ∃ a r', pop limit r = some (a, r') := by
  rw [Ne, contents_eq_nil] at h
  exact ⟨_, _, if_neg h⟩

end RingQueue
end Lish
