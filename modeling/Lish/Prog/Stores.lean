import Mathlib.Data.List.Basic
import Mathlib.Data.List.Zip
/-!
# Stores — a memory after stores in order

Where stores go to one place, the last of them stands.
-/
namespace Lish

/-- What the last store to a place has left there. -/
def lastStored {α β : Type} [DecidableEq α] (stores : List (α × β)) (x : α) : Option β :=
  (stores.reverse.find? fun s => decide (s.1 = x)).map (·.2)

variable {α β : Type}

/-- Values that go to a list of places, then to the places after them. -/
theorem zip_append_drop (s t : List α) (values : List β) : (s ++ t).zip values = s.zip values ++ t.zip (values.drop s.length) := by
  induction s generalizing values with
  | nil => rfl
  | cons a s ih =>
    cases values with
    | nil => simp
    | cons b values => rw [List.cons_append, List.zip_cons_cons, ih, List.zip_cons_cons, List.length_cons, List.drop_succ_cons, List.cons_append]

variable [DecidableEq α]

theorem lastStored_append (s t : List (α × β)) (x : α) : lastStored (s ++ t) x = (lastStored t x).or (lastStored s x) := by
  unfold lastStored
  rw [List.reverse_append, List.find?_append, Option.map_or]

theorem lastStored_cons (a : α) (b : β) (s : List (α × β)) (x : α) :
    lastStored ((a, b) :: s) x = (lastStored s x).or (if a = x then some b else none) := by
  rw [← List.singleton_append, lastStored_append]
  congr 1
  unfold lastStored
  by_cases h : a = x
  · rw [if_pos h]
    simp [h]
  · rw [if_neg h]
    simp [h]

/-- Values stored at consecutive places, as far as there are places. -/
theorem lastStored_range' (values : List β) (a k x : ℕ) : lastStored ((List.range' a k).zip values) x =
    if a ≤ x ∧ x < a + k then values[x - a]? else none := by
  induction k generalizing a values with
  | zero =>
    rw [if_neg (by omega)]
    rfl
  | succ k ih =>
    cases values with
    | nil =>
      rw [List.getElem?_nil, ite_self, List.zip_nil_right]
      rfl
    | cons b values =>
      rw [List.range'_succ, List.zip_cons_cons, lastStored_cons, ih]
      by_cases ha : a = x
      · rw [ha, if_neg (by omega), if_pos rfl, if_pos (by omega), Nat.sub_self, List.getElem?_cons_zero, Option.none_or]
      · rw [if_neg ha, Option.or_none]
        by_cases hx : a + 1 ≤ x ∧ x < a + 1 + k
        · rw [if_pos hx, if_pos (by omega), show x - a = x - (a + 1) + 1 by omega, List.getElem?_cons_succ]
        · rw [if_neg hx, if_neg (by omega)]

/-- More stores change what earlier ones left. -/
theorem lastStored_append_getD (s t : List (α × β)) (x : α) (b : β) :
    (lastStored (s ++ t) x).getD b = (lastStored t x).getD ((lastStored s x).getD b) := by
  rw [lastStored_append]
  cases lastStored t x <;> rfl

end Lish
