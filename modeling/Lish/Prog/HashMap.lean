import Mathlib.Logic.Function.Basic
import Mathlib.Data.List.Sort
import Mathlib.Data.Set.Card
/-!
# HashMap — maps and sorted sets, by what a lookup finds

A hash map is the function of its lookups: nothing depends on the order in which it is walked.  A sorted set is the list of
its elements.
-/
namespace Lish

abbrev HashMap (κ α : Type) := κ → Option α

namespace HashMap

variable {κ α : Type} [DecidableEq κ]

def empty : HashMap κ α := fun _ => none

def insert (m : HashMap κ α) (k : κ) (v : α) : HashMap κ α := fun i => if i = k then some v else m i

def remove (m : HashMap κ α) (k : κ) : HashMap κ α := fun i => if i = k then none else m i

def retain (m : HashMap κ α) (p : κ → α → Bool) : HashMap κ α := fun k => (m k).filter (p k)

variable (m : HashMap κ α) (k i : κ) (v : α)

@[simp] theorem insert_self : m.insert k v k = some v := if_pos rfl

@[simp] theorem insert_of_ne {m : HashMap κ α} {k i : κ} {v : α} (h : i ≠ k) : m.insert k v i = m i := if_neg h

@[simp] theorem remove_self : m.remove k k = none := if_pos rfl

@[simp] theorem remove_of_ne {m : HashMap κ α} {k i : κ} (h : i ≠ k) : m.remove k i = m i := if_neg h

theorem insert_apply : m.insert k v i = if i = k then some v else m i := rfl

theorem remove_apply : m.remove k i = if i = k then none else m i := rfl

theorem remove_eq_self {m : HashMap κ α} {k : κ} (h : m k = none) : m.remove k = m := by
  funext i
  rw [remove_apply]
  split
  next he => rw [he, h]
  next => rfl

theorem remove_eq_some {m : HashMap κ α} {k i : κ} {v : α} : m.remove k i = some v ↔ i ≠ k ∧ m i = some v := by
  rw [remove_apply]
  split
  next h => exact ⟨fun hn => (nomatch hn), fun hn => absurd h hn.1⟩
  next h => exact ⟨fun hs => ⟨h, hs⟩, And.right⟩

omit [DecidableEq κ] in
/-- A map keeps what the predicate allows. -/
theorem retain_keys (p : κ → Bool) : m.retain (fun k _ => p k) k = if p k then m k else none := by
  unfold retain
  cases hp : p k with
  | true => cases m k <;> simp [hp]
  | false => cases m k <;> simp [hp]

end HashMap

/-! ## Relations kept as lists -/

/-- The lists under the keys are the relation: none is empty, and none names an element twice. -/
structure HashMap.Lists {κ α : Type} (m : HashMap κ (List α)) (R : κ → α → Prop) : Prop where
  mem : ∀ k a, R k a ↔ ∃ l, m k = some l ∧ a ∈ l
  proper : ∀ k l, m k = some l → l ≠ [] ∧ l.Nodup

namespace HashMap.Lists

variable {κ α : Type} {m : HashMap κ (List α)} {R R' : κ → α → Prop} {k k' : κ} {a : α} {l : List α}

theorem empty : Lists (empty : HashMap κ (List α)) fun _ _ => False :=
  ⟨fun _ _ => ⟨False.elim, fun ⟨_, h, _⟩ => (nomatch h)⟩, fun _ _ h => (nomatch h)⟩

theorem congr (h : Lists m R) (hR : ∀ k a, R k a ↔ R' k a) : Lists m R' := ⟨fun k a => (hR k a).symm.trans (h.mem k a), h.proper⟩

theorem mem_iff (h : Lists m R) (hk : m k = some l) : a ∈ l ↔ R k a := by
  rw [h.mem, hk]
  exact ⟨fun ha => ⟨l, rfl, ha⟩, fun ⟨_, he, ha⟩ => Option.some.inj he ▸ ha⟩

theorem mem_getD (h : Lists m R) : a ∈ (m k).getD [] ↔ R k a := by
  rw [h.mem]
  cases m k with
  | none => exact ⟨fun ha => (nomatch ha), fun ⟨_, he, _⟩ => (nomatch he)⟩
  | some l => exact ⟨fun ha => ⟨l, rfl, ha⟩, fun ⟨_, he, ha⟩ => Option.some.inj he ▸ ha⟩

theorem eq_none (h : Lists m R) : m k = none ↔ ∀ a, ¬R k a := by
  refine ⟨fun hn a ha => ?_, fun hn => ?_⟩
  · obtain ⟨l, hl, -⟩ := (h.mem k a).1 ha
    rw [hn] at hl
    cases hl
  · cases hk : m k with
    | none => rfl
    | some l =>
      obtain ⟨a, ha⟩ := List.exists_mem_of_ne_nil l (h.proper k l hk).1
      exact absurd ((h.mem_iff hk).1 ha) (hn a)

variable [DecidableEq κ]

theorem insert (h : Lists m R) (hl : l ≠ []) (hd : l.Nodup) : Lists (m.insert k l) fun k' a => if k' = k then a ∈ l else R k' a := by
  refine ⟨fun k' a => ?_, fun k' l' h' => ?_⟩
  · rw [insert_apply]
    split
    · exact ⟨fun ha => ⟨l, rfl, ha⟩, fun ⟨_, he, ha⟩ => Option.some.inj he ▸ ha⟩
    · exact h.mem k' a
  · rw [insert_apply] at h'
    split at h'
    · cases h'
      exact ⟨hl, hd⟩
    · exact h.proper k' l' h'

theorem remove (h : Lists m R) (k : κ) : Lists (m.remove k) fun k' a => k' ≠ k ∧ R k' a := by
  refine ⟨fun k' a => ?_, fun k' l h' => h.proper k' l (remove_eq_some.1 h').2⟩
  rw [h.mem]
  refine ⟨fun ⟨hk, l, hl, ha⟩ => ⟨l, remove_eq_some.2 ⟨hk, hl⟩, ha⟩, fun ⟨l, hl, ha⟩ => ?_⟩
  obtain ⟨hk, hl⟩ := remove_eq_some.1 hl
  exact ⟨hk, l, hl, ha⟩

/-- An element is added under a key. -/
theorem add [DecidableEq α] (h : Lists m R) (k : κ) (a : α) :
    Lists (m.insert k (if a ∈ (m k).getD [] then (m k).getD [] else (m k).getD [] ++ [a])) fun k' a' => R k' a' ∨ k' = k ∧ a' = a := by
  have hold : ((m k).getD []).Nodup := by
    cases hk : m k with
    | none => exact List.nodup_nil
    | some l => exact (h.proper k l hk).2
  split
  · rename_i ha
    refine (h.insert (List.ne_nil_of_mem ha) hold).congr fun k' a' => ?_
    split
    · rename_i hk
      rw [hk, h.mem_getD]
      exact ⟨.inl, fun hR => hR.elim id fun ⟨_, he⟩ => he ▸ h.mem_getD.1 ha⟩
    · rename_i hk
      exact ⟨.inl, fun hR => hR.elim id fun ⟨he, _⟩ => absurd he hk⟩
  · rename_i ha
    refine (h.insert (List.append_ne_nil_of_right_ne_nil _ (List.cons_ne_nil a [])) ?_).congr fun k' a' => ?_
    · exact List.nodup_append.2 ⟨hold, List.nodup_singleton a, fun x hx y hy he => ha (List.mem_singleton.1 hy ▸ he ▸ hx)⟩
    · split
      · rename_i hk
        rw [List.mem_append, List.mem_singleton, hk, h.mem_getD]
        exact or_congr_right ⟨fun he => ⟨rfl, he⟩, And.right⟩
      · rename_i hk
        exact ⟨.inl, fun hR => hR.elim id fun ⟨he, _⟩ => absurd he hk⟩

end HashMap.Lists

/-! ## How often a map has a value -/

namespace HashMap

variable {κ α : Type}

/-- The number of keys under which a map has a value. -/
noncomputable def count (m : HashMap κ α) (v : α) : ℕ := {k | m k = some v}.ncard

theorem count_eq_zero [Finite κ] {m : HashMap κ α} {v : α} : m.count v = 0 ↔ ∀ k, m k ≠ some v := by
  unfold count
  rw [Set.ncard_eq_zero]
  exact Set.eq_empty_iff_forall_notMem

/-- The value of one key changes. -/
theorem count_update [Finite κ] [DecidableEq κ] [DecidableEq α] (m : HashMap κ α) (k : κ) (w : Option α) (v : α) :
    count (fun j => if j = k then w else m j) v + (if m k = some v then 1 else 0) = m.count v + if w = some v then 1 else 0 := by
  -- the keys but `k` are the same in both
  have hbase : ∀ w : Option α, ({j | (if j = k then w else m j) = some v} : Set κ).ncard =
      {j | j ≠ k ∧ m j = some v}.ncard + if w = some v then 1 else 0 := by
    intro w
    split
    · rename_i hw
      rw [← Set.ncard_insert_of_notMem (a := k) (s := {j | j ≠ k ∧ m j = some v}) (fun h => h.1 rfl)]
      congr 1
      ext j
      by_cases hj : j = k <;> simp [hj, hw]
    · rename_i hw
      congr 1
      ext j
      by_cases hj : j = k <;> simp [hj, hw]
  have hm : {j | m j = some v} = {j | (if j = k then m k else m j) = some v} := by
    ext j
    by_cases hj : j = k <;> simp [hj]
  unfold count
  rw [hbase w, hm, hbase (m k)]
  omega

end HashMap

/-! ## Sorted sets -/

namespace SortedSet

variable {α : Type} [DecidableEq α] (le : α → α → Prop) [DecidableRel le]

def insert (l : List α) (a : α) : List α := if a ∈ l then l else l.orderedInsert le a

variable {le} {l : List α} {a b : α}

@[simp] theorem mem_insert : b ∈ insert le l a ↔ b = a ∨ b ∈ l := by
  unfold insert
  split
  next h => exact ⟨Or.inr, fun hb => hb.elim (fun he => he ▸ h) id⟩
  next => exact List.mem_orderedInsert le

theorem nodup_insert (h : l.Nodup) : (insert le l a).Nodup := by
  unfold insert
  split
  next => exact h
  next ha => exact (List.perm_orderedInsert le a l).nodup_iff.2 (List.nodup_cons.2 ⟨ha, h⟩)

end SortedSet
end Lish
