import Mathlib.Algebra.GroupWithZero.Nat
import Mathlib.Algebra.BigOperators.Group.List.Basic
import Mathlib.Data.List.Nodup
/-!
# OrderedMap — maps that keep the order of insertion

A list of entries with distinct keys, and sums over its values.
-/
namespace Lish

/-- A map whose entries stand in the order they were first set. -/
structure OrderedMap (κ α : Type) where
  entries : List (κ × α)
  nodup : (entries.map Prod.fst).Nodup

namespace OrderedMap

variable {κ α : Type} [DecidableEq κ]

def empty : OrderedMap κ α := ⟨[], List.nodup_nil⟩

def keys (m : OrderedMap κ α) : List κ := m.entries.map Prod.fst

def size (m : OrderedMap κ α) : ℕ := m.entries.length

def get? (m : OrderedMap κ α) (k : κ) : Option α := (m.entries.find? fun e => decide (e.1 = k)).map Prod.snd

def has (m : OrderedMap κ α) (k : κ) : Bool := (m.get? k).isSome

/-- A new key goes to the end; an old one keeps its place. -/
def set (m : OrderedMap κ α) (k : κ) (v : α) : OrderedMap κ α :=
  if h : k ∈ m.entries.map Prod.fst then
    ⟨m.entries.map fun e => if e.1 = k then (k, v) else e, by
      have hkeys : (m.entries.map fun e => if e.1 = k then (k, v) else e).map Prod.fst = m.entries.map Prod.fst := by
        rw [List.map_map]
        refine List.map_congr_left fun e _ => ?_
        by_cases he : e.1 = k
        · simp [he]
        · simp [he]
      rw [hkeys]
      exact m.nodup⟩
  else
    ⟨m.entries ++ [(k, v)], by
      rw [List.map_append]
      exact List.nodup_append.2 ⟨m.nodup, List.nodup_singleton k, fun a ha b hb => by
        rw [List.map_cons, List.map_nil, List.mem_singleton] at hb
        subst hb
        exact fun he => h (he ▸ ha)⟩⟩

def delete (m : OrderedMap κ α) (k : κ) : OrderedMap κ α :=
  ⟨m.entries.filter fun e => decide (e.1 ≠ k), m.nodup.sublist ((List.filter_sublist).map _)⟩

/-- Every entry whose key is met by `p` goes. -/
def deleteIf (m : OrderedMap κ α) (p : κ → Bool) : OrderedMap κ α :=
  ⟨m.entries.filter fun e => !p e.1, m.nodup.sublist ((List.filter_sublist).map _)⟩

/-- The sum of a quantity over the values. -/
def sum (m : OrderedMap κ α) (f : α → ℕ) : ℕ := (m.entries.map fun e => f e.2).sum

/-! ## Looking up -/

theorem mem_entries {m : OrderedMap κ α} {k : κ} {v : α} : (k, v) ∈ m.entries ↔ m.get? k = some v := by
  unfold get?
  constructor
  · intro h
    cases hf : m.entries.find? fun e => decide (e.1 = k) with
    | none => exact absurd (List.find?_eq_none.1 hf (k, v) h) (by simp)
    | some e =>
      have hk : e.1 = k := by simpa using List.find?_some hf
      have he : e = (k, v) := List.inj_on_of_nodup_map m.nodup (List.mem_of_find?_eq_some hf) h hk
      rw [he]
      rfl
  · intro h
    obtain ⟨e, hf, rfl⟩ := Option.map_eq_some_iff.1 h
    have hk : e.1 = k := by simpa using List.find?_some hf
    rw [← hk]
    exact List.mem_of_find?_eq_some hf

theorem get?_ext {m m' : OrderedMap κ α} {k : κ} (h : ∀ v, (k, v) ∈ m.entries ↔ (k, v) ∈ m'.entries) : m.get? k = m'.get? k := by
  ext v
  rw [← mem_entries, ← mem_entries, h]

theorem mem_keys {m : OrderedMap κ α} {k : κ} : k ∈ m.keys ↔ m.has k = true := by
  unfold keys has
  rw [List.mem_map, Option.isSome_iff_exists]
  constructor
  · rintro ⟨e, he, rfl⟩
    exact ⟨e.2, mem_entries.1 he⟩
  · rintro ⟨v, hv⟩
    exact ⟨(k, v), mem_entries.2 hv, rfl⟩

theorem get?_empty (k : κ) : (empty : OrderedMap κ α).get? k = none := rfl

theorem get?_set (m : OrderedMap κ α) (k k' : κ) (v : α) : (m.set k v).get? k' = if k' = k then some v else m.get? k' := by
  have hmem : ∀ v', (k', v') ∈ (m.set k v).entries ↔ if k' = k then v' = v else (k', v') ∈ m.entries := fun v' => by
    unfold set
    by_cases h : k ∈ m.entries.map Prod.fst
    · rw [dif_pos h]
      dsimp only
      rw [List.mem_map]
      constructor
      · rintro ⟨e, he, heq⟩
        by_cases hk : e.1 = k
        · rw [if_pos hk] at heq
          cases heq
          rw [if_pos rfl]
        · rw [if_neg hk] at heq
          subst heq
          rw [if_neg hk]
          exact he
      · intro hv
        by_cases hk : k' = k
        · rw [if_pos hk] at hv
          obtain ⟨e, he, hek⟩ := List.mem_map.1 h
          exact ⟨e, he, by rw [if_pos hek, hk, hv]⟩
        · rw [if_neg hk] at hv
          exact ⟨_, hv, if_neg hk⟩
    · rw [dif_neg h]
      dsimp only
      rw [List.mem_append, List.mem_singleton, Prod.mk.injEq]
      by_cases hk : k' = k
      · rw [if_pos hk]
        subst hk
        exact ⟨fun hc => hc.elim (fun hm => absurd (List.mem_map_of_mem hm) h) fun he => he.2, fun he => .inr ⟨rfl, he⟩⟩
      · rw [if_neg hk]
        exact ⟨fun hc => hc.elim id fun he => absurd he.1 hk, .inl⟩
  ext v'
  rw [← mem_entries, hmem]
  by_cases hk : k' = k
  · rw [if_pos hk, if_pos hk, Option.some.injEq, eq_comm]
  · rw [if_neg hk, if_neg hk, mem_entries]

theorem get?_delete (m : OrderedMap κ α) (k k' : κ) : (m.delete k).get? k' = if k' = k then none else m.get? k' := by
  ext v
  rw [← mem_entries]
  unfold delete
  rw [List.mem_filter, mem_entries]
  by_cases hk : k' = k
  · rw [if_pos hk]
    simp [hk]
  · rw [if_neg hk]
    simp [hk]

/-! ## Sums -/

theorem entries_set_new {m : OrderedMap κ α} {k : κ} (h : m.get? k = none) (v : α) : (m.set k v).entries = m.entries ++ [(k, v)] := by
  unfold set
  rw [dif_neg fun hm => by
    have := mem_keys.1 hm
    rw [has, h] at this
    cases this]

theorem sum_set_new {m : OrderedMap κ α} {k : κ} (h : m.get? k = none) (v : α) (f : α → ℕ) :
    (m.set k v).sum f = m.sum f + f v := by
  unfold sum
  rw [entries_set_new h, List.map_append, List.sum_append]
  simp

theorem size_set_new {m : OrderedMap κ α} {k : κ} (h : m.get? k = none) (v : α) : (m.set k v).size = m.size + 1 := by
  unfold size
  rw [entries_set_new h, List.length_append]
  rfl

theorem sum_filter_add (l : List (κ × α)) (hn : (l.map Prod.fst).Nodup) {k : κ} {v : α} (h : (k, v) ∈ l) (f : α → ℕ) :
    ((l.filter fun e => decide (e.1 ≠ k)).map fun e => f e.2).sum + f v = (l.map fun e => f e.2).sum := by
  induction l with
  | nil => cases h
  | cons e l ih =>
    rw [List.map_cons, List.nodup_cons] at hn
    rcases List.mem_cons.1 h with rfl | hm
    · have hall : l.filter (fun e => decide (e.1 ≠ k)) = l := List.filter_eq_self.2 fun e he => by
        refine decide_eq_true fun hk => hn.1 ?_
        exact List.mem_map.2 ⟨e, he, hk⟩
      rw [List.filter_cons_of_neg (by simp), hall, List.map_cons, List.sum_cons, Nat.add_comm]
    · have hne : e.1 ≠ k := fun hk => hn.1 (by rw [hk]; exact List.mem_map_of_mem hm)
      rw [List.filter_cons_of_pos (by simpa using hne), List.map_cons, List.sum_cons, List.map_cons, List.sum_cons, Nat.add_assoc,
        ih hn.2 hm]

theorem sum_delete {m : OrderedMap κ α} {k : κ} {v : α} (h : m.get? k = some v) (f : α → ℕ) :
    (m.delete k).sum f + f v = m.sum f := sum_filter_add m.entries m.nodup (mem_entries.2 h) f

omit [DecidableEq κ] in
theorem sum_const_one (m : OrderedMap κ α) : m.sum (fun _ => 1) = m.size := by
  unfold sum size
  induction m.entries with
  | nil => rfl
  | cons e l ih => rw [List.map_cons, List.sum_cons, ih, List.length_cons, Nat.add_comm]

theorem size_delete {m : OrderedMap κ α} {k : κ} {v : α} (h : m.get? k = some v) : (m.delete k).size + 1 = m.size := by
  rw [← sum_const_one, ← sum_const_one, ← sum_delete h]

/-- The oldest entries go until at most `n` are left. -/
def trim (n : ℕ) (m : OrderedMap κ α) : OrderedMap κ α :=
  match _h : m.entries with
  | [] => m
  | e :: _ => if n < m.size then trim n (m.delete e.1) else m
termination_by m.size
decreasing_by
  have he : m.get? e.1 = some e.2 := mem_entries.1 (_h ▸ List.mem_cons_self)
  have hs := size_delete he
  omega

theorem size_trim (n : ℕ) (m : OrderedMap κ α) : (m.trim n).size ≤ n := by
  induction m using @trim.induct κ α _ n with
  | case1 m h =>
    rw [trim]
    split
    · unfold size
      rw [h]
      exact Nat.zero_le n
    · rename_i h'
      rw [h] at h'
      cases h'
  | case2 m e rest h hn ih =>
    rw [trim]
    split
    · rename_i h'
      rw [h] at h'
      cases h'
    · rename_i h'
      rw [h] at h'
      cases h'
      rw [if_pos hn]
      exact ih
  | case3 m e rest h hn =>
    rw [trim]
    split
    · rename_i h'
      rw [h] at h'
      cases h'
    · rw [if_neg hn]
      exact Nat.le_of_not_lt hn

theorem get?_trim {n : ℕ} {m : OrderedMap κ α} {k : κ} {v : α} (hv : (m.trim n).get? k = some v) : m.get? k = some v := by
  induction m using @trim.induct κ α _ n with
  | case1 m h =>
    rw [trim] at hv
    split at hv
    · exact hv
    · rename_i h'
      rw [h] at h'
      cases h'
  | case2 m e rest h hn ih =>
    rw [trim] at hv
    split at hv
    · exact hv
    · rename_i h'
      rw [h] at h'
      cases h'
      rw [if_pos hn] at hv
      have hd := ih hv
      rw [get?_delete] at hd
      split at hd
      · cases hd
      · exact hd
  | case3 m e rest h hn =>
    rw [trim] at hv
    split at hv
    · exact hv
    · rwa [if_neg hn] at hv

theorem get?_deleteIf {m : OrderedMap κ α} {p : κ → Bool} {k : κ} {v : α} :
    (m.deleteIf p).get? k = some v ↔ m.get? k = some v ∧ p k = false := by
  rw [← mem_entries, ← mem_entries]
  unfold deleteIf
  rw [List.mem_filter, Bool.not_eq_true']

omit [DecidableEq κ] in
theorem size_deleteIf (m : OrderedMap κ α) (p : κ → Bool) : (m.deleteIf p).size ≤ m.size := List.length_filter_le _ _

/-- Replacing a value moves a sum by the difference. -/
theorem sum_set_old {m : OrderedMap κ α} {k : κ} {v₀ : α} (h : m.get? k = some v₀) (v : α) (f : α → ℕ) :
    (m.set k v).sum f + f v₀ = m.sum f + f v := by
  have hm : k ∈ m.entries.map Prod.fst := mem_keys.2 (by rw [has, h]; rfl)
  have hs : (m.set k v).get? k = some v := by rw [get?_set, if_pos rfl]
  have hd : ((m.set k v).delete k).entries = (m.delete k).entries := by
    unfold set delete
    rw [dif_pos hm]
    dsimp only
    rw [List.filter_map, List.filter_congr (q := fun e => decide (e.1 ≠ k)) fun e _ => ?_]
    · refine (List.map_congr_left fun e he => ?_).trans (List.map_id _)
      rw [if_neg (of_decide_eq_true (List.mem_filter.1 he).2), id]
    · by_cases he : e.1 = k <;> simp [he]
  have h1 := sum_delete hs f
  have h2 := sum_delete h f
  unfold sum at h1 h2 ⊢
  rw [hd] at h1
  omega

theorem size_set_old {m : OrderedMap κ α} {k : κ} {v₀ : α} (h : m.get? k = some v₀) (v : α) : (m.set k v).size = m.size := by
  have := sum_set_old h v fun _ => 1
  rw [sum_const_one, sum_const_one] at this
  omega

theorem le_sum {m : OrderedMap κ α} {k : κ} {v : α} (h : m.get? k = some v) (f : α → ℕ) : f v ≤ m.sum f := by
  rw [← sum_delete h]
  exact Nat.le_add_left _ _

end OrderedMap
end Lish
