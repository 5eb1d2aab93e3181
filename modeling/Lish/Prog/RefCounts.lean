import Lish.Prog.HashMap
import Mathlib.Data.List.Count
/-!
# RefCounts — reference counts in a map, and the references that they count

A key with no reference has no entry.  Counting saturates at a cap, so counts are exact while no key reaches it.
-/
namespace Lish

namespace RefCounts

variable {κ : Type} [DecidableEq κ] [BEq κ] [LawfulBEq κ]

/-- One reference more, up to a cap. -/
def retain (cap : ℕ) (m : HashMap κ ℕ) (k : κ) : HashMap κ ℕ := m.insert k (min ((m k).getD 0 + 1) cap)

/-- One reference fewer; a count that is missing stays so. -/
def release (m : HashMap κ ℕ) (k : κ) : HashMap κ ℕ :=
  match m k with
  | none => m
  | some refs => if refs ≤ 1 then m.remove k else m.insert k (refs - 1)

/-- What the map holds for a number of references. -/
def counted (refs : ℕ) : Option ℕ := if refs = 0 then none else some refs

/-- The map counts the references of a list. -/
def Counts (m : HashMap κ ℕ) (l : List κ) : Prop := ∀ k, m k = counted (l.count k)

variable {m : HashMap κ ℕ} {k : κ} {l l' ks : List κ} {cap : ℕ}

theorem counted_getD (refs : ℕ) : (counted refs).getD 0 = refs := by
  unfold counted
  split
  · rename_i h
    exact h.symm
  · rfl

theorem counted_succ (refs : ℕ) : counted (refs + 1) = some (refs + 1) := if_neg (Nat.succ_ne_zero refs)

namespace Counts

omit [DecidableEq κ] [LawfulBEq κ] in
theorem empty : Counts (HashMap.empty : HashMap κ ℕ) [] := fun _ => rfl

omit [DecidableEq κ] [LawfulBEq κ] in
theorem perm (h : Counts m l) (hp : l.Perm l') : Counts m l' := fun k => by rw [h k, hp.count_eq]

theorem retain (h : Counts m l) (hcap : l.count k < cap) : Counts (retain cap m k) (k :: l) := by
  intro i
  unfold RefCounts.retain
  rw [h k, counted_getD, min_eq_left hcap]
  by_cases hi : i = k
  · subst hi
    rw [HashMap.insert_self, List.count_cons_self, counted_succ]
  · rw [HashMap.insert_of_ne hi, List.count_cons_of_ne (Ne.symm hi), h i]

theorem release (h : Counts m (k :: l)) : Counts (release m k) l := by
  intro i
  have hk : m k = some (l.count k + 1) := by rw [h k, List.count_cons_self, counted_succ]
  have hother : i ≠ k → m i = counted (l.count i) := fun hi => by rw [h i, List.count_cons_of_ne (Ne.symm hi)]
  unfold RefCounts.release
  rw [hk]
  dsimp only
  by_cases hi : i = k
  · subst hi
    split
    · rename_i hle
      have hzero : l.count i = 0 := by omega
      rw [HashMap.remove_self, hzero]
      rfl
    · rename_i hlt
      have hpos : l.count i ≠ 0 := by omega
      rw [HashMap.insert_self, Nat.add_sub_cancel]
      exact (if_neg hpos).symm
  · split
    · rw [HashMap.remove_of_ne hi, hother hi]
    · rw [HashMap.insert_of_ne hi, hother hi]

theorem releaseAll (h : Counts m (ks ++ l)) : Counts (ks.foldl RefCounts.release m) l := by
  induction ks generalizing m with
  | nil => exact h
  | cons k ks ih => exact ih h.release

/-- References are counted one by one while none reaches the cap. -/
theorem retainAll (h : Counts m l) (hcap : ∀ k, (ks ++ l).count k ≤ cap) : Counts (ks.foldl (RefCounts.retain cap) m) (ks ++ l) := by
  induction ks generalizing m l with
  | nil => exact h
  | cons k ks ih =>
    have hlt : l.count k < cap := by
      have := hcap k
      rw [List.cons_append, List.count_cons_self, List.count_append] at this
      omega
    have hmiddle : (ks ++ k :: l).Perm (k :: ks ++ l) := List.perm_middle
    exact (ih (h.retain hlt) fun i => by rw [hmiddle.count_eq]; exact hcap i).perm hmiddle

/-- **Each release** meets the count of the references that are left. -/
theorem release_meets (h : Counts m (ks ++ l)) {before after : List κ} (hks : ks = before ++ k :: after) :
    (before.foldl RefCounts.release m) k = some ((k :: after ++ l).count k) := by
  subst hks
  rw [List.append_assoc] at h
  rw [h.releaseAll k, List.cons_append, List.count_cons_self, counted_succ]

end Counts

end RefCounts
end Lish
