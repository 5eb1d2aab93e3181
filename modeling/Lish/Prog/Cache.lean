import Mathlib.Data.Set.Insert
/-!
# Cache — cached answers to a changing question

A cache answers some keys.  An answer is stale when it is not right any more; dropping entries and filling in right ones
makes none stale, a change makes stale at most the cached keys it touches.
-/
namespace Lish.Cache

variable {K V : Type}

/-- The keys whose cached answer is not right. -/
def Stale (cached : K → Option V) (right : K → V → Prop) : Set K := {k | ∃ v, cached k = some v ∧ ¬ right k v}

variable {c c' : K → Option V} {right right' : K → V → Prop}

theorem right_of_not_stale {k : K} {v : V} (hk : k ∉ Stale c right) (hv : c k = some v) : right k v := by
  by_contra hr
  exact hk ⟨v, hv, hr⟩

theorem stale_fill (h : ∀ k v, c' k = some v → c k = some v ∨ right k v) : Stale c' right ⊆ Stale c right := by
  rintro k ⟨v, hv, hr⟩
  exact ⟨v, (h k v hv).resolve_right hr, hr⟩

theorem stale_drop (h : ∀ k v, c' k = some v → c k = some v) : Stale c' right ⊆ Stale c right :=
  stale_fill fun k v hv => Or.inl (h k v hv)

theorem stale_change {T : Set K} (h : ∀ k v, c k = some v → k ∉ T → right k v → right' k v) :
    Stale c right' ⊆ Stale c right ∪ T := by
  rintro k ⟨v, hv, hr⟩
  by_cases hT : k ∈ T
  · exact Or.inr hT
  · exact Or.inl ⟨v, hv, fun hk => hr (h k v hv hT hk)⟩

theorem stale_empty (h : ∀ k, c k = none) : Stale c right = ∅ := by
  apply Set.eq_empty_of_forall_notMem
  rintro k ⟨v, hv, -⟩
  rw [h k] at hv
  cases hv

end Lish.Cache
