import Mathlib.Data.List.Perm.Basic
/-!
# AnyOrder — steps that commute where an invariant holds

A run of steps in any order ends in the same state if every two of them commute in the states that the steps keep.
-/
namespace Lish
namespace AnyOrder

variable {α σ : Type} {f : σ → α → σ} {W : σ → Prop}

/-- **Steps in any order** end in the same state. -/
theorem foldl_perm {l l' : List α} (hp : l.Perm l') (hW : ∀ a ∈ l, ∀ s, W s → W (f s a))
    (hc : ∀ a ∈ l, ∀ b ∈ l, ∀ s, W s → f (f s a) b = f (f s b) a) {s : σ} (hs : W s) : l.foldl f s = l'.foldl f s := by
  induction hp generalizing s with
  | nil => rfl
  | cons a _ ih =>
    exact ih (fun b hb => hW b (List.mem_cons_of_mem a hb))
      (fun b hb c hc' => hc b (List.mem_cons_of_mem a hb) c (List.mem_cons_of_mem a hc')) (hW a List.mem_cons_self s hs)
  | swap a b l =>
    rw [List.foldl_cons, List.foldl_cons, List.foldl_cons, List.foldl_cons,
      hc b List.mem_cons_self a (List.mem_cons_of_mem b List.mem_cons_self) s hs]
  | trans hp₁ _ ih₁ ih₂ =>
    refine (ih₁ hW hc hs).trans (ih₂ (fun a ha => hW a (hp₁.mem_iff.2 ha)) (fun a ha b hb => ?_) hs)
    exact hc a (hp₁.mem_iff.2 ha) b (hp₁.mem_iff.2 hb)

/-- Steps that do nothing in a state leave it. -/
theorem foldl_still {l : List α} {s : σ} (h : ∀ a ∈ l, f s a = s) : l.foldl f s = s := by
  induction l with
  | nil => rfl
  | cons a l ih =>
    rw [List.foldl_cons, h a List.mem_cons_self]
    exact ih fun b hb => h b (List.mem_cons_of_mem a hb)

end AnyOrder
end Lish
