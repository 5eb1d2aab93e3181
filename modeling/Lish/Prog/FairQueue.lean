import Mathlib.Order.Basic
import Mathlib.Data.List.Basic
/-!
# FairQueue — a queue over time that is served again and again

In each step its first element may be taken, and others may come at its end.  Every element comes to be the one that is taken.
-/
namespace Lish

namespace FairQueue

variable {α : Type}

/-- A queue over time, with the times at which its first element is taken. -/
structure Served (queue : ℕ → List α) (takes : ℕ → Prop) : Prop where
  took : ∀ t, takes t → ∃ more, queue (t + 1) = (queue t).tail ++ more
  grew : ∀ t, ¬takes t → ∃ more, queue (t + 1) = queue t ++ more
  fair : ∀ t, queue t ≠ [] → ∃ t', t ≤ t' ∧ takes t'

variable {queue : ℕ → List α} {takes : ℕ → Prop}

/-- Until the next time of service an element keeps its place. -/
theorem Served.keeps (h : Served queue takes) {k t : ℕ} {a : α} (ha : (queue t)[k]? = some a) :
    ∃ t', t ≤ t' ∧ takes t' ∧ (queue t')[k]? = some a := by
  have hne : queue t ≠ [] := by
    intro hnil
    rw [hnil] at ha
    cases ha
  obtain ⟨t', hle, htakes⟩ := h.fair t hne
  -- the induction is on how far off the service is
  induction hn : t' - t generalizing t with
  | zero => exact ⟨t', hle, htakes, by rwa [show t' = t by omega]⟩
  | succ n ih =>
    by_cases hnow : takes t
    · exact ⟨t, Nat.le_refl t, hnow, ha⟩
    · obtain ⟨more, hmore⟩ := h.grew t hnow
      have hlt : k < (queue t).length := (List.getElem?_eq_some_iff.1 ha).1
      have hnext : (queue (t + 1))[k]? = some a := by
        rw [hmore, List.getElem?_append_left hlt]
        exact ha
      have hne' : queue (t + 1) ≠ [] := by
        intro hnil
        rw [hnil] at hnext
        cases hnext
      obtain ⟨t'', hle'', h1, h2⟩ := ih hnext hne' (by omega) (by omega)
      exact ⟨t'', by omega, h1, h2⟩

/-- **Every element is taken** in its turn. -/
theorem Served.taken (h : Served queue takes) {k t : ℕ} {a : α} (ha : (queue t)[k]? = some a) :
    ∃ t', t ≤ t' ∧ takes t' ∧ (queue t').head? = some a := by
  induction k generalizing t with
  | zero =>
    obtain ⟨t', hle, htakes, hat⟩ := h.keeps ha
    exact ⟨t', hle, htakes, by rwa [List.head?_eq_getElem?]⟩
  | succ k ih =>
    obtain ⟨t', hle, htakes, hat⟩ := h.keeps ha
    obtain ⟨more, hmore⟩ := h.took t' htakes
    have hlt : k + 1 < (queue t').length := (List.getElem?_eq_some_iff.1 hat).1
    have hnext : (queue (t' + 1))[k]? = some a := by
      rw [hmore, List.getElem?_append_left (by rw [List.length_tail]; omega), List.getElem?_tail]
      exact hat
    obtain ⟨t'', hle', h1, h2⟩ := ih hnext
    exact ⟨t'', by omega, h1, h2⟩

end FairQueue
end Lish
