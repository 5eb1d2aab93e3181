import Mathlib.Order.WellFounded
/-!
# Loop — loops that need not end

A loop body goes on with a new state or ends with a result; none is a body that does not end itself.  A loop run for a
bounded number of turns may be cut off: it ends if some bound is enough (`Ends`).  A measure ends it (`ends_of_wf`), an
invariant keeps it going (`not_ends_of_next`), and what every turn keeps holds at the end (`run_invariant`).
-/
namespace Lish

/-- The outcome of one turn. -/
inductive Turn (σ ρ : Type) : Type
  | next (s : σ)
  | done (r : ρ)

/-- The same turn on what a state and a result have of another. -/
def Turn.map {σ τ ρ υ : Type} (f : τ → σ) (g : υ → ρ) : Turn τ υ → Turn σ ρ
  | .next t => .next (f t)
  | .done r => .done (g r)

namespace Loop

variable {σ ρ : Type} {b : σ → Option (Turn σ ρ)} {s s' : σ} {r : ρ} {n k : ℕ}

/-- At most so many turns; none if the loop has not ended by then. -/
def run (body : σ → Option (Turn σ ρ)) : ℕ → σ → Option ρ
  | 0, _ => none
  | n + 1, s =>
    match body s with
    | none => none
    | some (.done r) => some r
    | some (.next s) => run body n s

/-- The state after so many turns that went on. -/
def after (body : σ → Option (Turn σ ρ)) : ℕ → σ → Option σ
  | 0, s => some s
  | n + 1, s =>
    match body s with
    | some (.next s) => after body n s
    | _ => none

/-- The loop ends. -/
def Ends (body : σ → Option (Turn σ ρ)) (s : σ) : Prop := ∃ n, (run body n s).isSome

theorem run_next (h : b s = some (.next s')) (n : ℕ) : run b (n + 1) s = run b n s' := by rw [run, h]

theorem run_done (h : b s = some (.done r)) (n : ℕ) : run b (n + 1) s = some r := by rw [run, h]

theorem after_next (h : b s = some (.next s')) (n : ℕ) : after b (n + 1) s = after b n s' := by rw [after, h]

theorem run_of_after (h : after b k s = some s') (n : ℕ) : run b (k + n) s = run b n s' := by
  induction k generalizing s with
  | zero =>
    have hs : s' = s := (Option.some.inj h).symm
    rw [hs, Nat.zero_add]
  | succ k ih =>
    rw [after] at h
    cases hb : b s with
    | none => rw [hb] at h; cases h
    | some t =>
      rw [hb] at h
      cases t with
      | done r => cases h
      | next t => rw [Nat.succ_add, run_next hb, ih h]

theorem run_mono (h : run b n s = some r) (hn : n ≤ k) : run b k s = some r := by
  induction n generalizing s k with
  | zero => cases h
  | succ n ih =>
    obtain ⟨k, rfl⟩ : ∃ j, k = j + 1 := ⟨k - 1, by omega⟩
    rw [run] at h ⊢
    cases hb : b s with
    | none => rw [hb] at h; cases h
    | some t =>
      rw [hb] at h
      cases t with
      | done r' => exact h
      | next s' => exact ih h (by omega)

/-- The turns of a loop, one after another. -/
theorem after_succ (h : after b n s = some s') :
    after b (n + 1) s = match b s' with
      | some (.next t) => some t
      | _ => none := by
  induction n generalizing s with
  | zero =>
    have hs : s' = s := (Option.some.inj h).symm
    rw [hs, after]
    rcases b s with _ | (t | r) <;> rfl
  | succ n ih =>
    rw [after] at h
    cases hb : b s with
    | none => rw [hb] at h; cases h
    | some t =>
      rw [hb] at h
      cases t with
      | done r => cases h
      | next t =>
        rw [after_next hb]
        exact ih h

theorem after_of_succ (h : after b (n + 1) s = some s') : ∃ t, after b n s = some t := by
  induction n generalizing s with
  | zero => exact ⟨s, rfl⟩
  | succ n ih =>
    rw [after] at h ⊢
    cases hb : b s with
    | none => rw [hb] at h; cases h
    | some t =>
      rw [hb] at h
      cases t with
      | done r => cases h
      | next t => exact ih h

theorem after_none_mono (h : after b n s = none) (hn : n ≤ k) : after b k s = none := by
  induction hn with
  | refl => exact h
  | step _ ih =>
    rw [Option.eq_none_iff_forall_ne_some]
    intro t ht
    obtain ⟨t', ht'⟩ := after_of_succ ht
    rw [ih] at ht'
    cases ht'

/-- **A bounded run** ends exactly when one of its turns does. -/
theorem run_isSome_iff :
    (run b n s).isSome ↔ ∃ k < n, ∃ t r, after b k s = some t ∧ b t = some (.done r) := by
  induction n generalizing s with
  | zero => exact ⟨fun h => absurd h (by simp [run]), fun ⟨k, hk, _⟩ => absurd hk (Nat.not_lt_zero k)⟩
  | succ n ih =>
    rw [run]
    cases hb : b s with
    | none =>
      refine ⟨fun h => (Bool.false_ne_true h).elim, ?_⟩
      rintro ⟨k, -, t, r, ha, ht⟩
      cases k with
      | zero => cases ha; rw [hb] at ht; cases ht
      | succ k => rw [after, hb] at ha; cases ha
    | some t =>
      cases t with
      | done r => exact ⟨fun _ => ⟨0, Nat.succ_pos n, s, r, rfl, hb⟩, fun _ => rfl⟩
      | next t =>
        dsimp only
        rw [ih]
        constructor
        · rintro ⟨k, hk, u, r, ha, hu⟩
          exact ⟨k + 1, by omega, u, r, by rw [after_next hb, ha], hu⟩
        · rintro ⟨k, hk, u, r, ha, hu⟩
          cases k with
          | zero => cases ha; rw [hb] at hu; cases hu
          | succ k => exact ⟨k, by omega, u, r, by rwa [after_next hb] at ha, hu⟩

/-- No turn follows the last one. -/
theorem le_of_done {t : σ} (h : after b k s = some t) (hd : b t = some (.done r)) {u : σ} (hu : after b n s = some u) :
    n ≤ k := by
  induction k generalizing s n with
  | zero =>
    have ht : t = s := (Option.some.inj h).symm
    cases n with
    | zero => exact le_rfl
    | succ n =>
      rw [after, ← ht, hd] at hu
      cases hu
  | succ k ih =>
    cases n with
    | zero => exact Nat.zero_le _
    | succ n =>
      rw [after] at h hu
      cases hb : b s with
      | none => rw [hb] at h; cases h
      | some v =>
        rw [hb] at h hu
        cases v with
        | done r => cases h
        | next v => exact Nat.succ_le_succ (ih h hu)

theorem after_invariant {J : σ → Prop} (step : ∀ s t, J s → b s = some (.next t) → J t) (hs : J s)
    (h : after b n s = some s') : J s' := by
  induction n generalizing s with
  | zero => cases h; exact hs
  | succ n ih =>
    rw [after] at h
    cases hb : b s with
    | none => rw [hb] at h; cases h
    | some t =>
      rw [hb] at h
      cases t with
      | done r => cases h
      | next t => exact ih (step s t hs hb) h

/-- A run that ends does so in one of its turns. -/
theorem run_last (h : run b n s = some r) : ∃ k < n, ∃ t, after b k s = some t ∧ b t = some (.done r) := by
  have hsome : (run b n s).isSome := by rw [h]; rfl
  obtain ⟨k, hk, t, r', ha, ht⟩ := run_isSome_iff.1 hsome
  have hk' : run b (k + 1) s = some r' := by rw [run_of_after ha, run_done ht]
  have heq := run_mono hk' (show k + 1 ≤ n from hk)
  rw [h] at heq
  cases heq
  exact ⟨k, hk, t, ha, ht⟩

/-- **Invariants.**  What every turn keeps gives the result its property. -/
theorem run_invariant {J : σ → Prop} {Q : ρ → Prop} (step : ∀ s t, J s → b s = some (.next t) → J t)
    (last : ∀ s r, J s → b s = some (.done r) → Q r) (hs : J s) (h : run b n s = some r) : Q r := by
  obtain ⟨k, -, t, ha, ht⟩ := run_last h
  exact last t r (after_invariant step hs ha) ht

/-- **Ghosts.**  A loop that carries more, and whose turns are the turns of another on what it has of it, runs as it does. -/
theorem run_map {τ υ : Type} {c : τ → Option (Turn τ υ)} (f : τ → σ) (g : υ → ρ)
    (hbody : ∀ t, b (f t) = (c t).map (Turn.map f g)) (n : ℕ) (t : τ) :
    run b n (f t) = (run c n t).map g := by
  induction n generalizing t with
  | zero => rfl
  | succ n ih =>
    rw [run, run, hbody]
    cases c t with
    | none => rfl
    | some u =>
      cases u with
      | next t' => exact ih t'
      | done r => rfl

/-- **Termination.**  A loop whose turns descend ends. -/
theorem ends_of_wf {J : σ → Prop} {lt : σ → σ → Prop} (hwf : WellFounded lt)
    (step : ∀ s, J s → ∃ t, b s = some t ∧ ∀ s', t = .next s' → J s' ∧ lt s' s) (hs : J s) : Ends b s := by
  induction s using hwf.induction with
  | _ s ih =>
    obtain ⟨t, hb, hnext⟩ := step s hs
    cases t with
    | done r => exact ⟨1, by rw [run_done hb]; rfl⟩
    | next s' =>
      obtain ⟨hinv, hlt⟩ := hnext s' rfl
      obtain ⟨n, hn⟩ := ih s' hlt hinv
      exact ⟨n + 1, by rw [run_next hb]; exact hn⟩

/-- **Divergence.**  A loop whose turns always go on does not end. -/
theorem not_ends_of_next {J : σ → Prop} (step : ∀ s, J s → ∃ s', b s = some (.next s') ∧ J s') (hs : J s) (n : ℕ) :
    run b n s = none := by
  induction n generalizing s with
  | zero => rfl
  | succ n ih =>
    obtain ⟨s', hb, hs'⟩ := step s hs
    rw [run_next hb]
    exact ih hs'

theorem after_add (h : after b n s = some s') (k : ℕ) : after b (n + k) s = after b k s' := by
  induction n generalizing s with
  | zero =>
    rw [Nat.zero_add, Option.some.inj h]
  | succ n ih =>
    rw [after] at h
    cases hb : b s with
    | none => rw [hb] at h; cases h
    | some t =>
      rw [hb] at h
      cases t with
      | done r => cases h
      | next t => rw [Nat.succ_add, after_next hb, ih h]

/-- A loop ends where one of its later states does. -/
theorem ends_of_after (h : after b n s = some s') (he : Ends b s) : Ends b s' := by
  obtain ⟨k, hk⟩ := he
  obtain ⟨r, hr⟩ := Option.isSome_iff_exists.1 hk
  refine ⟨k, ?_⟩
  rw [← run_of_after h k, run_mono hr (Nat.le_add_left k n)]
  rfl

/-- A body that does what another does runs as it does. -/
theorem run_of_body {c : σ → Option (Turn σ ρ)} (hbody : ∀ s t, b s = some t → c s = some t)
    (h : run b n s = some r) : run c n s = some r := by
  induction n generalizing s with
  | zero => cases h
  | succ n ih =>
    rw [run] at h
    cases hb : b s with
    | none => rw [hb] at h; cases h
    | some t =>
      rw [hb] at h
      rw [run, hbody s t hb]
      cases t with
      | done r' => exact h
      | next s' => exact ih h

theorem after_of_body {c : σ → Option (Turn σ ρ)} (hbody : ∀ s t, b s = some (.next t) → c s = some (.next t))
    (h : after b n s = some s') : after c n s = some s' := by
  induction n generalizing s with
  | zero => exact h
  | succ n ih =>
    rw [after] at h
    cases hb : b s with
    | none => rw [hb] at h; cases h
    | some t =>
      rw [hb] at h
      cases t with
      | done r => cases h
      | next t =>
        rw [after_next (hbody s t hb)]
        exact ih h

/-- A loop that does not end goes on forever, if its turns end. -/
theorem after_of_not_ends {J : σ → Prop} (hsome : ∀ s, J s → ∃ t, b s = some t)
    (step : ∀ s t, J s → b s = some (.next t) → J t) (hs : J s) (h : ¬ Ends b s) (n : ℕ) :
    ∃ t, after b n s = some t := by
  induction n with
  | zero => exact ⟨s, rfl⟩
  | succ n ih =>
    obtain ⟨t, ht⟩ := ih
    obtain ⟨u, hu⟩ := hsome t (after_invariant step hs ht)
    cases u with
    | next t' => exact ⟨t', by rw [after_succ ht, hu]⟩
    | done r => exact absurd ⟨n + 1, by rw [run_of_after ht, run_done hu]; rfl⟩ h

/-- **Stalling.**  A loop with a bounded count that does not go down ends, or comes to a state from where it goes on forever
and the count stays. -/
theorem ends_or_stalls {J : σ → Prop} {f : σ → ℕ} {max : ℕ} (hsome : ∀ s, J s → ∃ t, b s = some t)
    (hmax : ∀ s, J s → f s ≤ max) (step : ∀ s t, J s → b s = some (.next t) → J t ∧ f s ≤ f t) (hs : J s) :
    Ends b s ∨ ∃ k t, after b k s = some t ∧ J t ∧ ∀ n, ∃ u, after b n t = some u ∧ f u = f t := by
  have hkeep : ∀ s t, J s → b s = some (.next t) → J t := fun s t hs ht => (step s t hs ht).1
  induction hd : max - f s using Nat.strong_induction_on generalizing s with
  | _ d ih =>
    by_cases he : Ends b s
    · exact Or.inl he
    right
    by_cases hup : ∃ n u, after b n s = some u ∧ f s < f u
    · obtain ⟨n, u, hu, hlt⟩ := hup
      have hJ := after_invariant hkeep hs hu
      have := hmax u hJ
      rcases ih (max - f u) (by omega) hJ rfl with h | ⟨k, t, ht, hrest⟩
      · obtain ⟨k, hk⟩ := h
        exact absurd ⟨n + k, by rwa [run_of_after hu]⟩ he
      · exact ⟨n + k, t, by rw [after_add hu, ht], hrest⟩
    · refine ⟨0, s, rfl, hs, fun n => ?_⟩
      obtain ⟨u, hu⟩ := after_of_not_ends hsome hkeep hs he n
      have hle : f s ≤ f u := after_invariant (J := fun u => J u ∧ f s ≤ f u)
        (fun v w hv hw => ⟨hkeep v w hv.1 hw, hv.2.trans (step v w hv.1 hw).2⟩) ⟨hs, le_rfl⟩ hu |>.2
      refine ⟨u, hu, le_antisymm ?_ hle⟩
      by_contra hc
      exact hup ⟨n, u, hu, by omega⟩

end Loop
end Lish
