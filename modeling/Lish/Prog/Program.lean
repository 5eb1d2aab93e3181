/-!
# Program — computations over atomic operations

A program issues atomic operations, each answered or refused by a handler over some state, and stops at the first refusal.
What every operation keeps, every program keeps (`run_invariant`); a program that issues its lasting operations last leaves
a view of the state alone when it fails (`Late.run_error`); two states that answer alike stay related (`run_related`).
-/
namespace Lish

/-- Atomic operations and the type of each answer. -/
structure Interface where
  Op : Type
  Ans : Op → Type

/-- A computation over the operations of `I`, failing with `ε`. -/
inductive Program (I : Interface) (ε α : Type) : Type
  | pure (a : α)
  | throw (e : ε)
  | op (o : I.Op) (k : I.Ans o → Program I ε α)

/-- The meaning of the operations over states `σ`; a refused operation may still have changed the state. -/
def Handler (I : Interface) (ε σ : Type) : Type := (o : I.Op) → σ → Except ε (I.Ans o) × σ

namespace Program

variable {I : Interface} {ε α γ σ : Type}

def bind : Program I ε α → (α → Program I ε γ) → Program I ε γ
  | .pure a, f => f a
  | .throw e, _ => .throw e
  | .op o k, f => .op o (fun r => (k r).bind f)

instance : Monad (Program I ε) where
  pure := Program.pure
  bind := Program.bind

/-- Issue one operation. -/
def perform (o : I.Op) : Program I ε (I.Ans o) := .op o .pure

def run (h : Handler I ε σ) : Program I ε α → σ → Except ε α × σ
  | .pure a, s => (.ok a, s)
  | .throw e, s => (.error e, s)
  | .op o k, s =>
    match h o s with
    | (.ok r, s') => (k r).run h s'
    | (.error e, s') => (.error e, s')

/-- Every operation issued from `s` meets `P` in the state it is issued in. -/
def Guarded (h : Handler I ε σ) (P : σ → I.Op → Prop) : Program I ε α → σ → Prop
  | .pure _, _ => True
  | .throw _, _ => True
  | .op o k, s => P s o ∧
    match h o s with
    | (.ok r, s') => (k r).Guarded h P s'
    | (.error _, _) => True

@[simp] theorem bind_eq (p : Program I ε α) (f : α → Program I ε γ) : p >>= f = p.bind f := rfl

@[simp] theorem pure_eq (a : α) : (Pure.pure a : Program I ε α) = .pure a := rfl

@[simp] theorem pure_bind (a : α) (f : α → Program I ε γ) : (Program.pure a : Program I ε α).bind f = f a := rfl

@[simp] theorem throw_bind (e : ε) (f : α → Program I ε γ) : (Program.throw e : Program I ε α).bind f = .throw e := rfl

@[simp] theorem op_bind (o : I.Op) (k : I.Ans o → Program I ε α) (f : α → Program I ε γ) :
    (Program.op o k).bind f = .op o (fun r => (k r).bind f) := rfl

@[simp] theorem run_pure (h : Handler I ε σ) (a : α) (s : σ) : (Program.pure a : Program I ε α).run h s = (.ok a, s) := rfl

@[simp] theorem run_throw (h : Handler I ε σ) (e : ε) (s : σ) :
    (Program.throw e : Program I ε α).run h s = (.error e, s) := rfl

theorem run_op (h : Handler I ε σ) (o : I.Op) (k : I.Ans o → Program I ε α) (s : σ) :
    (Program.op o k).run h s = match h o s with
      | (.ok r, s') => (k r).run h s'
      | (.error e, s') => (.error e, s') := by rw [run]

theorem run_op_ok {h : Handler I ε σ} {o : I.Op} {s s' : σ} {r : I.Ans o} (he : h o s = (.ok r, s'))
    (k : I.Ans o → Program I ε α) : (Program.op o k).run h s = (k r).run h s' := by rw [run_op, he]

theorem run_op_error {h : Handler I ε σ} {o : I.Op} {s s' : σ} {e : ε} (he : h o s = (.error e, s'))
    (k : I.Ans o → Program I ε α) : (Program.op o k).run h s = (.error e, s') := by rw [run_op, he]

theorem run_bind (h : Handler I ε σ) (p : Program I ε α) (f : α → Program I ε γ) (s : σ) :
    (p.bind f).run h s = match p.run h s with
      | (.ok a, s') => (f a).run h s'
      | (.error e, s') => (.error e, s') := by
  induction p generalizing s with
  | pure a => rfl
  | throw e => rfl
  | op o k ih =>
    simp only [op_bind, run_op]
    cases h o s with
    | mk r s' =>
      cases r with
      | ok r => exact ih r s'
      | error e => rfl

theorem bind_assoc {δ : Type} (p : Program I ε α) (f : α → Program I ε γ) (g : γ → Program I ε δ) :
    (p.bind f).bind g = p.bind fun a => (f a).bind g := by
  induction p with
  | pure a => rfl
  | throw e => rfl
  | op o k ih => exact congrArg (Program.op o) (funext ih)

theorem bind_pure (p : Program I ε α) : p.bind .pure = p := by
  induction p with
  | pure a => rfl
  | throw e => rfl
  | op o k ih => exact congrArg (Program.op o) (funext ih)

theorem guarded_op (h : Handler I ε σ) (P : σ → I.Op → Prop) (o : I.Op) (k : I.Ans o → Program I ε α) (s : σ) :
    (Program.op o k).Guarded h P s ↔ P s o ∧ match h o s with
      | (.ok r, s') => (k r).Guarded h P s'
      | (.error _, _) => True := by rw [Guarded]

/-! ## Invariants -/

/-- **Invariants.**  What every guarded operation keeps, a guarded program keeps. -/
theorem run_invariant {h : Handler I ε σ} {P : σ → I.Op → Prop} {J : σ → Prop}
    (step : ∀ s o, J s → P s o → J (h o s).2) (p : Program I ε α) {s : σ} (hs : J s) (hg : p.Guarded h P s) :
    J (p.run h s).2 := by
  induction p generalizing s with
  | pure a => exact hs
  | throw e => exact hs
  | op o k ih =>
    rw [guarded_op] at hg
    have h1 := step s o hs hg.1
    have h2 := hg.2
    rw [run_op]
    cases hr : h o s with
    | mk r s' =>
      rw [hr] at h1 h2
      cases r with
      | ok r => exact ih r h1 h2
      | error e => exact h1

theorem guarded_true (h : Handler I ε σ) (p : Program I ε α) (s : σ) : p.Guarded h (fun _ _ => True) s := by
  induction p generalizing s with
  | pure a => exact trivial
  | throw e => exact trivial
  | op o k ih =>
    rw [guarded_op]
    refine ⟨trivial, ?_⟩
    rcases h o s with ⟨_ | r, s'⟩
    · exact trivial
    · exact ih r s'

theorem guarded_bind (h : Handler I ε σ) (P : σ → I.Op → Prop) (p : Program I ε α) (f : α → Program I ε γ) (s : σ) :
    (p.bind f).Guarded h P s ↔ p.Guarded h P s ∧
      match p.run h s with
      | (.ok a, s') => (f a).Guarded h P s'
      | (.error _, _) => True := by
  induction p generalizing s with
  | pure a => simp [Guarded]
  | throw e => simp [Guarded]
  | op o k ih =>
    rw [op_bind, guarded_op, guarded_op, run_op]
    cases h o s with
    | mk r s' =>
      cases r with
      | ok r => simp only [ih r s', and_assoc]
      | error e => simp

/-! ## Failure before any lasting operation -/

/-- No operation of the program is refused, and it never throws. -/
inductive Total (total : I.Op → Prop) : Program I ε α → Prop
  | pure (a : α) : Total total (.pure a)
  | op {o : I.Op} {k : I.Ans o → Program I ε α} (ho : total o) (hk : ∀ r, Total total (k r)) : Total total (.op o k)

/-- Operations outside `quiet` are issued only once nothing can fail any more; the last that can is `clean`. -/
inductive Late (quiet clean total : I.Op → Prop) : Program I ε α → Prop
  | pure (a : α) : Late quiet clean total (.pure a)
  | throw (e : ε) : Late quiet clean total (.throw e)
  | quiet {o : I.Op} {k : I.Ans o → Program I ε α} (ho : quiet o) (hk : ∀ r, Late quiet clean total (k r)) :
      Late quiet clean total (.op o k)
  | clean {o : I.Op} {k : I.Ans o → Program I ε α} (ho : clean o) (hk : ∀ r, Total total (k r)) :
      Late quiet clean total (.op o k)
  | last {p : Program I ε α} (h : Total total p) : Late quiet clean total p

theorem Total.run_ok {h : Handler I ε σ} {total : I.Op → Prop} (htot : ∀ o s, total o → ∃ r, (h o s).1 = .ok r)
    {p : Program I ε α} (hp : Total total p) (s : σ) : ∃ a, (p.run h s).1 = .ok a := by
  induction hp generalizing s with
  | pure a => exact ⟨a, rfl⟩
  | @op o k ho hk ih =>
    obtain ⟨r, hr⟩ := htot o s ho
    rw [run_op_ok (show h o s = (.ok r, (h o s).2) from Prod.ext hr rfl)]
    exact ih r _

/-- The errors of a program that throws none are those of its operations. -/
theorem Total.run_raises {h : Handler I ε σ} {total : I.Op → Prop} {E : ε → Prop}
    (hE : ∀ o s e, total o → (h o s).1 = .error e → E e) {p : Program I ε α} (hp : Total total p) {s : σ} {e : ε}
    (he : (p.run h s).1 = .error e) : E e := by
  induction hp generalizing s with
  | pure a => cases he
  | @op o k ho _ ih =>
    rw [run_op] at he
    rcases hr : h o s with ⟨e' | r, s'⟩
    · rw [hr] at he
      obtain rfl := Except.error.inj he
      exact hE o s e' ho (by rw [hr])
    · rw [hr] at he
      exact ih r he

/-- **Failure is clean.**  A failed late program leaves the view of the state that quiet operations keep. -/
theorem Late.run_error {ν : Type} {h : Handler I ε σ} {quiet clean total : I.Op → Prop} {g : σ → ν}
    (hquiet : ∀ o s, quiet o → g (h o s).2 = g s)
    (hclean : ∀ o s e, clean o → (h o s).1 = .error e → g (h o s).2 = g s)
    (htot : ∀ o s, total o → ∃ r, (h o s).1 = .ok r)
    {p : Program I ε α} (hp : Late quiet clean total p) {s : σ} {e : ε} (he : (p.run h s).1 = .error e) :
    g (p.run h s).2 = g s := by
  induction hp generalizing s with
  | pure a => rfl
  | throw e => rfl
  | @quiet o k ho _ ih =>
    have hv := hquiet o s ho
    rw [run_op] at he ⊢
    cases hr : h o s with
    | mk r s' =>
      rw [hr] at hv he
      cases r with
      | ok r => rw [← hv]; exact ih r he
      | error e => exact hv
  | @clean o k ho hk =>
    have hv := hclean o s
    rw [run_op] at he ⊢
    cases hr : h o s with
    | mk r s' =>
      rw [hr] at hv he
      cases r with
      | ok r =>
        obtain ⟨a, ha⟩ := (hk r).run_ok htot s'
        rw [ha] at he
        cases he
      | error e' => exact hv e' ho rfl
  | last ht =>
    obtain ⟨a, ha⟩ := ht.run_ok htot s
    rw [ha] at he
    cases he

theorem Total.bind {total : I.Op → Prop} {p : Program I ε α} {f : α → Program I ε γ} (hp : Total total p)
    (hf : ∀ a, Total total (f a)) : Total total (p.bind f) := by
  induction hp with
  | pure a => exact hf a
  | op ho _ ih => exact .op ho ih

/-- Every operation the program can issue meets `quiet`. -/
inductive Only (quiet : I.Op → Prop) : Program I ε α → Prop
  | pure (a : α) : Only quiet (.pure a)
  | throw (e : ε) : Only quiet (.throw e)
  | op {o : I.Op} {k : I.Ans o → Program I ε α} (ho : quiet o) (hk : ∀ r, Only quiet (k r)) : Only quiet (.op o k)

theorem Only.bind {quiet : I.Op → Prop} {p : Program I ε α} {f : α → Program I ε γ} (hp : Only quiet p)
    (hf : ∀ a, Only quiet (f a)) : Only quiet (p.bind f) := by
  induction hp with
  | pure a => exact hf a
  | throw e => exact .throw e
  | op ho _ ih => exact .op ho ih

theorem Only.late {quiet clean total : I.Op → Prop} {p : Program I ε α} (hp : Only quiet p) : Late quiet clean total p := by
  induction hp with
  | pure a => exact .pure a
  | throw e => exact .throw e
  | op ho _ ih => exact .quiet ho ih

theorem Only.bind_late {quiet clean total : I.Op → Prop} {p : Program I ε α} {f : α → Program I ε γ} (hp : Only quiet p)
    (hf : ∀ a, Late quiet clean total (f a)) : Late quiet clean total (p.bind f) := by
  induction hp with
  | pure a => exact hf a
  | throw e => exact .throw e
  | op ho _ ih => exact .quiet ho ih

theorem Late.bind_total {quiet clean total : I.Op → Prop} {p : Program I ε α} {f : α → Program I ε γ}
    (hp : Late quiet clean total p) (hf : ∀ a, Total total (f a)) : Late quiet clean total (p.bind f) := by
  induction hp with
  | pure a => exact .last (hf a)
  | throw e => exact .throw e
  | quiet ho _ ih => exact .quiet ho ih
  | clean ho hk => exact .clean ho fun r => (hk r).bind hf
  | last h => exact .last (h.bind hf)

theorem Only.guarded {h : Handler I ε σ} {P : σ → I.Op → Prop} {quiet : I.Op → Prop} (hP : ∀ s o, quiet o → P s o)
    {p : Program I ε α} (hp : Only quiet p) (s : σ) : p.Guarded h P s := by
  induction hp generalizing s with
  | pure a => exact trivial
  | throw e => exact trivial
  | @op o k ho _ ih =>
    rw [guarded_op]
    refine ⟨hP s o ho, ?_⟩
    rcases h o s with ⟨_ | r, s'⟩
    · exact trivial
    · exact ih r s'

/-! ## Shape: which operations, which results -/

/-- Every operation the program can issue meets `P`, and every result `Q`. -/
inductive Shape (P : I.Op → Prop) (Q : α → Prop) : Program I ε α → Prop
  | pure {a : α} (h : Q a) : Shape P Q (.pure a)
  | throw (e : ε) : Shape P Q (.throw e)
  | op {o : I.Op} {k : I.Ans o → Program I ε α} (ho : P o) (hk : ∀ r, Shape P Q (k r)) : Shape P Q (.op o k)

theorem Shape.bind {P : I.Op → Prop} {Q : α → Prop} {R : γ → Prop} {p : Program I ε α} {f : α → Program I ε γ}
    (hp : Shape P Q p) (hf : ∀ a, Q a → Shape P R (f a)) : Shape P R (p.bind f) := by
  induction hp with
  | pure h => exact hf _ h
  | throw e => exact .throw e
  | op ho _ ih => exact .op ho ih

theorem Shape.mono {P P' : I.Op → Prop} {Q Q' : α → Prop} (hP : ∀ o, P o → P' o) (hQ : ∀ a, Q a → Q' a)
    {p : Program I ε α} (hp : Shape P Q p) : Shape P' Q' p := by
  induction hp with
  | pure h => exact .pure (hQ _ h)
  | throw e => exact .throw e
  | op ho _ ih => exact .op (hP _ ho) ih

theorem Shape.only {P : I.Op → Prop} {Q : α → Prop} {p : Program I ε α} (hp : Shape P Q p) : Only P p := by
  induction hp with
  | pure h => exact .pure _
  | throw e => exact .throw e
  | op ho _ ih => exact .op ho ih

/-- The result of a run is one of the program's. -/
theorem Shape.run_ok {P : I.Op → Prop} {Q : α → Prop} {p : Program I ε α} (hp : Shape P Q p) {h : Handler I ε σ} {s s' : σ}
    {a : α} (hr : p.run h s = (.ok a, s')) : Q a := by
  induction hp generalizing s with
  | pure hq => cases hr; exact hq
  | throw e => cases hr
  | @op o k ho _ ih =>
    rw [run_op] at hr
    rcases ho' : h o s with ⟨_ | r, s₁⟩
    · rw [ho'] at hr
      cases hr
    · rw [ho'] at hr
      exact ih r hr

/-- **What the operations of a program keep**, it keeps. -/
theorem Shape.run_keeps {P : I.Op → Prop} {Q : α → Prop} {p : Program I ε α} (hp : Shape P Q p) {h : Handler I ε σ}
    {ν : Type} {g : σ → ν} (hview : ∀ o s, P o → g (h o s).2 = g s) (s : σ) : g (p.run h s).2 = g s :=
  run_invariant (J := fun t => g t = g s) (fun t o ht ho => (hview o t ho).trans ht) p rfl
    (hp.only.guarded (fun _ _ h => h) s)

/-! ## Related states -/

/-- **Simulation.**  Over related states that answer every guarded operation alike, runs agree and stay related. -/
theorem run_related {τ : Type} {h : Handler I ε σ} {g : Handler I ε τ} {R : σ → τ → Prop} {P : I.Op → Prop}
    (step : ∀ o s t, P o → R s t → (h o s).1 = (g o t).1 ∧ R (h o s).2 (g o t).2) {p : Program I ε α}
    (hp : Only P p) {s : σ} {t : τ} (hR : R s t) :
    (p.run h s).1 = (p.run g t).1 ∧ R (p.run h s).2 (p.run g t).2 := by
  induction hp generalizing s t with
  | pure a => exact ⟨rfl, hR⟩
  | throw e => exact ⟨rfl, hR⟩
  | @op o k ho _ ih =>
    obtain ⟨h1, h2⟩ := step o s t ho hR
    rw [run_op, run_op]
    cases hs : h o s with
    | mk r s' =>
      cases ht : g o t with
      | mk r' t' =>
        rw [hs, ht] at h1 h2
        dsimp only at h1 h2
        subst h1
        cases r with
        | ok r => exact ih r h2
        | error e => exact ⟨rfl, h2⟩

end Program
end Lish
