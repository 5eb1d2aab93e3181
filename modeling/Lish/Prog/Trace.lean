import Lish.Prog.Program
/-!
# Trace — the operations a program issues

The operations of a run, in order.  A register that each operation keeps or sets is found from the trace alone: it holds what
the last operation that set it put there.
-/
namespace Lish
namespace Program

variable {I : Interface} {ε α γ σ ν : Type}

def trace (h : Handler I ε σ) : Program I ε α → σ → List I.Op
  | .pure _, _ => []
  | .throw _, _ => []
  | .op o k, s => o :: match h o s with
    | (.ok r, s') => (k r).trace h s'
    | (.error _, _) => []

theorem trace_op (h : Handler I ε σ) (o : I.Op) (k : I.Ans o → Program I ε α) (s : σ) :
    (Program.op o k).trace h s = o :: match h o s with
      | (.ok r, s') => (k r).trace h s'
      | (.error _, _) => [] := by rw [trace]

theorem trace_bind (h : Handler I ε σ) (p : Program I ε α) (f : α → Program I ε γ) (s : σ) :
    (p.bind f).trace h s = p.trace h s ++ match p.run h s with
      | (.ok a, s') => (f a).trace h s'
      | (.error _, _) => [] := by
  induction p generalizing s with
  | pure a => rfl
  | throw e => rfl
  | op o k ih =>
    rw [op_bind, trace_op, trace_op, run_op]
    rcases h o s with ⟨e | r, s'⟩
    · rfl
    · exact congrArg (List.cons o) (ih r s')

/-- A bind that gets past its first half. -/
theorem trace_bind_ok {h : Handler I ε σ} {p : Program I ε α} {s s' : σ} {a : α} (hr : p.run h s = (.ok a, s'))
    (f : α → Program I ε γ) : (p.bind f).trace h s = p.trace h s ++ (f a).trace h s' := by rw [trace_bind, hr]

theorem trace_bind_error {h : Handler I ε σ} {p : Program I ε α} {s s' : σ} {e : ε} (hr : p.run h s = (.error e, s'))
    (f : α → Program I ε γ) : (p.bind f).trace h s = p.trace h s := by rw [trace_bind, hr, List.append_nil]

/-- Only operations of the program are issued. -/
theorem Shape.trace {P : I.Op → Prop} {Q : α → Prop} {p : Program I ε α} (hp : Shape P Q p) {h : Handler I ε σ} {s : σ} {o : I.Op}
    (ho : o ∈ p.trace h s) : P o := by
  induction hp generalizing s with
  | pure _ => cases ho
  | throw _ => cases ho
  | @op o' k ho' _ ih =>
    rw [trace_op] at ho
    rcases List.mem_cons.1 ho with rfl | hm
    · exact ho'
    · revert hm
      rcases h o' s with ⟨e | r, s'⟩
      · exact fun hm => (nomatch hm)
      · exact ih r

/-! ## Registers -/

/-- The value of a register that operations keep, or set. -/
def lastSet (set : I.Op → Option ν) (ops : List I.Op) (v : ν) : ν := ops.foldl (fun v o => (set o).getD v) v

theorem lastSet_append (set : I.Op → Option ν) (ops ops' : List I.Op) (v : ν) :
    lastSet set (ops ++ ops') v = lastSet set ops' (lastSet set ops v) := List.foldl_append

theorem lastSet_kept {set : I.Op → Option ν} {ops : List I.Op} (h : ∀ o ∈ ops, set o = none) (v : ν) : lastSet set ops v = v := by
  induction ops generalizing v with
  | nil => rfl
  | cons o ops ih =>
    change lastSet set ops ((set o).getD v) = v
    rw [h o List.mem_cons_self]
    exact ih (fun o' ho => h o' (List.mem_cons_of_mem _ ho)) v

/-- **A register is found from the trace.** -/
theorem run_lastSet {h : Handler I ε σ} {g : σ → ν} {set : I.Op → Option ν} (hop : ∀ o s, g (h o s).2 = (set o).getD (g s))
    (p : Program I ε α) (s : σ) : g (p.run h s).2 = lastSet set (p.trace h s) (g s) := by
  induction p generalizing s with
  | pure a => rfl
  | throw e => rfl
  | op o k ih =>
    have h1 := hop o s
    rw [trace_op, run_op]
    revert h1
    rcases h o s with ⟨e | r, s'⟩
    · exact fun h1 => h1
    · intro h1
      dsimp only at h1 ⊢
      rw [ih r s', h1]
      rfl

/-- What a register holds was there before and kept, or was set and then kept. -/
theorem lastSet_cases {set : I.Op → Option ν} {ops : List I.Op} {v w : ν} (h : lastSet set ops v = w) :
    (v = w ∧ ∀ o ∈ ops, set o = none) ∨
      ∃ pre o post, ops = pre ++ o :: post ∧ set o = some w ∧ ∀ o' ∈ post, set o' = none := by
  induction ops generalizing v with
  | nil => exact .inl ⟨h, fun o ho => (nomatch ho)⟩
  | cons o ops ih =>
    rcases ih (v := (set o).getD v) h with ⟨hv, hnone⟩ | ⟨pre, o', post, rfl, hset, hpost⟩
    · cases ho : set o with
      | none =>
        rw [ho] at hv
        refine .inl ⟨hv, fun o' ho' => ?_⟩
        rcases List.mem_cons.1 ho' with rfl | hm
        · exact ho
        · exact hnone o' hm
      | some w' =>
        rw [ho] at hv
        exact .inr ⟨[], o, ops, rfl, ho.trans (congrArg some hv), hnone⟩
    · exact .inr ⟨o :: pre, o', post, rfl, hset, hpost⟩

end Program
end Lish
