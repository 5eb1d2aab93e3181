import Mathlib.Data.Finset.Card
import Mathlib.Data.Set.Basic
/-!
# Worklist — what a set of seeds leads to, up to a cap

What is found waits on a stack until its edges have been followed.  Nothing is found twice, and nothing more once the cap
is reached.
-/
namespace Lish

structure Worklist (α : Type) where
  found : Finset α
  /-- The last one is on top. -/
  pending : List α
  done : Finset α

namespace Worklist

variable {α : Type} [DecidableEq α]

def start (seeds : List α) : Worklist α := ⟨seeds.toFinset, seeds.reverse, ∅⟩

variable (admits : α → Prop) [DecidablePred admits] (cap : ℕ)

def add (w : Worklist α) (t : α) : Worklist α :=
  if admits t ∧ w.found.card < cap ∧ t ∉ w.found then { w with found := insert t w.found, pending := t :: w.pending } else w

def addAll (w : Worklist α) (ts : List α) : Worklist α := ts.foldl (add admits cap) w

/-- `w'` has found and stacked what `w` had not, all of it admitted and from `ts`; below the cap nothing is left out. -/
structure Added (ts : List α) (w w' : Worklist α) (new : List α) : Prop where
  done : w'.done = w.done
  pending : w'.pending = new ++ w.pending
  found : w'.found = w.found ∪ new.toFinset
  taken : ∀ t ∈ new, t ∈ ts ∧ admits t
  complete : w'.found.card < cap → ∀ t ∈ ts, admits t → t ∈ w'.found

variable {admits cap}

theorem add_added (w : Worklist α) (t : α) : ∃ new, Added admits cap [t] w (add admits cap w t) new := by
  unfold add
  split
  · rename_i h
    refine ⟨[t], rfl, rfl, ?_, ?_, ?_⟩
    · rw [List.toFinset_cons, List.toFinset_nil, Finset.insert_empty, Finset.union_comm, Finset.insert_eq]
    · intro u hu
      rw [List.mem_singleton.1 hu]
      exact ⟨List.mem_singleton_self t, h.1⟩
    · intro _ u hu _
      rw [List.mem_singleton.1 hu]
      exact Finset.mem_insert_self t _
  · rename_i h
    refine ⟨[], rfl, rfl, ?_, ?_, ?_⟩
    · rw [List.toFinset_nil, Finset.union_empty]
    · intro u hu
      cases hu
    · intro hcap u hu ha
      rw [List.mem_singleton.1 hu] at ha ⊢
      by_contra hn
      exact h ⟨ha, hcap, hn⟩

/-- **Adding a list** adds what is new in it. -/
theorem addAll_added (ts : List α) (w : Worklist α) : ∃ new, Added admits cap ts w (addAll admits cap w ts) new := by
  induction ts generalizing w with
  | nil =>
    refine ⟨[], rfl, rfl, ?_, ?_, ?_⟩
    · rw [List.toFinset_nil, Finset.union_empty]
      rfl
    · intro u hu
      cases hu
    · intro _ u hu
      cases hu
  | cons t ts ih =>
    obtain ⟨new, hn⟩ := @add_added _ _ admits _ cap w t
    obtain ⟨more, hm⟩ := ih (add admits cap w t)
    have hgrow : (add admits cap w t).found ⊆ (addAll admits cap (add admits cap w t) ts).found := by
      rw [hm.found]
      exact Finset.subset_union_left
    refine ⟨more ++ new, hm.done.trans hn.done, ?_, ?_, ?_, ?_⟩
    · exact (hm.pending.trans (congrArg (more ++ ·) hn.pending)).trans (List.append_assoc _ _ _).symm
    · refine hm.found.trans ?_
      rw [hn.found, List.toFinset_append, Finset.union_assoc, Finset.union_comm more.toFinset]
    · intro u hu
      rcases List.mem_append.1 hu with hu | hu
      · exact ⟨List.mem_cons_of_mem t (hm.taken u hu).1, (hm.taken u hu).2⟩
      · rw [List.mem_singleton.1 (hn.taken u hu).1]
        exact ⟨List.mem_cons_self, List.mem_singleton.1 (hn.taken u hu).1 ▸ (hn.taken u hu).2⟩
    · intro hcap u hu ha
      rcases List.mem_cons.1 hu with rfl | hu
      · exact hgrow (hn.complete (lt_of_le_of_lt (Finset.card_le_card hgrow) hcap) u (List.mem_singleton_self u) ha)
      · exact hm.complete hcap u hu ha

/-! ## The closure of the seeds -/

variable (admits cap)

/-- **A worklist on its way to the closure of its seeds**: what has been found is done or waits; what is done leads to
nothing else below the cap; and every closed set with the seeds holds what has been found. -/
structure Closing (edges : α → List α) (seeds : List α) (w : Worklist α) : Prop where
  seeded : ∀ x ∈ seeds, x ∈ w.found
  waits : ∀ x ∈ w.found, x ∈ w.done ∨ x ∈ w.pending
  done : ∀ x ∈ w.done, x ∈ w.found
  pending : ∀ x ∈ w.pending, x ∈ w.found
  closed : w.found.card < cap → ∀ x ∈ w.done, ∀ t ∈ edges x, admits t → t ∈ w.found
  least : ∀ s : Set α, (∀ x ∈ seeds, x ∈ s) → (∀ x ∈ s, ∀ t ∈ edges x, admits t → t ∈ s) → ∀ x ∈ w.found, x ∈ s

variable {admits cap} {edges : α → List α} {seeds : List α} {w : Worklist α} {x : α} {rest : List α}

omit [DecidablePred admits] in
theorem Closing.start (seeds : List α) : Closing admits cap edges seeds (Worklist.start seeds) where
  seeded _ hx := List.mem_toFinset.2 hx
  waits _ hx := Or.inr (List.mem_reverse.2 (List.mem_toFinset.1 hx))
  done x hx := absurd hx (Finset.notMem_empty x)
  pending _ hx := List.mem_toFinset.2 (List.mem_reverse.1 hx)
  closed _ x hx := absurd hx (Finset.notMem_empty x)
  least _ hs _ x hx := hs x (List.mem_toFinset.1 hx)

omit [DecidableEq α] [DecidablePred admits] in
/-- What is done already is dropped. -/
theorem Closing.skip (h : Closing admits cap edges seeds w) (hp : w.pending = x :: rest) (hx : x ∈ w.done) :
    Closing admits cap edges seeds { w with pending := rest } where
  seeded := h.seeded
  waits y hy := by
    rcases h.waits y hy with hy | hy
    · exact Or.inl hy
    · rw [hp] at hy
      rcases List.mem_cons.1 hy with rfl | hy
      · exact Or.inl hx
      · exact Or.inr hy
  done := h.done
  pending y hy := h.pending y (hp ▸ List.mem_cons_of_mem x hy)
  closed := h.closed
  least := h.least

/-- The edges of the one on top are followed. -/
theorem Closing.visit (h : Closing admits cap edges seeds w) (hp : w.pending = x :: rest) :
    Closing admits cap edges seeds (addAll admits cap { w with pending := rest, done := insert x w.done } (edges x)) := by
  obtain ⟨new, hn⟩ := @addAll_added _ _ admits _ cap (edges x) { w with pending := rest, done := insert x w.done }
  have hfound : ∀ y, y ∈ (addAll admits cap { w with pending := rest, done := insert x w.done } (edges x)).found ↔
      y ∈ w.found ∨ y ∈ new := fun y => by
    rw [hn.found, Finset.mem_union, List.mem_toFinset]
  have hx : x ∈ w.found := h.pending x (hp ▸ List.mem_cons_self)
  constructor
  · exact fun y hy => (hfound y).2 (Or.inl (h.seeded y hy))
  · intro y hy
    rw [hn.done, hn.pending]
    rcases (hfound y).1 hy with hy | hy
    · rcases h.waits y hy with hy | hy
      · exact Or.inl (Finset.mem_insert_of_mem hy)
      · rw [hp] at hy
        rcases List.mem_cons.1 hy with rfl | hy
        · exact Or.inl (Finset.mem_insert_self y _)
        · exact Or.inr (List.mem_append_right new hy)
    · exact Or.inr (List.mem_append_left rest hy)
  · intro y hy
    rw [hn.done] at hy
    rcases Finset.mem_insert.1 hy with rfl | hy
    · exact (hfound y).2 (Or.inl hx)
    · exact (hfound y).2 (Or.inl (h.done y hy))
  · intro y hy
    rw [hn.pending] at hy
    rcases List.mem_append.1 hy with hy | hy
    · exact (hfound y).2 (Or.inr hy)
    · exact (hfound y).2 (Or.inl (h.pending y (hp ▸ List.mem_cons_of_mem x hy)))
  · intro hcap y hy t ht ha
    rw [hn.done] at hy
    rcases Finset.mem_insert.1 hy with rfl | hy
    · exact hn.complete hcap t ht ha
    · refine (hfound t).2 (Or.inl (h.closed ?_ y hy t ht ha))
      refine lt_of_le_of_lt (Finset.card_le_card fun z hz => ?_) hcap
      exact (hfound z).2 (Or.inl hz)
  · intro s hs hclosed y hy
    rcases (hfound y).1 hy with hy | hy
    · exact h.least s hs hclosed y hy
    · exact hclosed x (h.least s hs hclosed x hx) y (hn.taken y hy).1 (hn.taken y hy).2

omit [DecidableEq α] [DecidablePred admits] in
/-- Nothing waits in the end. -/
theorem Closing.finished (h : Closing admits cap edges seeds w) (hp : w.pending = []) {y : α} : y ∈ w.found ↔ y ∈ w.done := by
  refine ⟨fun hy => (h.waits y hy).resolve_right fun hn => ?_, h.done y⟩
  rw [hp] at hn
  cases hn

omit [DecidableEq α] [DecidablePred admits] in
/-- What is found is a seed or admitted. -/
theorem Closing.within (h : Closing admits cap edges seeds w) {y : α} (hy : y ∈ w.found) : y ∈ seeds ∨ admits y :=
  h.least { y | y ∈ seeds ∨ admits y } (fun _ hz => Or.inl hz) (fun _ _ _ _ ha => Or.inr ha) y hy

omit [DecidableEq α] [DecidablePred admits] in
/-- **Below the cap the order of the seeds does not matter.** -/
theorem Closing.found_eq {seeds' : List α} {w' : Worklist α} (h : Closing admits cap edges seeds w)
    (h' : Closing admits cap edges seeds' w') (hp : w.pending = []) (hp' : w'.pending = []) (hs : ∀ x, x ∈ seeds' ↔ x ∈ seeds)
    (hcap : w.found.card < cap) : w'.found = w.found := by
  have hle : w'.found ⊆ w.found := fun y hy =>
    h'.least { y | y ∈ w.found } (fun z hz => h.seeded z ((hs z).1 hz))
      (fun z hz t ht ha => h.closed hcap z ((h.finished hp).1 hz) t ht ha) y hy
  have hcap' : w'.found.card < cap := lt_of_le_of_lt (Finset.card_le_card hle) hcap
  refine Finset.Subset.antisymm hle fun y hy => ?_
  exact h.least { y | y ∈ w'.found } (fun z hz => h'.seeded z ((hs z).2 hz))
    (fun z hz t ht ha => h'.closed hcap' z ((h'.finished hp').1 hz) t ht ha) y hy

end Worklist

end Lish
