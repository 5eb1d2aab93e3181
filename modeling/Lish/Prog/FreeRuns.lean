import Mathlib.Algebra.GroupWithZero.Nat
import Mathlib.Data.List.Basic
import Mathlib.Data.List.TakeWhile
import Mathlib.Order.Nat
/-!
# FreeRuns — sorted runs of free places

First fit from a list of runs, and giving a run back to it.  The runs stay sorted, disjoint and as long as they can be.
-/
namespace Lish

/-- A run of consecutive places. -/
structure Span where
  start : ℕ
  len : ℕ
  deriving DecidableEq, Repr

namespace Span

/-- How often a place lies in a run: once or not at all. -/
def inside (r : Span) (x : ℕ) : ℕ := if r.start ≤ x ∧ x < r.start + r.len then 1 else 0

theorem inside_le (r : Span) (x : ℕ) : r.inside x ≤ 1 := by
  unfold inside
  split_ifs <;> omega

theorem inside_pos {r : Span} {x : ℕ} : 0 < r.inside x ↔ r.start ≤ x ∧ x < r.start + r.len := by
  unfold inside
  split_ifs with h
  · exact ⟨fun _ => h, fun _ => Nat.one_pos⟩
  · exact ⟨fun hc => absurd hc (Nat.lt_irrefl 0), fun hc => absurd hc h⟩

/-- Two runs end to end are one. -/
theorem inside_join (s n k x : ℕ) : inside ⟨s, n + k⟩ x = inside ⟨s, n⟩ x + inside ⟨s + n, k⟩ x := by
  unfold inside
  dsimp only
  split_ifs <;> omega

end Span

namespace FreeRuns

open Lish.Span

/-- How often a place is free. -/
def count (free : List Span) (x : ℕ) : ℕ := (free.map (·.inside x)).sum

/-- Sorted, disjoint and maximal: no run is empty, and no run ends where another begins. -/
def Canonical (free : List Span) : Prop := free.Pairwise (fun a b => a.start + a.len < b.start) ∧ ∀ r ∈ free, 0 < r.len

/-- First fit: the place of a run of `n`, and what stays free. -/
def take (n : ℕ) : List Span → Option (ℕ × List Span)
  | [] => none
  | r :: rs =>
    if n ≤ r.len then some (r.start, if r.len - n = 0 then rs else ⟨r.start + n, r.len - n⟩ :: rs)
    else (take n rs).map fun (b, rs) => (b, r :: rs)

def joinPrev (before : List Span) (cur : Span) : List Span × Span :=
  match before.getLast? with
  | some p => if p.start + p.len = cur.start then (before.dropLast, ⟨p.start, p.len + cur.len⟩) else (before, cur)
  | none => (before, cur)

def joinNext (cur : Span) : List Span → List Span
  | [] => [cur]
  | r :: rs => if cur.start + cur.len = r.start then ⟨cur.start, cur.len + r.len⟩ :: rs else cur :: r :: rs

/-- Gives a run back: it goes before the first run that starts after it, and joins its neighbours. -/
def give (free : List Span) (start len : ℕ) : List Span :=
  if len = 0 then free
  else
    let (before, cur) := joinPrev (free.takeWhile fun r => !decide (r.start > start)) ⟨start, len⟩
    before ++ joinNext cur (free.dropWhile fun r => !decide (r.start > start))

theorem count_nil (x : ℕ) : count [] x = 0 := rfl

theorem count_cons (r : Span) (rs : List Span) (x : ℕ) : count (r :: rs) x = r.inside x + count rs x := by
  unfold count
  rw [List.map_cons, List.sum_cons]

theorem count_append (a b : List Span) (x : ℕ) : count (a ++ b) x = count a x + count b x := by
  unfold count
  rw [List.map_append, List.sum_append]

theorem le_count {free : List Span} {r : Span} (h : r ∈ free) (x : ℕ) : r.inside x ≤ count free x := by
  induction free with
  | nil => cases h
  | cons q qs ih =>
    rw [count_cons]
    rcases List.mem_cons.1 h with rfl | hm
    · exact Nat.le_add_right _ _
    · exact (ih hm).trans (Nat.le_add_left _ _)

/-! ## First fit -/

theorem take_none {n : ℕ} {free : List Span} : take n free = none ↔ ∀ r ∈ free, r.len < n := by
  induction free with
  | nil => exact ⟨fun _ r hr => (nomatch hr), fun _ => rfl⟩
  | cons r rs ih =>
    rw [take]
    split_ifs with h
    · exact ⟨fun hc => (nomatch hc), fun hc => absurd (hc r List.mem_cons_self) (by omega)⟩
    · rw [Option.map_eq_none_iff, ih, List.forall_mem_cons]
      exact ⟨fun hr => ⟨by omega, hr⟩, fun hr => hr.2⟩

theorem Canonical.tail {r : Span} {rs : List Span} (h : Canonical (r :: rs)) : Canonical rs :=
  ⟨(List.pairwise_cons.1 h.1).2, fun q hq => h.2 q (List.mem_cons_of_mem r hq)⟩

/-- **First fit** takes free places. -/
theorem take_spec {n b : ℕ} {free free' : List Span} (hc : Canonical free) (h : take n free = some (b, free')) :
    Canonical free' ∧ (∀ x, count free x = count free' x + inside ⟨b, n⟩ x) ∧ ∀ r ∈ free', ∃ q ∈ free, q.start ≤ r.start := by
  induction free generalizing free' with
  | nil => cases h
  | cons r rs ih =>
    rw [take] at h
    have hr := List.pairwise_cons.1 hc.1
    by_cases hn : n ≤ r.len
    · rw [if_pos hn] at h
      obtain ⟨rfl, rfl⟩ := Prod.mk.inj (Option.some.inj h)
      by_cases hz : r.len - n = 0
      · rw [if_pos hz]
        obtain rfl : n = r.len := by omega
        refine ⟨hc.tail, fun x => ?_, fun q hq => ⟨q, List.mem_cons_of_mem r hq, le_rfl⟩⟩
        rw [count_cons, Nat.add_comm]
      · rw [if_neg hz]
        refine ⟨⟨List.pairwise_cons.2 ⟨fun q hq => ?_, hr.2⟩, ?_⟩, fun x => ?_, ?_⟩
        · have := hr.1 q hq
          dsimp only
          omega
        · intro q hq
          rcases List.mem_cons.1 hq with rfl | hm
          · exact Nat.pos_of_ne_zero hz
          · exact hc.tail.2 q hm
        · rw [count_cons, count_cons]
          have hj := inside_join r.start n (r.len - n) x
          rw [Nat.add_sub_cancel' hn] at hj
          change r.inside x = _ at hj
          omega
        · intro q hq
          rcases List.mem_cons.1 hq with rfl | hm
          · exact ⟨r, List.mem_cons_self, Nat.le_add_right _ _⟩
          · exact ⟨q, List.mem_cons_of_mem r hm, le_rfl⟩
    · rw [if_neg hn] at h
      obtain ⟨⟨b', rs'⟩, ht, he⟩ := Option.map_eq_some_iff.1 h
      obtain ⟨rfl, rfl⟩ := Prod.mk.inj he
      obtain ⟨hc', hcount, hstart⟩ := ih hc.tail ht
      refine ⟨⟨List.pairwise_cons.2 ⟨fun q hq => ?_, hc'.1⟩, ?_⟩, fun x => ?_, ?_⟩
      · obtain ⟨p, hp, hle⟩ := hstart q hq
        have := hr.1 p hp
        omega
      · intro q hq
        rcases List.mem_cons.1 hq with rfl | hm
        · exact hc.2 _ List.mem_cons_self
        · exact hc'.2 q hm
      · rw [count_cons, count_cons, hcount x, Nat.add_assoc]
      · intro q hq
        rcases List.mem_cons.1 hq with rfl | hm
        · exact ⟨_, List.mem_cons_self, le_rfl⟩
        · obtain ⟨p, hp, hle⟩ := hstart q hm
          exact ⟨p, List.mem_cons_of_mem r hp, hle⟩

/-! ## Giving back -/

theorem canonical_insert {b a : List Span} {c : Span} (h : Canonical (b ++ a)) (hb : ∀ r ∈ b, r.start + r.len < c.start)
    (ha : ∀ r ∈ a, c.start + c.len < r.start) (hc : 0 < c.len) : Canonical (b ++ c :: a) := by
  obtain ⟨hpb, hpa, hba⟩ := List.pairwise_append.1 h.1
  refine ⟨List.pairwise_append.2 ⟨hpb, List.pairwise_cons.2 ⟨ha, hpa⟩, fun r hr q hq => ?_⟩, fun r hr => ?_⟩
  · rcases List.mem_cons.1 hq with rfl | hm
    · exact hb r hr
    · exact hba r hr q hm
  · rcases List.mem_append.1 hr with hm | hm
    · exact h.2 r (List.mem_append_left a hm)
    rcases List.mem_cons.1 hm with rfl | hm
    · exact hc
    · exact h.2 r (List.mem_append_right b hm)

/-- What comes before the run, joined to it where it can be. -/
theorem joinPrev_spec {before after b : List Span} {cur c : Span} (h : Canonical (before ++ after)) (hpos : 0 < cur.len)
    (hb : ∀ r ∈ before, r.start + r.len ≤ cur.start) (hj : joinPrev before cur = (b, c)) :
    Canonical (b ++ after) ∧ (∀ r ∈ b, r.start + r.len < c.start) ∧ c.start + c.len = cur.start + cur.len ∧ 0 < c.len ∧
      ∀ x, count b x + c.inside x = count before x + cur.inside x := by
  rcases List.eq_nil_or_concat' before with rfl | ⟨l, p, rfl⟩
  · obtain ⟨rfl, rfl⟩ := Prod.mk.inj hj
    exact ⟨h, fun r hr => (nomatch hr), rfl, hpos, fun _ => rfl⟩
  · obtain ⟨hpb, -, -⟩ := List.pairwise_append.1 h.1
    obtain ⟨-, -, hl⟩ := List.pairwise_append.1 hpb
    have hl : ∀ r ∈ l, r.start + r.len < p.start := fun r hr => hl r hr p (List.mem_singleton_self p)
    have hp := hb p (List.mem_append_right l (List.mem_singleton_self p))
    unfold joinPrev at hj
    rw [List.getLast?_append, List.getLast?_singleton, Option.some_or] at hj
    dsimp only at hj
    by_cases he : p.start + p.len = cur.start
    · rw [if_pos he, List.dropLast_concat] at hj
      obtain ⟨rfl, rfl⟩ := Prod.mk.inj hj
      refine ⟨⟨?_, fun r hr => h.2 r ?_⟩, hl, by dsimp only; omega, Nat.add_pos_right _ hpos, fun x => ?_⟩
      · exact h.1.sublist (List.Sublist.append_right (List.sublist_append_left l [p]) after)
      · rcases List.mem_append.1 hr with hm | hm
        · exact List.mem_append_left _ (List.mem_append_left _ hm)
        · exact List.mem_append_right _ hm
      · rw [inside_join, he, count_append, count_cons, count_nil]
        change _ + (p.inside x + cur.inside x) = _
        omega
    · rw [if_neg he] at hj
      obtain ⟨rfl, rfl⟩ := Prod.mk.inj hj
      refine ⟨h, fun r hr => ?_, rfl, hpos, fun _ => rfl⟩
      rcases List.mem_append.1 hr with hm | hm
      · have := hl r hm
        omega
      · rw [List.mem_singleton.1 hm]
        omega

/-- What comes after it, joined where it can be. -/
theorem joinNext_spec {b after : List Span} {c : Span} (h : Canonical (b ++ after)) (hpos : 0 < c.len)
    (hb : ∀ r ∈ b, r.start + r.len < c.start) (ha : ∀ r ∈ after, c.start + c.len ≤ r.start) :
    Canonical (b ++ joinNext c after) ∧ ∀ x, count (joinNext c after) x = c.inside x + count after x := by
  cases after with
  | nil => exact ⟨canonical_insert h hb (fun r hr => (nomatch hr)) hpos, fun x => count_cons c [] x⟩
  | cons q qs =>
    have hq := (List.pairwise_cons.1 (List.pairwise_append.1 h.1).2.1).1
    have hqc := ha q List.mem_cons_self
    rw [joinNext]
    by_cases he : c.start + c.len = q.start
    · rw [if_pos he]
      have hrest : Canonical (b ++ qs) := by
        refine ⟨h.1.sublist (List.Sublist.append_left (List.sublist_cons_self q qs) b), fun r hr => h.2 r ?_⟩
        rcases List.mem_append.1 hr with hm | hm
        · exact List.mem_append_left _ hm
        · exact List.mem_append_right _ (List.mem_cons_of_mem q hm)
      refine ⟨canonical_insert hrest hb (fun r hr => ?_) (Nat.add_pos_left hpos _), fun x => ?_⟩
      · have := hq r hr
        dsimp only
        omega
      · rw [count_cons, count_cons, inside_join, he]
        change c.inside x + q.inside x + _ = _
        omega
    · rw [if_neg he]
      refine ⟨canonical_insert h hb (fun r hr => ?_) hpos, fun x => count_cons c (q :: qs) x⟩
      rcases List.mem_cons.1 hr with rfl | hm
      · omega
      · have := hq r hm
        omega

/-- **Giving a run back** frees its places, and no others. -/
theorem give_spec {free : List Span} {start len : ℕ} (h : Canonical free) (hd : ∀ x, start ≤ x → x < start + len → count free x = 0) :
    Canonical (give free start len) ∧ ∀ x, count (give free start len) x = count free x + inside ⟨start, len⟩ x := by
  unfold give
  by_cases hz : len = 0
  · rw [if_pos hz]
    refine ⟨h, fun x => ?_⟩
    have : ¬ (start ≤ x ∧ x < start + len) := by omega
    rw [inside, if_neg this]
    rfl
  rw [if_neg hz]
  have hsplit : free.takeWhile (fun r => !decide (r.start > start)) ++ free.dropWhile (fun r => !decide (r.start > start)) = free :=
    List.takeWhile_append_dropWhile
  have hbefore : ∀ r ∈ free.takeWhile (fun r => !decide (r.start > start)), r.start + r.len ≤ start := fun r hr => by
    have hle : r.start ≤ start := by simpa using List.mem_takeWhile_imp hr
    have hm : r ∈ free := (List.takeWhile_sublist _).mem hr
    have h0 := (le_count hm start).trans (le_of_eq (hd start le_rfl (by omega)))
    by_contra hc
    have := inside_pos.2 (⟨hle, by omega⟩ : r.start ≤ start ∧ start < r.start + r.len)
    omega
  have hafter : ∀ r ∈ free.dropWhile (fun r => !decide (r.start > start)), start + len ≤ r.start := fun r hr => by
    have hgt : start < r.start := by
      cases hd' : free.dropWhile (fun r => !decide (r.start > start)) with
      | nil =>
        rw [hd'] at hr
        cases hr
      | cons q qs =>
        have hq : start < q.start := by
          have := List.head?_dropWhile_not (fun r : Span => !decide (r.start > start)) free
          rw [hd'] at this
          simpa using this
        rw [← hsplit, hd'] at h
        have hpair := (List.pairwise_cons.1 (List.pairwise_append.1 h.1).2.1).1
        rw [hd'] at hr
        rcases List.mem_cons.1 hr with rfl | hm
        · exact hq
        · have := hpair r hm
          omega
    have hm : r ∈ free := (List.dropWhile_sublist _).mem hr
    by_contra hc
    have h0 := (le_count hm r.start).trans (le_of_eq (hd r.start (by omega) (by omega)))
    have := inside_pos.2 (⟨le_rfl, by have := h.2 r hm; omega⟩ : r.start ≤ r.start ∧ r.start < r.start + r.len)
    omega
  revert hbefore hafter hsplit
  generalize free.takeWhile (fun r => !decide (r.start > start)) = before
  generalize free.dropWhile (fun r => !decide (r.start > start)) = after
  rintro rfl hbefore hafter
  rcases hj : joinPrev before ⟨start, len⟩ with ⟨b, c⟩
  obtain ⟨hcan, hb, hend, hpos, hcount⟩ := joinPrev_spec h (Nat.pos_of_ne_zero hz) hbefore hj
  obtain ⟨hcan', hcount'⟩ := joinNext_spec hcan hpos hb fun r hr => by
    have := hafter r hr
    dsimp only at hend
    omega
  refine ⟨hcan', fun x => ?_⟩
  have h1 := hcount x
  dsimp only
  rw [count_append, hcount' x, count_append]
  omega

end FreeRuns
end Lish
