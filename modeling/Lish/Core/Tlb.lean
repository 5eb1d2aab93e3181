import Lish.Prog.Cache
import Lish.Core.MmuWalk
/-!
# Tlb — the rows as caches of the page tables

A row answers a query: an access to a virtual address in a permission context.  The tag determines the page and the
context, so that filling, dropping and flushing entries are the cache operations on the translation of the tables.
-/
namespace Lish

open Cache

/-- What a translation is asked for. -/
structure Query where
  access : Access
  ctx : U64
  va : U64

def Query.page (q : Query) : U64 := q.va >>> 12

/-- The tag of a page in a permission context. -/
def tagOf (ctx va : U64) : U64 := ((va >>> 12) &&& TLB_VPN_MASK) ||| (ctx <<< TLB_CONTEXT_SHIFT)

/-! ## Tags -/

theorem tagOf_low (ctx va : U64) {i : ℕ} (hi : i < 52) : (tagOf ctx va).getLsbD i = (va >>> 12).getLsbD i := by
  unfold tagOf TLB_CONTEXT_SHIFT TLB_VPN_MASK TLB_VPN_BITS
  rw [BitVec.getLsbD_or, BitVec.getLsbD_and, Tables.lowMask_bit (by omega) hi, BitVec.getLsbD_shiftLeft]
  simp [hi]

theorem tagOf_high (ctx va : U64) {i : ℕ} (hi : i < 12) : (tagOf ctx va).getLsbD (i + 52) = ctx.getLsbD i := by
  unfold tagOf TLB_CONTEXT_SHIFT TLB_VPN_BITS
  rw [BitVec.getLsbD_or, BitVec.getLsbD_and, BitVec.getLsbD_ushiftRight, BitVec.getLsbD_shiftLeft,
    BitVec.getLsbD_of_ge va _ (by omega)]
  simp [show i + 52 < 64 by omega]

theorem small_bit {ctx : U64} (h : ctx.toNat < 64) {i : ℕ} (hi : 6 ≤ i) : ctx.getLsbD i = false := by
  apply Nat.testBit_lt_two_pow
  calc ctx.toNat < 2 ^ 6 := h
    _ ≤ 2 ^ i := Nat.pow_le_pow_right (by decide) hi

/-- **A tag determines the page and the context.** -/
theorem tagOf_inj {ctx ctx' va va' : U64} (hc : ctx.toNat < 64) (hc' : ctx'.toNat < 64) (h : tagOf ctx va = tagOf ctx' va') :
    ctx = ctx' ∧ Tables.SamePage va va' := by
  constructor
  · apply BitVec.eq_of_getLsbD_eq
    intro i _
    by_cases hi : i < 12
    · rw [← tagOf_high ctx va hi, h, tagOf_high ctx' va' hi]
    · rw [small_bit hc (by omega), small_bit hc' (by omega)]
  · apply BitVec.eq_of_getLsbD_eq
    intro i _
    by_cases hi : i < 52
    · rw [← tagOf_low ctx va hi, h, tagOf_low ctx' va' hi]
    · rw [BitVec.getLsbD_ushiftRight, BitVec.getLsbD_ushiftRight, BitVec.getLsbD_of_ge va _ (by omega),
        BitVec.getLsbD_of_ge va' _ (by omega)]

theorem tagOf_ne_invalid {ctx : U64} (hc : ctx.toNat < 64) (va : U64) : tagOf ctx va ≠ TLB_INVALID := by
  intro h
  have hb := tagOf_high ctx va (i := 11) (by decide)
  rw [h, small_bit hc (by decide)] at hb
  exact absurd hb (by decide)

theorem tagOf_page (ctx : U64) {va va' : U64} (h : Tables.SamePage va va') : tagOf ctx va = tagOf ctx va' := by
  unfold tagOf
  rw [h]

theorem tlbIndex_page {va va' : U64} (h : Tables.SamePage va va') : Cpu.tlbIndex va = Cpu.tlbIndex va' := by
  unfold Cpu.tlbIndex
  rw [h]

namespace Cpu

/-! ## What the rows answer -/

/-- The answer of the TLB rows. -/
def tlb (c : Cpu) (q : Query) : Option U64 :=
  if q.ctx.toNat < 64 ∧ c.tlbTag q.access.row (tlbIndex q.va) = tagOf q.ctx q.va then
    some (q.va + c.tlbDiff q.access.row (tlbIndex q.va))
  else none

/-- The offset the fused JIT-TLB rows answer; they serve data accesses. -/
def jtlb (c : Cpu) (q : Query) : Option U64 :=
  if q.access ≠ .fetch ∧ q.ctx.toNat < 64 ∧ c.jtlbTag (jitRow (q.access = .store)) (tlbIndex q.va) = tagOf q.ctx q.va then
    some (c.jtlbOff (jitRow (q.access = .store)) (tlbIndex q.va))
  else none

theorem tlb_some {c : Cpu} {q : Query} {v : U64} (h : c.tlb q = some v) :
    q.ctx.toNat < 64 ∧ c.tlbTag q.access.row (tlbIndex q.va) = tagOf q.ctx q.va ∧
      v = q.va + c.tlbDiff q.access.row (tlbIndex q.va) := by
  unfold tlb at h
  split_ifs at h with hq
  exact ⟨hq.1, hq.2, (Option.some.inj h).symm⟩

theorem jtlb_some {c : Cpu} {q : Query} {off : U64} (h : c.jtlb q = some off) :
    q.access ≠ .fetch ∧ q.ctx.toNat < 64 ∧ c.jtlbTag (jitRow (q.access = .store)) (tlbIndex q.va) = tagOf q.ctx q.va ∧
      off = c.jtlbOff (jitRow (q.access = .store)) (tlbIndex q.va) := by
  unfold jtlb at h
  split_ifs at h with hq
  exact ⟨hq.1, hq.2.1, hq.2.2, (Option.some.inj h).symm⟩

/-- Every entry of `c'` is one of `c`. -/
structure Drops (c c' : Cpu) : Prop where
  tlb : ∀ q v, c'.tlb q = some v → c.tlb q = some v
  jtlb : ∀ q off, c'.jtlb q = some off → c.jtlb q = some off

theorem Drops.refl (c : Cpu) : Drops c c := ⟨fun _ _ h => h, fun _ _ h => h⟩

/-- An entry survives with its value, or its tag is invalid. -/
theorem tlb_of_rows {c c' : Cpu} (ht : ∀ r i, c'.tlbTag r i = c.tlbTag r i ∨ c'.tlbTag r i = TLB_INVALID)
    (hd : c'.tlbDiff = c.tlbDiff) (q : Query) (v : U64) (h : c'.tlb q = some v) : c.tlb q = some v := by
  obtain ⟨h1, h2, rfl⟩ := tlb_some h
  rcases ht q.access.row (tlbIndex q.va) with hs | hs
  · unfold Cpu.tlb
    rw [if_pos ⟨h1, hs.symm.trans h2⟩, hd]
  · exact absurd (h2.symm.trans hs) (tagOf_ne_invalid h1 _)

theorem jtlb_of_rows {c c' : Cpu} (hj : ∀ r i, c'.jtlbTag r i = c.jtlbTag r i ∨ c'.jtlbTag r i = TLB_INVALID)
    (ho : c'.jtlbOff = c.jtlbOff) (q : Query) (off : U64) (h : c'.jtlb q = some off) : c.jtlb q = some off := by
  obtain ⟨h0, h1, h2, rfl⟩ := jtlb_some h
  rcases hj (jitRow (q.access = .store)) (tlbIndex q.va) with hs | hs
  · unfold Cpu.jtlb
    rw [if_pos ⟨h0, h1, hs.symm.trans h2⟩, ho]
  · exact absurd (h2.symm.trans hs) (tagOf_ne_invalid h1 _)

theorem Drops.of_rows {c c' : Cpu} (ht : ∀ r i, c'.tlbTag r i = c.tlbTag r i ∨ c'.tlbTag r i = TLB_INVALID)
    (hd : c'.tlbDiff = c.tlbDiff) (hj : ∀ r i, c'.jtlbTag r i = c.jtlbTag r i ∨ c'.jtlbTag r i = TLB_INVALID)
    (ho : c'.jtlbOff = c.jtlbOff) : Drops c c' := ⟨tlb_of_rows ht hd, jtlb_of_rows hj ho⟩

/-- Rows that hold the same entries. -/
theorem Drops.of_eq {c c' : Cpu} (ht : c'.tlbTag = c.tlbTag) (hd : c'.tlbDiff = c.tlbDiff) (hj : c'.jtlbTag = c.jtlbTag)
    (ho : c'.jtlbOff = c.jtlbOff) : Drops c c' :=
  .of_rows (fun r i => Or.inl (by rw [ht])) hd (fun r i => Or.inl (by rw [hj])) ho

/-- Rows without an entry. -/
def Flushed (c : Cpu) : Prop := (∀ q, c.tlb q = none) ∧ ∀ q, c.jtlb q = none

theorem flushed_of_invalid {c : Cpu} (ht : ∀ r i, c.tlbTag r i = TLB_INVALID) (hj : ∀ r i, c.jtlbTag r i = TLB_INVALID) :
    Flushed c := by
  constructor
  · intro q
    cases h : c.tlb q with
    | none => rfl
    | some v =>
      obtain ⟨h1, h2, -⟩ := tlb_some h
      exact absurd (h2.symm.trans (ht _ _)) (tagOf_ne_invalid h1 _)
  · intro q
    cases h : c.jtlb q with
    | none => rfl
    | some v =>
      obtain ⟨-, h1, h2, -⟩ := jtlb_some h
      exact absurd (h2.symm.trans (hj _ _)) (tagOf_ne_invalid h1 _)

theorem flushed_flushTlb (c : Cpu) : Flushed c.flushTlb := flushed_of_invalid (fun _ _ => rfl) fun _ _ => rfl

theorem drops_flushTlbPage (c : Cpu) (va : U64) : Drops c (c.flushTlbPage va) := by
  have hdrop : ∀ vpn tag, dropPage vpn tag = tag ∨ dropPage vpn tag = TLB_INVALID := fun vpn tag => by
    unfold dropPage
    split_ifs
    · exact Or.inr rfl
    · exact Or.inl rfl
  apply Drops.of_rows
  · intro r i
    unfold flushTlbPage
    dsimp only
    split_ifs
    · exact hdrop _ _
    · exact Or.inl rfl
  · rfl
  · intro r i
    unfold flushTlbPage
    dsimp only
    split_ifs
    · exact hdrop _ _
    · exact Or.inl rfl
  · rfl

theorem vpn_mask (va : U64) : (va >>> 12) &&& TLB_VPN_MASK = va >>> 12 := by
  apply BitVec.eq_of_getLsbD_eq
  intro i _
  rw [BitVec.getLsbD_and]
  by_cases hi : i < 52
  · rw [show TLB_VPN_MASK = 1#64 <<< 52 - 1 from rfl, Tables.lowMask_bit (by omega) hi, Bool.and_true]
  · rw [BitVec.getLsbD_ushiftRight, BitVec.getLsbD_of_ge va _ (by omega), Bool.false_and]

theorem tagOf_vpn (ctx va : U64) : tagOf ctx va &&& TLB_VPN_MASK = va >>> 12 := by
  apply BitVec.eq_of_getLsbD_eq
  intro i _
  rw [BitVec.getLsbD_and]
  by_cases hi : i < 52
  · rw [show TLB_VPN_MASK = 1#64 <<< 52 - 1 from rfl, Tables.lowMask_bit (by omega) hi, tagOf_low _ _ hi, Bool.and_true]
  · have hm : TLB_VPN_MASK.getLsbD i = false := by
      apply Nat.testBit_lt_two_pow
      calc TLB_VPN_MASK.toNat < 2 ^ 52 := by decide
        _ ≤ 2 ^ i := Nat.pow_le_pow_right (by decide) (by omega)
    rw [hm, Bool.and_false, BitVec.getLsbD_ushiftRight, BitVec.getLsbD_of_ge va _ (by omega)]

/-- **A page flush** leaves no entry of its page, in any row or context. -/
theorem flushTlbPage_page (c : Cpu) (va : U64) {q : Query} (h : q.page = va >>> 12) :
    (c.flushTlbPage va).tlb q = none ∧ (c.flushTlbPage va).jtlb q = none := by
  have hidx : tlbIndex q.va = tlbIndex va := tlbIndex_page h
  constructor
  · cases ht : (c.flushTlbPage va).tlb q with
    | none => rfl
    | some v =>
      exfalso
      obtain ⟨h1, h2, -⟩ := tlb_some ht
      unfold flushTlbPage dropPage at h2
      dsimp only at h2
      rw [if_pos hidx, vpn_mask] at h2
      split_ifs at h2 with hd
      · exact tagOf_ne_invalid h1 _ h2.symm
      · rw [h2, tagOf_vpn] at hd
        exact hd ⟨tagOf_ne_invalid h1 _, h⟩
  · cases ht : (c.flushTlbPage va).jtlb q with
    | none => rfl
    | some v =>
      exfalso
      obtain ⟨-, h1, h2, -⟩ := jtlb_some ht
      unfold flushTlbPage dropPage at h2
      dsimp only at h2
      rw [if_pos hidx, vpn_mask] at h2
      split_ifs at h2 with hd
      · exact tagOf_ne_invalid h1 _ h2.symm
      · rw [h2, tagOf_vpn] at hd
        exact hd ⟨tagOf_ne_invalid h1 _, h⟩

end Cpu
end Lish
