import Lish.System.BusFrame
/-!
# PlicBus — the interrupt controller on the bus

The scan for the best source, what register accesses do to the bits of the sources, and the lines they raise.
-/
namespace Lish
namespace Plic

/-! ## The scan for the best source -/

/-- What the scan of the sources has found: nothing, or the last of the best. -/
def Scanned (ok : ℕ → Prop) (pri : ℕ → U32) (n : ℕ) (r : ℕ × U32) : Prop :=
  (r = (0, 0) ∧ ∀ i < n, ¬ ok i) ∨
    (r.1 < n ∧ ok r.1 ∧ r.2 = pri r.1 ∧ ∀ i < n, ok i → (pri i).toNat < r.2.toNat ∨ (pri i = r.2 ∧ i ≤ r.1))

theorem scanned_range (ok : ℕ → Prop) [DecidablePred ok] (pri : ℕ → U32) (n : ℕ) :
    Scanned ok pri n ((List.range n).foldl (fun b i => if ok i ∧ pri i ≥ b.2 then (i, pri i) else b) (0, 0)) := by
  induction n with
  | zero => exact .inl ⟨rfl, fun i hi => absurd hi (Nat.not_lt_zero i)⟩
  | succ n ih =>
    rw [List.range_succ, List.foldl_append]
    revert ih
    generalize (List.range n).foldl (fun b i => if ok i ∧ pri i ≥ b.2 then (i, pri i) else b) (0, 0) = r
    intro ih
    change Scanned ok pri (n + 1) (if ok n ∧ pri n ≥ r.2 then (n, pri n) else r)
    by_cases hn : ok n ∧ pri n ≥ r.2
    · rw [if_pos hn]
      have hge : r.2.toNat ≤ (pri n).toNat := BitVec.le_def.1 hn.2
      refine .inr ⟨Nat.lt_succ_self n, hn.1, rfl, fun i hi hok => ?_⟩
      dsimp only
      rcases Nat.lt_succ_iff_lt_or_eq.1 hi with hlt | rfl
      · rcases ih with ⟨-, hnone⟩ | ⟨-, -, -, hbest⟩
        · exact absurd hok (hnone i hlt)
        · rcases hbest i hlt hok with h | ⟨h, -⟩
          · exact .inl (Nat.lt_of_lt_of_le h hge)
          · rw [← h] at hge
            rcases Nat.lt_or_eq_of_le hge with hlt' | heq
            · exact .inl hlt'
            · exact .inr ⟨BitVec.eq_of_toNat_eq heq, by omega⟩
      · exact .inr ⟨rfl, le_rfl⟩
    · rw [if_neg hn]
      rcases ih with ⟨rfl, hnone⟩ | ⟨hr, hok, hpri, hbest⟩
      · refine .inl ⟨rfl, fun i hi hoki => ?_⟩
        rcases Nat.lt_succ_iff_lt_or_eq.1 hi with hlt | rfl
        · exact hnone i hlt hoki
        · exact hn ⟨hoki, BitVec.le_def.2 (Nat.zero_le _)⟩
      · refine .inr ⟨by omega, hok, hpri, fun i hi hoki => ?_⟩
        rcases Nat.lt_succ_iff_lt_or_eq.1 hi with hlt | rfl
        · exact hbest i hlt hoki
        · have : ¬ r.2.toNat ≤ (pri i).toNat := fun hc => hn ⟨hoki, BitVec.le_def.2 hc⟩
          exact .inl (by omega)

/-- A source that a context may be given. -/
def Candidate (p : Plic) (ctx : Fin 2) (i : ℕ) : Prop :=
  p.pending.getLsbD i = true ∧ (p.enable ctx).getLsbD i = true ∧ p.claimed.getLsbD i = false ∧ p.threshold ctx < p.priority i

theorem best_scanned (p : Plic) (ctx : Fin 2) :
    ∃ pri, Scanned (p.Candidate ctx) p.priority PLIC_SOURCES (p.best ctx, pri) := by
  have hs := scanned_range (fun i => (p.pending &&& p.enable ctx &&& ~~~p.claimed).getLsbD i = true ∧ p.priority i > p.threshold ctx)
    p.priority PLIC_SOURCES
  have hiff : ∀ i < PLIC_SOURCES, ((p.pending &&& p.enable ctx &&& ~~~p.claimed).getLsbD i = true ∧ p.priority i > p.threshold ctx) ↔
      p.Candidate ctx i := fun i hi => by
    have hi' : i < 32 := hi
    unfold Candidate
    simp only [BitVec.getLsbD_and, BitVec.getLsbD_not, hi', decide_true, Bool.true_and, Bool.and_eq_true, Bool.not_eq_true']
    tauto
  refine ⟨((List.range PLIC_SOURCES).foldl (fun (b : ℕ × U32) i =>
    if (p.pending &&& p.enable ctx &&& ~~~p.claimed).getLsbD i ∧ p.priority i > p.threshold ctx ∧ p.priority i ≥ b.2 then
      (i, p.priority i) else b) (0, 0)).2, ?_⟩
  simp only [and_assoc] at hs
  rcases hs with ⟨hr, hnone⟩ | ⟨hr, hok, hpri, hbest⟩
  · exact .inl ⟨hr, fun i hi hc => hnone i hi ((hiff i hi).2 hc)⟩
  · exact .inr ⟨hr, (hiff _ hr).1 hok, hpri, fun i hi hc => hbest i hi ((hiff i hi).2 hc)⟩

/-- A claim by a context. -/
def claim (p : Plic) (ctx : Fin 2) : Plic :=
  if p.best ctx ≠ 0 then { p with claimed := p.claimed ||| (1#32 <<< p.best ctx) } else p

/-- Source 0 is never enabled. -/
def NoSourceZero (p : Plic) : Prop := ∀ ctx, (p.enable ctx).getLsbD 0 = false

/-- **The scan** finds the last of the best candidates, and 0 where there is none. -/
theorem best_spec {p : Plic} (hz : p.NoSourceZero) (ctx : Fin 2) :
    (p.best ctx = 0 ∧ ∀ i, ¬ p.Candidate ctx i) ∨
      (p.best ctx ≠ 0 ∧ p.best ctx < PLIC_SOURCES ∧ p.Candidate ctx (p.best ctx) ∧
        ∀ i, p.Candidate ctx i → p.priority i < p.priority (p.best ctx) ∨ (p.priority i = p.priority (p.best ctx) ∧ i ≤ p.best ctx)) := by
  have hlt : ∀ i, p.Candidate ctx i → i < PLIC_SOURCES := fun i hi => BitVec.lt_of_getLsbD hi.1
  obtain ⟨pri, ⟨hr, hnone⟩ | ⟨hr, hok, hpri, hbest⟩⟩ := p.best_scanned ctx
  · exact .inl ⟨congrArg Prod.fst hr, fun i hi => hnone i (hlt i hi) hi⟩
  · refine .inr ⟨fun h0 => ?_, hr, hok, fun i hi => ?_⟩
    · dsimp only at hok
      rw [h0] at hok
      have hbit := hok.2.1
      rw [hz ctx] at hbit
      cases hbit
    · dsimp only at hpri hbest
      rw [hpri] at hbest
      exact (hbest i (hlt i hi) hi).imp BitVec.lt_def.2 id

theorem pendingCtx_iff {p : Plic} (hz : p.NoSourceZero) (ctx : Fin 2) : p.pendingCtx ctx = true ↔ ∃ i, p.Candidate ctx i := by
  unfold pendingCtx
  rw [bne_iff_ne]
  rcases best_spec hz ctx with ⟨h0, hnone⟩ | ⟨hne, -, hok, -⟩
  · exact ⟨fun h => absurd h0 h, fun ⟨i, hi⟩ => absurd hi (hnone i)⟩
  · exact ⟨fun _ => ⟨_, hok⟩, fun _ => hne⟩

/-! ## Registers -/

/-- The claim register of a context. -/
def claimReg (ctx : Fin 2) : ℕ := 0x200004 + ctx * 0x1000

theorem context_some {n : ℕ} {ctx : Fin 2} (h : context n = some ctx) : n = ctx := by
  unfold context at h
  split_ifs at h
  rw [← Option.some.inj h]

theorem context_fin (ctx : Fin 2) : context ctx = some ctx := dif_pos ctx.isLt

theorem claimReg_eq {n : ℕ} {ctx : Fin 2} (h : n = claimReg ctx) :
    0x200000 ≤ n ∧ (n - 0x200000) / 0x1000 = ctx ∧ (n - 0x200000) % 0x1000 = 4 := by
  unfold claimReg at h
  omega

theorem eq_claimReg {n : ℕ} {ctx : Fin 2} (h1 : 0x200000 ≤ n) (h2 : (n - 0x200000) / 0x1000 = ctx) (h3 : (n - 0x200000) % 0x1000 = 4) :
    n = claimReg ctx := by
  unfold claimReg
  omega

/-- Reading the claim register claims. -/
theorem read_claim (p : Plic) {off : U64} {ctx : Fin 2} (h : off.toNat = claimReg ctx) :
    p.read off = (BitVec.ofNat 32 (p.best ctx), p.claim ctx) := by
  obtain ⟨hge, hctx, hreg⟩ := claimReg_eq h
  rw [read]
  rw [if_neg (by omega), if_neg (by omega), if_neg (by omega), if_neg (by unfold PLIC_CONTEXTS; omega), if_pos hge, hctx, context_fin, hreg]
  rfl

/-- Reading another register leaves the controller alone. -/
theorem read_other (p : Plic) {off : U64} (h : ∀ ctx : Fin 2, off.toNat ≠ claimReg ctx) : (p.read off).2 = p := by
  rw [read]
  by_cases h1 : off.toNat ≤ 0xfff
  · rw [if_pos h1]
  rw [if_neg h1]
  by_cases h2 : off.toNat = 0x1000
  · rw [if_pos h2]
  rw [if_neg h2]
  by_cases h3 : off.toNat = 0x1004
  · rw [if_pos h3]
  rw [if_neg h3]
  by_cases h4 : 0x2000 ≤ off.toNat ∧ off.toNat < 0x2000 + PLIC_CONTEXTS * 0x80
  · rw [if_pos h4]
    cases context ((off.toNat - 0x2000) / 0x80) <;> rfl
  rw [if_neg h4]
  by_cases h5 : off.toNat ≥ 0x200000
  · rw [if_pos h5]
    cases hc : context ((off.toNat - 0x200000) / 0x1000) with
    | none => rfl
    | some ctx =>
      have hm := fun hm => h ctx (eq_claimReg h5 (context_some hc) hm)
      revert hm
      generalize (off.toNat - 0x200000) % 0x1000 = reg
      intro hm
      split
      · rfl
      · split
        · rfl
        · exact absurd rfl hm
        · rfl
  · rw [if_neg h5]

theorem getLsbD_clear (x : U32) {n : ℕ} (hn : n < PLIC_SOURCES) (i : ℕ) :
    (x &&& ~~~(1#32 <<< n)).getLsbD i = (x.getLsbD i && !decide (n = i)) := by
  have hn' : n < 32 := hn
  by_cases hi : i < 32
  · rw [BitVec.getLsbD_and, BitVec.getLsbD_not, ← BitVec.twoPow_eq, BitVec.getLsbD_twoPow]
    by_cases h : n = i
    · simp [h, hi]
    · simp [h, hi]
  · rw [BitVec.getLsbD_of_ge _ _ (by omega), BitVec.getLsbD_of_ge _ _ (by omega), Bool.false_and]

theorem getLsbD_mark (x : U32) {n : ℕ} (hn : n < PLIC_SOURCES) (i : ℕ) :
    (x ||| (1#32 <<< n)).getLsbD i = (x.getLsbD i || decide (n = i)) := by
  have hn' : n < 32 := hn
  rw [BitVec.getLsbD_or, ← BitVec.twoPow_eq, BitVec.getLsbD_twoPow, decide_eq_true hn', Bool.true_and]

/-- What a register write does to the bits of the sources. -/
structure Written (p p' : Plic) (off : U64) (val : U32) : Prop where
  pending : p'.pending = p.pending
  claimed : ∀ i, p'.claimed.getLsbD i = (p.claimed.getLsbD i && !(decide (val.toNat = i) && decide (∃ ctx : Fin 2, off.toNat = claimReg ctx)))
  sourceZero : p.NoSourceZero → p'.NoSourceZero

theorem written (p : Plic) (off : U64) (val : U32) : Written p (p.write off val) off val := by
  have same : (¬ ∃ ctx : Fin 2, off.toNat = claimReg ctx) → ∀ i, p.claimed.getLsbD i =
      (p.claimed.getLsbD i && !(decide (val.toNat = i) && decide (∃ ctx : Fin 2, off.toNat = claimReg ctx))) := fun h i => by
    rw [decide_eq_false h, Bool.and_false, Bool.not_false, Bool.and_true]
  have low : off.toNat < 0x200000 → ¬ ∃ ctx : Fin 2, off.toNat = claimReg ctx := fun hlt => by
    rintro ⟨ctx, h⟩
    have := (claimReg_eq h).1
    omega
  unfold write
  dsimp only
  by_cases h1 : off.toNat ≤ 0xfff
  · rw [if_pos h1]
    split_ifs <;> exact ⟨rfl, same (low (by omega)), id⟩
  rw [if_neg h1]
  by_cases h2 : 0x2000 ≤ off.toNat ∧ off.toNat < 0x2000 + PLIC_CONTEXTS * 0x80
  · rw [if_pos h2]
    have hno := low (by unfold PLIC_CONTEXTS at h2; omega)
    cases context ((off.toNat - 0x2000) / 0x80) with
    | none => exact ⟨rfl, same hno, id⟩
    | some ctx =>
      dsimp only
      split_ifs
      · refine ⟨rfl, same hno, fun hz i => ?_⟩
        dsimp only
        split_ifs
        · simp
        · exact hz i
      · exact ⟨rfl, same hno, id⟩
  rw [if_neg h2]
  by_cases h3 : off.toNat ≥ 0x200000
  · rw [if_pos h3]
    cases hc : context ((off.toNat - 0x200000) / 0x1000) with
    | none =>
      refine ⟨rfl, same ?_, id⟩
      rintro ⟨ctx, h⟩
      rw [(claimReg_eq h).2.1, context_fin] at hc
      cases hc
    | some ctx =>
      have hother : (off.toNat - 0x200000) % 0x1000 ≠ 4 → ¬ ∃ ctx : Fin 2, off.toNat = claimReg ctx := fun hne => by
        rintro ⟨ctx, h⟩
        exact hne (claimReg_eq h).2.2
      dsimp only
      split
      · rename_i hm
        exact ⟨rfl, same (hother (by omega)), id⟩
      · rename_i hm
        have hyes : ∃ ctx : Fin 2, off.toNat = claimReg ctx := ⟨ctx, eq_claimReg h3 (context_some hc) hm⟩
        split_ifs with hv
        · exact ⟨rfl, fun i => by rw [decide_eq_true hyes, Bool.and_true]; exact getLsbD_clear _ hv i, id⟩
        · refine ⟨rfl, fun i => ?_, id⟩
          by_cases hvi : val.toNat = i
          · rw [BitVec.getLsbD_of_ge _ _ (by unfold PLIC_SOURCES at hv; omega), Bool.false_and]
          · rw [decide_eq_false hvi, Bool.false_and, Bool.not_false, Bool.and_true]
      · rename_i hm0 hm4
        exact ⟨rfl, same (hother hm4), id⟩
  · rw [if_neg h3]
    exact ⟨rfl, same (low (by omega)), id⟩

end Plic

namespace VirtBus

open Plic

/-! ## The controller on the bus -/

def claimAddr (ctx : Fin 2) : U64 := BitVec.ofNat 64 (PLIC_BASE + claimReg ctx)

/-- The context whose claim register an address is. -/
def claimContext (addr : U64) : Option (Fin 2) :=
  if addr = claimAddr 0 then some 0 else if addr = claimAddr 1 then some 1 else none

theorem claimContext_claimAddr (ctx : Fin 2) : claimContext (claimAddr ctx) = some ctx := by
  revert ctx
  decide

theorem claimContext_some {addr : U64} {ctx : Fin 2} (h : claimContext addr = some ctx) : addr = claimAddr ctx := by
  unfold claimContext at h
  split_ifs at h with h0 h1
  · cases h
    exact h0
  · cases h
    exact h1

theorem window_plic {addr off : U64} (h : window PLIC_BASE PLIC_SIZE addr = some off) : PLIC_BASE + off.toNat = addr.toNat := by
  unfold window at h
  split_ifs at h with hw
  rw [← Option.some.inj h, BitVec.toNat_sub_of_le (BitVec.le_def.2 (by rw [BitVec.toNat_ofNat]; exact hw.1)), BitVec.toNat_ofNat]
  exact Nat.add_sub_cancel' hw.1

theorem claimReg_lt (ctx : Fin 2) : PLIC_BASE + claimReg ctx < 2 ^ 64 := by
  revert ctx
  decide

/-- The claim registers, by their place in the window. -/
theorem claim_iff {addr off : U64} (h : window PLIC_BASE PLIC_SIZE addr = some off) (ctx : Fin 2) :
    off.toNat = claimReg ctx ↔ addr = claimAddr ctx := by
  have hw := window_plic h
  have hto : (claimAddr ctx).toNat = PLIC_BASE + claimReg ctx := by
    rw [claimAddr, BitVec.toNat_ofNat]
    exact Nat.mod_eq_of_lt (claimReg_lt ctx)
  constructor
  · intro heq
    exact BitVec.eq_of_toNat_eq (by omega)
  · rintro rfl
    omega

theorem claim_exists_iff {addr off : U64} (h : window PLIC_BASE PLIC_SIZE addr = some off) :
    (∃ ctx : Fin 2, off.toNat = claimReg ctx) ↔ (claimContext addr).isSome = true := by
  constructor
  · rintro ⟨ctx, hc⟩
    rw [(claim_iff h ctx).1 hc, claimContext_claimAddr]
    rfl
  · intro hs
    obtain ⟨ctx, hc⟩ := Option.isSome_iff_exists.1 hs
    exact ⟨ctx, (claim_iff h ctx).2 (claimContext_some hc)⟩

theorem best_lt (p : Plic) (ctx : Fin 2) : p.best ctx < 32 := by
  obtain ⟨pri, ⟨hr, -⟩ | ⟨hr, -⟩⟩ := p.best_scanned ctx
  · have h0 : p.best ctx = 0 := congrArg Prod.fst hr
    omega
  · exact hr

theorem cut_small (w : Width) {n : ℕ} (h : n < 32) : cut w ((BitVec.ofNat 32 n).setWidth 64) = BitVec.ofNat 64 n := by
  apply BitVec.eq_of_toNat_eq
  unfold cut
  cases w <;> simp only [Width.bytes, BitVec.toNat_setWidth, BitVec.toNat_ofNat] <;> omega

theorem claimAddr_toNat (ctx : Fin 2) : (claimAddr ctx).toNat = 0x0c200004 + ctx * 0x1000 := by
  revert ctx
  decide

theorem offset_claimAddr (b : VirtBus) (w : Width) (ctx : Fin 2) : b.ram.flat.offset (claimAddr ctx) w.bytes = none := by
  have hlt : claimAddr ctx < b.ram.flat.base := BitVec.lt_def.2 (by
    rw [claimAddr_toNat, show b.ram.flat.base.toNat = 0x80000000 from rfl]
    omega)
  unfold FlatMemory.offset
  rw [if_pos hlt]

/-- The windows below the controller's end where it begins. -/
theorem window_apart {addr off : U64} (h : window PLIC_BASE PLIC_SIZE addr = some off) :
    window TEST_BASE 0x1000 addr = none ∧ window CLINT_BASE CLINT_SIZE addr = none := by
  have hge : 0x0c000000 ≤ addr.toNat := (window_plic h) ▸ Nat.le_add_right _ _
  unfold window TEST_BASE CLINT_BASE CLINT_SIZE
  exact ⟨if_neg (by omega), if_neg (by omega)⟩

theorem window_claimAddr (ctx : Fin 2) : ∃ off, window PLIC_BASE PLIC_SIZE (claimAddr ctx) = some off ∧ off.toNat = claimReg ctx := by
  have hto := claimAddr_toNat ctx
  have hin : PLIC_BASE ≤ (claimAddr ctx).toNat ∧ (claimAddr ctx).toNat < PLIC_BASE + PLIC_SIZE := by
    unfold PLIC_BASE PLIC_SIZE
    omega
  have hw : window PLIC_BASE PLIC_SIZE (claimAddr ctx) = some (claimAddr ctx - BitVec.ofNat 64 PLIC_BASE) := if_pos hin
  exact ⟨_, hw, (claim_iff hw ctx).2 rfl⟩

theorem claimContext_window {addr : U64} (h : window PLIC_BASE PLIC_SIZE addr = none) : claimContext addr = none := by
  cases hc : claimContext addr with
  | none => rfl
  | some ctx =>
    obtain ⟨off, hw, -⟩ := window_claimAddr ctx
    rw [claimContext_some hc, hw] at h
    cases h

/-- A load of the claim register answers with the best source. -/
theorem busRead_claim (w : Width) (b : VirtBus) (ctx : Fin 2) :
    busRead w b (claimAddr ctx) = (.ok (BitVec.ofNat 64 (b.plic.best ctx)), { b with plic := b.plic.claim ctx }) := by
  obtain ⟨off, hoff, hreg⟩ := window_claimAddr ctx
  obtain ⟨htest, hclint⟩ := window_apart hoff
  unfold busRead mmioRead
  rw [offset_claimAddr, htest, hclint, hoff]
  dsimp only
  rw [read_claim _ hreg, cut_small w (best_lt _ _)]

theorem busRead_plic (w : Width) (b : VirtBus) {addr : U64} (h : claimContext addr = none) : (busRead w b addr).2.plic = b.plic := by
  have hmmio : (b.mmioRead addr w.bytes).2.plic = b.plic := by
    unfold mmioRead
    cases hw : window PLIC_BASE PLIC_SIZE addr with
    | none =>
      split
      all_goals first | rfl | (rename_i hc _ _; cases hc)
    | some off =>
      obtain ⟨htest, hclint⟩ := window_apart hw
      rw [htest, hclint]
      refine read_other b.plic fun ctx hc => ?_
      rw [(claim_iff hw ctx).1 hc, claimContext_claimAddr] at h
      cases h
  unfold busRead
  cases b.ram.flat.offset addr w.bytes with
  | some off => rfl
  | none =>
    dsimp only
    rcases hr : b.mmioRead addr w.bytes with ⟨_ | v, b'⟩ <;> rw [hr] at hmmio <;> exact hmmio

theorem processQueue_plic (b : VirtBus) (i qi : ℕ) : (b.processQueue i qi).plic = b.plic := by
  unfold processQueue
  cases b.virtio[i]? with
  | none => rfl
  | some dev =>
    dsimp only
    cases dev.process b.passes qi b.dma <;> rfl

/-- What a store does to the bits of the sources: at a claim register, it completes. -/
structure Stored (b b' : VirtBus) (w : Width) (addr val : U64) : Prop where
  pending : b'.plic.pending = b.plic.pending
  claimed : ∀ i, b'.plic.claimed.getLsbD i =
    (b.plic.claimed.getLsbD i && !(decide (((cut w val).setWidth 32).toNat = i) && (claimContext addr).isSome))
  sourceZero : b.plic.NoSourceZero → b'.plic.NoSourceZero

theorem Stored.same {b b' : VirtBus} {w : Width} {addr val : U64} (h : b'.plic = b.plic) (hc : claimContext addr = none) :
    Stored b b' w addr val := by
  refine ⟨by rw [h], fun i => ?_, fun hz => by rw [h]; exact hz⟩
  rw [h, hc, Option.isSome_none, Bool.and_false, Bool.not_false, Bool.and_true]

theorem virtioWrite_plic (b : VirtBus) (i : ℕ) (off : U64) (val : U32) : (b.virtioWrite i off val).plic = b.plic := by
  unfold virtioWrite
  cases b.virtio[i]? with
  | none => rfl
  | some dev =>
    dsimp only
    rcases dev.write off val with ⟨_ | q, dev'⟩
    · rfl
    · exact processQueue_plic _ _ _

/-- A device register write that is no access to the controller leaves it alone. -/
theorem mmioWrite_plic {b b' : VirtBus} {addr val : U64} (hw : window PLIC_BASE PLIC_SIZE addr = none)
    (h : b.mmioWrite addr val = some b') : b'.plic = b.plic := by
  unfold mmioWrite at h
  rw [hw] at h
  split at h
  · cases h
    unfold testWrite
    dsimp only
    split_ifs <;> rfl
  · cases h
    unfold clintWrite
    split <;> rfl
  · rename_i hc _ _
    cases hc
  · cases h
    rfl
  · cases h
    rfl
  · cases h
    exact virtioWrite_plic _ _ _ _
  · cases h

theorem stored_busWrite (w : Width) (b : VirtBus) (addr val : U64) : Stored b (busWrite w b addr val).2 w addr val := by
  unfold busWrite
  dsimp only
  cases ho : b.ram.flat.offset addr w.bytes with
  | some off =>
    refine .same rfl ?_
    cases hc : claimContext addr with
    | none => rfl
    | some ctx =>
      rw [claimContext_some hc, offset_claimAddr] at ho
      cases ho
  | none =>
    dsimp only
    cases hw : window PLIC_BASE PLIC_SIZE addr with
    | none =>
      cases hm : { b with jit := b.jit.noteStore addr }.mmioWrite addr (cut w val) with
      | none => exact .same rfl (claimContext_window hw)
      | some b' =>
        have hp := mmioWrite_plic hw hm
        exact .same hp (claimContext_window hw)
    | some off =>
      obtain ⟨htest, hclint⟩ := window_apart hw
      unfold mmioWrite
      rw [htest, hclint, hw]
      dsimp only
      have hwr := written b.plic off ((cut w val).setWidth 32)
      have hex : decide (∃ ctx : Fin 2, off.toNat = claimReg ctx) = (claimContext addr).isSome :=
        Bool.eq_iff_iff.2 (decide_eq_true_iff.trans (claim_exists_iff hw))
      have hcl := hwr.claimed
      simp only [hex] at hcl
      exact ⟨hwr.pending, hcl, hwr.sourceZero⟩

/-! ## Device lines -/

/-- The device of a source drives its line. -/
def Line (b : VirtBus) (i : ℕ) : Prop :=
  (i = UART_IRQ ∧ b.uart.irq = true) ∨ (i = GOLDFISH_RTC_IRQ ∧ b.rtc.irq = true) ∨
    ∃ j dev, b.virtio[j]? = some dev ∧ i = VIRTIO_IRQ_BASE + j ∧ dev.irqPending = true

theorem getLsbD_line (c : Bool) {n : ℕ} (hn : n < 32) (i : ℕ) :
    (if c then (1#32 <<< n) else (0 : U32)).getLsbD i = true ↔ i = n ∧ c = true := by
  cases c with
  | false => simp
  | true =>
    rw [if_pos rfl, ← BitVec.twoPow_eq, BitVec.getLsbD_twoPow, decide_eq_true hn, Bool.true_and, decide_eq_true_iff]
    exact ⟨fun h => ⟨h.symm, rfl⟩, fun h => h.1.symm⟩

theorem getLsbD_virtioLines (devs : List VirtioDev) (k : ℕ) (p : U32) {i : ℕ} (hi : i < 32) :
    ((devs.zipIdx k).foldl (fun p (dev, j) => if dev.irqPending then p ||| (1#32 <<< (VIRTIO_IRQ_BASE + j)) else p) p).getLsbD i = true ↔
      p.getLsbD i = true ∨ ∃ j dev, devs[j]? = some dev ∧ i = VIRTIO_IRQ_BASE + (k + j) ∧ dev.irqPending = true := by
  induction devs generalizing k p with
  | nil => simp
  | cons d ds ih =>
    rw [List.zipIdx_cons, List.foldl_cons, ih]
    have hbit : (if d.irqPending then p ||| (1#32 <<< (VIRTIO_IRQ_BASE + k)) else p).getLsbD i = true ↔
        p.getLsbD i = true ∨ (i = VIRTIO_IRQ_BASE + k ∧ d.irqPending = true) := by
      cases d.irqPending with
      | false => simp
      | true =>
        rw [if_pos rfl, BitVec.getLsbD_or, ← BitVec.twoPow_eq, BitVec.getLsbD_twoPow, Bool.or_eq_true, Bool.and_eq_true,
          decide_eq_true_iff, decide_eq_true_iff]
        refine or_congr_right ⟨fun h => ⟨h.2.symm, rfl⟩, fun h => ⟨?_, h.1.symm⟩⟩
        omega
    rw [hbit, or_assoc]
    refine or_congr_right ⟨?_, ?_⟩
    · rintro (⟨h, hp⟩ | ⟨j, dev, hd, h, hp⟩)
      · exact ⟨0, d, rfl, h, hp⟩
      · exact ⟨j + 1, dev, hd, by omega, hp⟩
    · rintro ⟨j, dev, hd, h, hp⟩
      cases j with
      | zero =>
        cases hd
        exact .inl ⟨h, hp⟩
      | succ j => exact .inr ⟨j, dev, hd, by omega, hp⟩

theorem getLsbD_sources (b : VirtBus) (i : ℕ) : b.sources.getLsbD i = true ↔ i < PLIC_SOURCES ∧ b.Line i := by
  by_cases hi : i < PLIC_SOURCES
  · have hi' : i < 32 := hi
    unfold sources Line
    dsimp only
    rw [getLsbD_virtioLines _ _ _ hi', BitVec.getLsbD_or, Bool.or_eq_true, getLsbD_line _ (by decide), getLsbD_line _ (by decide),
      or_assoc]
    simp only [Nat.zero_add, hi, true_and]
  · rw [BitVec.getLsbD_of_ge _ _ (by unfold PLIC_SOURCES at hi; omega)]
    exact ⟨fun h => (nomatch h), fun h => absurd h.1 hi⟩

/-- The hart's external interrupt line of a context. -/
def externalLine (ctx : Fin 2) : U64 := if ctx = 0 then IRQ_MEIP else IRQ_SEIP

theorem lines_external (b : VirtBus) (ctx : Fin 2) :
    b.lines &&& externalLine ctx ≠ 0 ↔ b.refreshPlic.plic.pendingCtx ctx = true := by
  unfold lines
  generalize (!b.directSbi && decide (b.mtime ≥ b.mtimecmp)) = t
  generalize b.msip = s
  have h : ∀ c0 c1 : Bool, ((if t then IRQ_MTIP else 0) ||| (if s then IRQ_MSIP else 0) ||| (if c0 then IRQ_MEIP else 0) |||
      (if c1 then IRQ_SEIP else 0)) &&& externalLine ctx ≠ 0 ↔ (if ctx = 0 then c0 else c1) = true := by
    revert t s ctx
    decide
  rw [h]
  rcases Fin.exists_fin_two.1 ⟨ctx, rfl⟩ with rfl | rfl <;> rfl

end VirtBus
end Lish
