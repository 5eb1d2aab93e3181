import Mathlib.Tactic.Abel
import Mathlib.Data.BitVec
import Lish.Core.Mmu
/-!
# PageTable — what the page tables say

The tables as a partial function from addresses to 64-bit words, and the translation they define in a permission context.
It does not depend on the accessed and dirty bits, reads the same entries for a whole page and moves a page as one block.
-/
namespace Lish

/-- The accessed and the dirty bit. -/
def adBits : U64 := 0xc0

/-- An entry without its accessed and dirty bits. -/
def adFree (pte : U64) : U64 := pte &&& ~~~adBits

/-- The words of the page tables; none where there is no memory. -/
abbrev Tables := U64 → Option U64

/-- Two words agree but for the accessed and dirty bits. -/
def AdEq (p q : Option U64) : Prop := p.map adFree = q.map adFree

namespace Tables

open Machine

/-! ## The walk -/

/-- The leaf for `va`, from a table of a level. -/
def leafAt (word : Tables) (va : U64) : (level : ℕ) → (table : U64) → Option Leaf
  | level, table =>
    match word (pteAddrAt table va level) with
    | none => none
    | some pte =>
      match entryOf pte, level with
      | .bad, _ => none
      | .table _, 0 => none
      | .table next, level + 1 => leafAt word va level next
      | .leaf, level => some ⟨pteAddrAt table va level, pte, level⟩

/-- The entries the walk reads. -/
def pathAt (word : Tables) (va : U64) : (level : ℕ) → (table : U64) → List U64
  | level, table =>
    pteAddrAt table va level :: match word (pteAddrAt table va level) with
    | none => []
    | some pte =>
      match entryOf pte, level with
      | .table next, level + 1 => pathAt word va level next
      | _, _ => []

/-- Levels of the paging mode of `satp`; none = reserved. -/
def levelsOf (satp : U64) : Option ℕ := if satp >>> 60 = 8 then some 3 else if satp >>> 60 = 9 then some 4 else none

def rootOf (satp : U64) : U64 := (satp &&& 0xfffffffffff) <<< 12

/-- High bits equal to the top translated bit. -/
def canonical (levels : ℕ) (va : U64) : Bool :=
  let ext := va.sshiftRight (9 * levels + 12 - 1)
  ext = 0 ∨ ext = BitVec.allOnes 64

/-- Effective mode of an access in a permission context. -/
def modeOf (ctx : U64) (access : Access) : Mode := Mode.fromBits (if access = .fetch then ctx else ctx >>> 2)

/-- The mode is not translated. -/
def bare (satp ctx : U64) (access : Access) : Bool := satp >>> 60 = 0 ∨ modeOf ctx access = .machine

/-- The physical address of `va` for an access in a context; none = fault. -/
def walk (word : Tables) (satp ctx : U64) (access : Access) (va : U64) : Option U64 :=
  if bare satp ctx access then some va
  else (levelsOf satp).bind fun levels =>
    if !canonical levels va then none
    else (leafAt word va (levels - 1) (rootOf satp)).bind fun leaf =>
      if leaf.allows (modeOf ctx access) (ctx.getLsbD 4) (ctx.getLsbD 5) access then some (leaf.pa va) else none

/-- The entries a translation depends on. -/
def path (word : Tables) (satp ctx : U64) (access : Access) (va : U64) : List U64 :=
  if bare satp ctx access then []
  else match levelsOf satp with
    | none => []
    | some levels => if !canonical levels va then [] else pathAt word va (levels - 1) (rootOf satp)

/-! ## Accessed and dirty bits -/

theorem adBits_bit : ∀ i : Fin 64, i ≠ 6 → i ≠ 7 → adBits.getLsbD i = false := by decide

theorem getLsbD_adFree (p : U64) {i : ℕ} (h6 : i ≠ 6) (h7 : i ≠ 7) : (adFree p).getLsbD i = p.getLsbD i := by
  unfold adFree
  by_cases hi : i < 64
  · rw [BitVec.getLsbD_and, BitVec.getLsbD_not, adBits_bit ⟨i, hi⟩ (by simpa [Fin.ext_iff] using h6)
      (by simpa [Fin.ext_iff] using h7)]
    simp [hi]
  · rw [BitVec.getLsbD_of_ge _ _ (not_lt.1 hi), BitVec.getLsbD_of_ge _ _ (not_lt.1 hi)]

theorem getLsbD_of_adFree {p q : U64} (h : adFree p = adFree q) {i : ℕ} (h6 : i ≠ 6) (h7 : i ≠ 7) :
    p.getLsbD i = q.getLsbD i := by
  rw [← getLsbD_adFree p h6 h7, h, getLsbD_adFree q h6 h7]

theorem ppn_of_adFree {p q : U64} (h : adFree p = adFree q) : p >>> 10 = q >>> 10 := by
  apply BitVec.eq_of_getLsbD_eq
  intro i _
  rw [BitVec.getLsbD_ushiftRight, BitVec.getLsbD_ushiftRight]
  exact getLsbD_of_adFree h (by omega) (by omega)

theorem entryOf_of_adFree {p q : U64} (h : adFree p = adFree q) : entryOf p = entryOf q := by
  unfold entryOf pteV pteR pteW pteX nextTable
  rw [ppn_of_adFree h, getLsbD_of_adFree h (i := 0) (by decide) (by decide),
    getLsbD_of_adFree h (i := 1) (by decide) (by decide), getLsbD_of_adFree h (i := 2) (by decide) (by decide),
    getLsbD_of_adFree h (i := 3) (by decide) (by decide)]

theorem allows_of_adFree {l k : Leaf} (hl : l.level = k.level) (h : adFree l.pte = adFree k.pte) (mode : Mode)
    (sum mxr : Bool) (access : Access) : l.allows mode sum mxr access = k.allows mode sum mxr access := by
  unfold Leaf.allows pteU pteR pteW pteX
  rw [hl, ppn_of_adFree h, getLsbD_of_adFree h (i := 4) (by decide) (by decide),
    getLsbD_of_adFree h (i := 3) (by decide) (by decide), getLsbD_of_adFree h (i := 1) (by decide) (by decide),
    getLsbD_of_adFree h (i := 2) (by decide) (by decide)]

theorem pa_of_adFree {l k : Leaf} (hl : l.level = k.level) (h : adFree l.pte = adFree k.pte) (va : U64) :
    l.pa va = k.pa va := by
  unfold Leaf.pa
  rw [hl, ppn_of_adFree h]

/-- Two leaves agree but for the accessed and dirty bits. -/
def LeafEq : Option Leaf → Option Leaf → Prop
  | none, none => True
  | some l, some k => l.level = k.level ∧ adFree l.pte = adFree k.pte
  | _, _ => False

variable {word word' : Tables}

theorem adEq_some {p : U64} {o : Option U64} (h : AdEq o (some p)) : ∃ q, o = some q ∧ adFree q = adFree p :=
  Option.map_eq_some_iff.1 h

/-- **The walk ignores accessed and dirty bits**, and reads the same entries. -/
theorem leafAt_congr (va : U64) (level : ℕ) (table : U64)
    (h : ∀ a ∈ pathAt word va level table, AdEq (word' a) (word a)) :
    LeafEq (leafAt word' va level table) (leafAt word va level table) ∧
      pathAt word' va level table = pathAt word va level table := by
  induction level generalizing table with
  | zero =>
    have h0 := h (pteAddrAt table va 0) (by rw [pathAt]; exact List.mem_cons_self ..)
    rw [leafAt, leafAt, pathAt, pathAt]
    cases hw : word (pteAddrAt table va 0) with
    | none =>
      rw [hw] at h0
      rw [Option.map_eq_none_iff.1 h0]
      exact ⟨trivial, rfl⟩
    | some p =>
      rw [hw] at h0
      obtain ⟨q, hq, hpq⟩ := adEq_some h0
      rw [hq]
      dsimp only
      rw [entryOf_of_adFree hpq]
      cases entryOf p with
      | bad => exact ⟨trivial, rfl⟩
      | table next => exact ⟨trivial, rfl⟩
      | leaf => exact ⟨⟨rfl, hpq⟩, rfl⟩
  | succ level ih =>
    have h0 := h (pteAddrAt table va (level + 1)) (by rw [pathAt]; exact List.mem_cons_self ..)
    rw [leafAt, leafAt, pathAt, pathAt]
    rw [pathAt] at h
    cases hw : word (pteAddrAt table va (level + 1)) with
    | none =>
      rw [hw] at h0
      rw [Option.map_eq_none_iff.1 h0]
      exact ⟨trivial, rfl⟩
    | some p =>
      rw [hw] at h h0
      obtain ⟨q, hq, hpq⟩ := adEq_some h0
      rw [hq]
      dsimp only at h ⊢
      rw [entryOf_of_adFree hpq]
      cases he : entryOf p with
      | bad => exact ⟨trivial, rfl⟩
      | table next =>
        rw [he] at h
        obtain ⟨h1, h2⟩ := ih next fun a ha => h a (List.mem_cons_of_mem _ ha)
        exact ⟨h1, congrArg _ h2⟩
      | leaf => exact ⟨⟨rfl, hpq⟩, rfl⟩

variable {satp ctx : U64} {access : Access} {va : U64}

/-- **A translation depends on its path only**, up to accessed and dirty bits. -/
theorem walk_congr (h : ∀ a ∈ path word satp ctx access va, AdEq (word' a) (word a)) :
    walk word' satp ctx access va = walk word satp ctx access va := by
  unfold path at h
  unfold walk
  by_cases hb : bare satp ctx access = true
  · rw [if_pos hb, if_pos hb]
  · rw [if_neg hb] at h
    rw [if_neg hb, if_neg hb]
    cases hl : levelsOf satp with
    | none => rfl
    | some levels =>
      rw [hl] at h
      dsimp only [Option.bind_some] at h ⊢
      by_cases hc : (!canonical levels va) = true
      · rw [if_pos hc, if_pos hc]
      · rw [if_neg hc] at h
        rw [if_neg hc, if_neg hc]
        have hle := (leafAt_congr va (levels - 1) (rootOf satp) h).1
        revert hle
        cases leafAt word' va (levels - 1) (rootOf satp) with
        | none =>
          cases leafAt word va (levels - 1) (rootOf satp) with
          | none => exact fun _ => rfl
          | some k => exact False.elim
        | some l =>
          cases leafAt word va (levels - 1) (rootOf satp) with
          | none => exact False.elim
          | some k =>
            rintro ⟨hlev, hpte⟩
            dsimp only [Option.bind_some]
            rw [allows_of_adFree hlev hpte, pa_of_adFree hlev hpte]

/-! ## One page -/

/-- Two addresses lie on one 4 KiB page. -/
def SamePage (va va' : U64) : Prop := va >>> 12 = va' >>> 12

theorem SamePage.bit {va va' : U64} (h : SamePage va va') {i : ℕ} (hi : 12 ≤ i) : va.getLsbD i = va'.getLsbD i := by
  have hb := congrArg (fun x : U64 => x.getLsbD (i - 12)) h
  simp only [BitVec.getLsbD_ushiftRight] at hb
  rwa [show 12 + (i - 12) = i by omega] at hb

theorem SamePage.ushiftRight {va va' : U64} (h : SamePage va va') {k : ℕ} (hk : 12 ≤ k) : va >>> k = va' >>> k := by
  apply BitVec.eq_of_getLsbD_eq
  intro i _
  rw [BitVec.getLsbD_ushiftRight, BitVec.getLsbD_ushiftRight]
  exact h.bit (by omega)

theorem SamePage.canonical {va va' : U64} (h : SamePage va va') {levels : ℕ} (hl : 1 ≤ levels) :
    canonical levels va = canonical levels va' := by
  have hs : va.sshiftRight (9 * levels + 12 - 1) = va'.sshiftRight (9 * levels + 12 - 1) := by
    apply BitVec.eq_of_getLsbD_eq
    intro i _
    rw [BitVec.getLsbD_sshiftRight, BitVec.getLsbD_sshiftRight, BitVec.msb_eq_getLsbD_last, BitVec.msb_eq_getLsbD_last,
      h.bit (i := 9 * levels + 12 - 1 + i) (by omega), h.bit (i := 64 - 1) (by decide)]
  unfold Tables.canonical
  rw [hs]

theorem SamePage.pteAddrAt {va va' : U64} (h : SamePage va va') (table : U64) (level : ℕ) :
    pteAddrAt table va level = pteAddrAt table va' level := by
  unfold Machine.pteAddrAt
  rw [h.ushiftRight (by omega)]

theorem SamePage.leafAt {va va' : U64} (h : SamePage va va') (word : Tables) (level : ℕ) (table : U64) :
    leafAt word va level table = leafAt word va' level table ∧ pathAt word va level table = pathAt word va' level table := by
  induction level generalizing table with
  | zero =>
    rw [Tables.leafAt, Tables.leafAt, pathAt, pathAt, h.pteAddrAt]
    cases word (Machine.pteAddrAt table va' 0) with
    | none => exact ⟨rfl, rfl⟩
    | some p =>
      dsimp only
      cases entryOf p with
      | bad => exact ⟨rfl, rfl⟩
      | table next => exact ⟨rfl, rfl⟩
      | leaf => exact ⟨by dsimp only; rw [h.pteAddrAt], rfl⟩
  | succ level ih =>
    rw [Tables.leafAt, Tables.leafAt, pathAt, pathAt, h.pteAddrAt]
    cases word (Machine.pteAddrAt table va' (level + 1)) with
    | none => exact ⟨rfl, rfl⟩
    | some p =>
      dsimp only
      cases entryOf p with
      | bad => exact ⟨rfl, rfl⟩
      | table next => exact ⟨(ih next).1, congrArg _ (ih next).2⟩
      | leaf => exact ⟨by dsimp only; rw [h.pteAddrAt], rfl⟩

/-- An address is its part above a mask and its part below. -/
theorem add_masked (x y mask : U64) : (x &&& ~~~mask) ||| (y &&& mask) = (x &&& ~~~mask) + (y &&& mask) := by
  rw [BitVec.add_eq_or_of_and_eq_zero]
  apply BitVec.eq_of_getLsbD_eq
  intro i _
  simp only [BitVec.getLsbD_and, BitVec.getLsbD_not, BitVec.getLsbD_zero]
  cases x.getLsbD i <;> cases y.getLsbD i <;> cases mask.getLsbD i <;> simp

theorem lowMask_bit {k i : ℕ} (hi : i < 64) (hik : i < k) : (1#64 <<< k - 1).getLsbD i = true := by
  by_cases hk : k < 64
  · have hlt : 2 ^ k < 2 ^ 64 := Nat.pow_lt_pow_right (by decide) hk
    have hpos := Nat.two_pow_pos k
    have hn : (1#64 <<< k - 1).toNat = 2 ^ k - 1 := by
      have h1 : (1#64 <<< k).toNat = 2 ^ k := by
        rw [BitVec.toNat_shiftLeft, Nat.shiftLeft_eq]
        simpa using Nat.mod_eq_of_lt hlt
      rw [BitVec.toNat_sub_of_le (by rw [BitVec.le_def, h1]; exact hpos), h1]
      rfl
    rw [BitVec.getLsbD, hn, Nat.testBit_two_pow_sub_one, decide_eq_true_eq]
    exact hik
  · rw [BitVec.shiftLeft_eq_zero (not_lt.1 hk)]
    rw [show (0#64 - 1 : U64) = BitVec.allOnes 64 from rfl, BitVec.getLsbD_allOnes, decide_eq_true_eq]
    exact hi

/-- **A page moves as one block.** -/
theorem SamePage.pa {va va' : U64} (h : SamePage va va') (leaf : Leaf) : leaf.pa va' = va' + (leaf.pa va - va) := by
  unfold Leaf.pa
  dsimp only
  have hlow : ∀ i < 12, (1#64 <<< (12 + 9 * leaf.level) - 1).getLsbD i = true := fun i hi =>
    lowMask_bit (by omega) (by omega)
  generalize 1#64 <<< (12 + 9 * leaf.level) - 1 = mask at hlow ⊢
  have hself : ∀ x : U64, x = (x &&& ~~~mask) + (x &&& mask) := fun x => by
    rw [← add_masked]
    apply BitVec.eq_of_getLsbD_eq
    intro i hi
    simp only [BitVec.getLsbD_or, BitVec.getLsbD_and, BitVec.getLsbD_not, hi, decide_true, Bool.true_and]
    cases x.getLsbD i <;> cases mask.getLsbD i <;> rfl
  have hhigh : va' &&& ~~~mask = va &&& ~~~mask := by
    apply BitVec.eq_of_getLsbD_eq
    intro i hi
    simp only [BitVec.getLsbD_and, BitVec.getLsbD_not]
    by_cases h12 : i < 12
    · rw [hlow i h12]; simp
    · rw [h.bit (not_lt.1 h12)]
  rw [add_masked, add_masked]
  generalize leaf.pte >>> 10 <<< 12 &&& ~~~mask = base
  have h1 := hself va
  have h2 := hself va'
  rw [hhigh] at h2
  generalize va &&& mask = low at *
  generalize va' &&& mask = low' at *
  generalize va &&& ~~~mask = high at *
  rw [h1, h2]
  abel

theorem SamePage.walk {va va' : U64} (h : SamePage va va') (word : Tables) (satp ctx : U64) (access : Access) {pa : U64}
    (hw : walk word satp ctx access va = some pa) : walk word satp ctx access va' = some (va' + (pa - va)) := by
  unfold Tables.walk at hw ⊢
  by_cases hb : bare satp ctx access = true
  · rw [if_pos hb] at hw ⊢
    cases hw
    simp
  · rw [if_neg hb] at hw ⊢
    cases hl : levelsOf satp with
    | none => rw [hl] at hw; cases hw
    | some levels =>
      have hlev : 1 ≤ levels := by
        unfold levelsOf at hl
        split_ifs at hl <;> cases hl <;> decide
      rw [hl] at hw
      dsimp only [Option.bind_some] at hw ⊢
      rw [← h.canonical hlev, ← (h.leafAt word _ _).1]
      split_ifs at hw ⊢ with hc
      obtain ⟨leaf, hleaf, hpa⟩ := Option.bind_eq_some_iff.1 hw
      rw [hleaf]
      dsimp only [Option.bind_some]
      split_ifs at hpa ⊢ with ha
      cases hpa
      rw [h.pa leaf]

theorem SamePage.path {va va' : U64} (h : SamePage va va') (word : Tables) (satp ctx : U64) (access : Access) :
    path word satp ctx access va = path word satp ctx access va' := by
  unfold Tables.path
  cases hl : levelsOf satp with
  | none => rfl
  | some levels =>
    have hlev : 1 ≤ levels := by
      unfold levelsOf at hl
      split_ifs at hl <;> cases hl <;> decide
    dsimp only
    rw [h.canonical hlev, (h.leafAt word _ _).2]

end Tables
end Lish
