import Lish.Jit.Translate
/-!
# TraceScan — the two walks over a trace

The first walk takes every step that the second one takes, and has marked the registers that the second one needs.
-/
namespace Lish

open Wasm

theorem bit_eq_twoPow (r : Fin 32) : (1 : U32) <<< r.val = BitVec.twoPow 32 r.val := rfl

theorem and_bit {m : U32} {r : Fin 32} : m &&& ((1 : U32) <<< r.val) ≠ 0 ↔ m.getLsbD r.val = true := by
  have hr := r.isLt
  rw [bit_eq_twoPow, BitVec.and_twoPow]
  constructor
  · intro h
    by_contra hb
    exact h (if_neg hb)
  · intro h h0
    rw [if_pos h] at h0
    have hbit := congrArg (fun v : U32 => v.getLsbD r.val) h0
    simp [hr] at hbit

theorem getLsbD_set (m : U32) (d r : Fin 32) : (m ||| ((1 : U32) <<< d.val)).getLsbD r.val =
    (m.getLsbD r.val || decide (r = d)) := by
  have hr := r.isLt
  rw [BitVec.getLsbD_or, bit_eq_twoPow, BitVec.getLsbD_twoPow]
  simp [Fin.ext_iff, eq_comm, hr]

theorem mem_maskRegs {m : U32} {r : Fin 32} : r ∈ maskRegs m ↔ m.getLsbD r.val = true := by
  unfold maskRegs
  rw [List.mem_filter, decide_eq_true_eq, and_bit]
  exact ⟨And.right, fun h => ⟨List.mem_finRange r, h⟩⟩

/-! ## Marks -/

/-- A mask has the registers of another one. -/
def HasRegs (m m' : U32) : Prop := ∀ r : Fin 32, m'.getLsbD r.val = true → m.getLsbD r.val = true

theorem mark_covers (m : U32) (r : Fin 32) : HasRegs (mark m r) m := by
  intro q hq
  unfold mark
  split_ifs
  · exact hq
  · rw [getLsbD_set, hq]
    rfl

theorem mark_self (m : U32) {r : Fin 32} (h : r ≠ 0) : (mark m r).getLsbD r.val = true := by
  unfold mark
  rw [if_neg h, getLsbD_set]
  simp

namespace Scan

/-- A later point of the walk. -/
structure Le (s s' : Scan) : Prop where
  read : HasRegs s'.read s.read
  write : HasRegs s'.write s.write

variable {s s' s'' : Scan}

theorem Le.refl (s : Scan) : s.Le s := ⟨fun _ h => h, fun _ h => h⟩

theorem Le.trans (h : s.Le s') (h' : s'.Le s'') : s.Le s'' :=
    ⟨fun r hr => h'.read r (h.read r hr), fun r hr => h'.write r (h.write r hr)⟩

theorem le_reads (r : Fin 32) : s.Le (s.reads r) := ⟨mark_covers s.read r, fun _ h => h⟩

theorem le_writes (r : Fin 32) : s.Le (s.writes r) := ⟨fun _ h => h, mark_covers s.write r⟩

theorem Le.reads (h : s.Le s') (r : Fin 32) : s.Le (s'.reads r) := h.trans (le_reads r)

theorem Le.writes (h : s.Le s') (r : Fin 32) : s.Le (s'.writes r) := h.trans (le_writes r)

theorem Le.moves (h : s.Le s') (facts : TraceFacts) (pc : U64) : s.Le (s'.moves facts pc) := ⟨h.read, h.write⟩

theorem Le.enters (h : s.Le s') (target : U64) : s.Le (s'.enters target) := ⟨h.read, h.write⟩

/-- The registers that the walk has marked as read. -/
def HasRead (s : Scan) (r : Fin 32) : Prop := r = 0 ∨ s.read.getLsbD r.val = true

def HasWrite (s : Scan) (r : Fin 32) : Prop := r = 0 ∨ s.write.getLsbD r.val = true

theorem hasRead_reads (r : Fin 32) : (s.reads r).HasRead r := by
  by_cases h : r = 0
  · exact Or.inl h
  · exact Or.inr (mark_self _ h)

theorem hasWrite_writes (r : Fin 32) : (s.writes r).HasWrite r := by
  by_cases h : r = 0
  · exact Or.inl h
  · exact Or.inr (mark_self _ h)

theorem HasRead.le {r : Fin 32} (h : s.HasRead r) (hl : s.Le s') : s'.HasRead r := h.imp_right (hl.read r)

theorem HasWrite.le {r : Fin 32} (h : s.HasWrite r) (hl : s.Le s') : s'.HasWrite r := h.imp_right (hl.write r)

end Scan

/-- The walk after an instruction, whether it goes on or not. -/
def Pace.after {α : Type} : Pace α α → α
  | .go a => a
  | .stop a => a

section

variable (w : CodeWindow) (hot : U64 → Bool) (next : U64 → Option U64) (cfg : TranslationConfig)

open Scan

theorem scanInsn_le (insn : U32) (ilen : U64) (s : Scan) : s.Le (scanInsn w hot next cfg insn ilen s).after := by
  unfold scanInsn
  dsimp only
  split
  · exact (le_writes _).moves _ _
  · exact (le_writes _).moves _ _
  · exact ((le_reads _).writes _).moves _ _
  · split_ifs
    · exact (((le_reads _).reads _).writes _).moves _ _
    · exact .refl s
  · split_ifs
    · exact ((le_reads _).writes _).moves _ _
    · exact .refl s
  · split_ifs
    · exact (((le_reads _).reads _).writes _).moves _ _
    · exact .refl s
  · split_ifs
    · exact (le_writes _).moves _ _
    · exact le_writes _
  · split_ifs
    · exact .refl s
    · split
      · split
        · exact (le_reads _).moves _ _
        · exact (Le.refl s).moves _ _
      · split
        · exact (((le_reads _).writes _).moves _ _).enters _
        · exact (le_reads _).writes _
  · split_ifs
    · exact (le_reads _).reads _
    · exact ((le_reads _).reads _).moves _ _
    · exact ((le_reads _).reads _).moves _ _
    · exact .refl s
  · exact .refl s

theorem scanLoop_le (k : ℕ) (s : Scan) : s.Le (scanLoop w hot next cfg k s) := by
  induction k generalizing s with
  | zero => exact .refl s
  | succ k ih =>
    rw [scanLoop]
    split_ifs
    · exact .refl s
    · split
      · exact .refl s
      · have h := scanInsn_le w hot next cfg ‹_› ‹_› s
        split
        · rename_i hgo
          rw [hgo] at h
          exact h.trans (ih _)
        · rename_i hstop
          rwa [hstop] at h

end

end Lish
