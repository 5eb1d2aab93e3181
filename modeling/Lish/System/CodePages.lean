import Mathlib.Data.List.Basic
import Lish.System.CodeCache
/-!
# CodePages — what the cache of decoded pages holds

A cache is built by lookups from an empty one.  The blocks it answers are never empty.
-/
namespace Lish

/-- The caches there are: the empty one, and what lookups make of it. -/
inductive CodePageCache.Built : CodePageCache → Prop
  | new : Built .new
  | block {c : CodePageCache} (h : Built c) (ram : FlatMemory) (physical icacheGen : U64) :
      Built (c.block ram physical icacheGen).2

namespace DecodedCodePage

/-- Every indexed block has an instruction. -/
def Filled (p : DecodedCodePage) : Prop := ∀ slot start len, (p.blocks slot).range = some (start, len) → 0 < len

theorem filled_new (physicalPage icacheGen : U64) : (new physicalPage icacheGen).Filled := nofun

theorem indexBlock_filled {blocks : ℕ → CachedBlock} (h : ∀ slot start len, (blocks slot).range = some (start, len) → 0 < len)
    (start : ℕ) (decoded : List (ℕ × DecodedInsn)) :
    ∀ slot start' len, (indexBlock blocks start decoded slot).range = some (start', len) → 0 < len := by
  induction decoded generalizing blocks start with
  | nil => exact h
  | cons d rest ih =>
    refine ih (fun slot start' len hr => ?_) (start + 1)
    split_ifs at hr
    · cases hr
      exact Nat.succ_pos _
    · exact h slot start' len hr

theorem makeRoom_filled {p : DecodedCodePage} (h : p.Filled) : p.makeRoom.Filled := by
  unfold makeRoom
  split_ifs
  · exact nofun
  · exact h

theorem slice_length {p : DecodedCodePage} {start len : ℕ} {insns : List DecodedInsn} (h : p.slice start len = some insns) :
    insns.length = len := by
  unfold slice at h
  split_ifs at h
  cases h
  rw [List.length_take, List.length_drop]
  omega

/-- A lookup answers no empty block, and leaves a filled page. -/
theorem block_filled {p : DecodedCodePage} (h : p.Filled) (ram : FlatMemory) (pageOffset : ℕ) :
    (p.block ram pageOffset).2.Filled ∧ ∀ insns, (p.block ram pageOffset).1 = some insns → insns ≠ [] := by
  unfold block
  rcases hr : (p.blocks (pageOffset / 2)).range with _ | ⟨start, len⟩
  · dsimp only
    have hroom := makeRoom_filled h
    cases ram.offset p.makeRoom.physicalPage 0x1000 with
    | none => exact ⟨hroom, nofun⟩
    | some base =>
      dsimp only
      split_ifs with hd
      · exact ⟨hroom, nofun⟩
      · refine ⟨indexBlock_filled hroom _ _, fun insns hi => ?_⟩
        cases hi
        simpa using hd
  · refine ⟨h, fun insns hi hnil => ?_⟩
    have hlen := slice_length hi
    have hpos := h _ _ _ hr
    rw [hnil, List.length_nil] at hlen
    omega

end DecodedCodePage

namespace CodePageCache

def Filled (c : CodePageCache) : Prop := ∀ i p, c.pages i = some p → p.Filled

theorem pageFor_filled {c : CodePageCache} (h : c.Filled) (physicalPage icacheGen : U64) :
    (c.pageFor physicalPage icacheGen).Filled := by
  unfold pageFor
  cases hp : c.pages (slot physicalPage) with
  | none => exact DecodedCodePage.filled_new _ _
  | some p =>
    dsimp only
    split_ifs
    · exact DecodedCodePage.filled_new _ _
    · exact h _ _ hp

theorem block_filled {c : CodePageCache} (h : c.Filled) (ram : FlatMemory) (physical icacheGen : U64) :
    (c.block ram physical icacheGen).2.Filled ∧ ∀ insns, (c.block ram physical icacheGen).1 = some insns → insns ≠ [] := by
  unfold block
  dsimp only
  split_ifs
  · exact ⟨h, nofun⟩
  · obtain ⟨h1, h2⟩ := DecodedCodePage.block_filled (pageFor_filled h (physical &&& ~~~0xfff) icacheGen) ram
      (physical &&& 0xfff).toNat
    refine ⟨fun i p hp => ?_, h2⟩
    dsimp only at hp
    split_ifs at hp
    · cases hp
      exact h1
    · exact h i p hp

theorem Built.filled {c : CodePageCache} (h : c.Built) : c.Filled := by
  induction h with
  | new => exact nofun
  | block _ ram physical icacheGen ih => exact (block_filled ih ram physical icacheGen).1

end CodePageCache
end Lish
