import Mathlib.Data.List.TakeWhile
import Mathlib.Data.BitVec
/-!
# ByteReader — what stands at a position of a block of bytes

Slices, big-endian words and zero-terminated strings at a position, and bytes of which the position is known.
-/
namespace Lish

namespace ByteReader

abbrev Bytes := List (BitVec 8)

def sliceAt (block : Bytes) (pos len : ℕ) : Option Bytes :=
  if pos + len ≤ block.length then some ((block.drop pos).take len) else none

def beValue (bytes : Bytes) : ℕ := bytes.foldl (fun v b => 256 * v + b.toNat) 0

def beWordAt (block : Bytes) (pos : ℕ) : Option ℕ := (sliceAt block pos 4).map beValue

/-- The bytes up to a zero. -/
def stringAt (block : Bytes) (pos : ℕ) : Option Bytes :=
  if 0 ∈ block.drop pos then some ((block.drop pos).takeWhile fun b => b ≠ 0) else none

def alignUp (n align : ℕ) : ℕ := (n + (align - 1)) / align * align

/-- Some bytes stand at a position of a block. -/
def Stands (block : Bytes) (pos : ℕ) (bytes : Bytes) : Prop := ∃ pre post, block = pre ++ (bytes ++ post) ∧ pre.length = pos

variable {block bytes more : Bytes} {pos : ℕ}

namespace Stands

theorem whole (block : Bytes) : Stands block 0 block := ⟨[], [], by rw [List.append_nil, List.nil_append], rfl⟩

theorem left (h : Stands block pos (bytes ++ more)) : Stands block pos bytes := by
  obtain ⟨pre, post, rfl, hpos⟩ := h
  exact ⟨pre, more ++ post, by rw [List.append_assoc], hpos⟩

theorem right (h : Stands block pos (bytes ++ more)) : Stands block (pos + bytes.length) more := by
  obtain ⟨pre, post, rfl, rfl⟩ := h
  exact ⟨pre ++ bytes, post, by rw [List.append_assoc, List.append_assoc], List.length_append⟩

/-- What follows a block moves nothing in it. -/
theorem extend (h : Stands block pos bytes) (more : Bytes) : Stands (block ++ more) pos bytes := by
  obtain ⟨pre, post, rfl, hpos⟩ := h
  exact ⟨pre, post ++ more, by rw [List.append_assoc, List.append_assoc], hpos⟩

theorem end_le (h : Stands block pos bytes) : pos + bytes.length ≤ block.length := by
  obtain ⟨pre, post, rfl, rfl⟩ := h
  rw [List.length_append, List.length_append]
  omega

theorem drop (h : Stands block pos bytes) : ∃ post, block.drop pos = bytes ++ post := by
  obtain ⟨pre, post, rfl, rfl⟩ := h
  exact ⟨post, List.drop_left⟩

theorem sliceAt (h : Stands block pos bytes) : sliceAt block pos bytes.length = some bytes := by
  obtain ⟨post, hdrop⟩ := h.drop
  unfold ByteReader.sliceAt
  rw [if_pos h.end_le, hdrop, List.take_left]

theorem beWordAt (h : Stands block pos bytes) (hlen : bytes.length = 4) : beWordAt block pos = some (beValue bytes) := by
  unfold ByteReader.beWordAt
  rw [← hlen, h.sliceAt]
  rfl

theorem stringAt (h : Stands block pos (bytes ++ [0])) (hzero : 0 ∉ bytes) : stringAt block pos = some bytes := by
  obtain ⟨post, hdrop⟩ := h.drop
  have hne : ∀ b ∈ bytes, decide (b ≠ 0) = true := fun b hb => decide_eq_true fun h0 => hzero (h0 ▸ hb)
  unfold ByteReader.stringAt
  rw [hdrop, if_pos (by simp), List.append_assoc, List.takeWhile_append_of_pos hne]
  simp

end Stands

end ByteReader
end Lish
