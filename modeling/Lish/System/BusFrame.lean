import Lish.Core.Frame
import Lish.System.VirtMachine
/-!
# BusFrame — what accesses leave alone on the machine's bus

No access moves the clock, the extent of RAM or the wiring of the machine.
-/
namespace Lish
namespace VirtBus

/-- Clock, extent of RAM and wiring are the same; what hangs stays so. -/
structure Steady (b b' : VirtBus) : Prop where
  mtime : b'.mtime = b.mtime
  directSbi : b'.directSbi = b.directSbi
  len : b'.ram.len = b.ram.len
  ptr : b'.ram.ptr = b.ram.ptr
  passes : b'.passes = b.passes
  devices : b'.virtio.length = b.virtio.length
  hung : b.hung = true → b'.hung = true

theorem Steady.refl (b : VirtBus) : Steady b b := ⟨rfl, rfl, rfl, rfl, rfl, rfl, id⟩

theorem Steady.trans {b b' b'' : VirtBus} (h : Steady b b') (h' : Steady b' b'') : Steady b b'' :=
  ⟨h'.mtime.trans h.mtime, h'.directSbi.trans h.directSbi, h'.len.trans h.len, h'.ptr.trans h.ptr, h'.passes.trans h.passes,
    h'.devices.trans h.devices, fun hh => h'.hung (h.hung hh)⟩

theorem steady_processQueue (b : VirtBus) (i qi : ℕ) : Steady b (b.processQueue i qi) := by
  unfold processQueue
  cases b.virtio[i]? with
  | none => exact .refl b
  | some dev =>
    dsimp only
    rcases dev.process b.passes qi b.dma with _ | ⟨dev', m⟩
    · exact ⟨rfl, rfl, rfl, rfl, rfl, rfl, fun _ => rfl⟩
    · exact ⟨rfl, rfl, rfl, rfl, rfl, List.length_set, id⟩

theorem steady_pollVirtio (b : VirtBus) : Steady b b.pollVirtio := by
  unfold pollVirtio
  generalize List.range b.virtio.length = is
  induction is generalizing b with
  | nil => exact .refl b
  | cons i is ih => exact ((steady_processQueue b i 0).trans (steady_processQueue _ i 1)).trans (ih _)

theorem steady_mmioRead (b : VirtBus) (addr : U64) (size : ℕ) : Steady b (b.mmioRead addr size).2 := by
  unfold mmioRead
  split <;> exact ⟨rfl, rfl, rfl, rfl, rfl, rfl, id⟩

theorem steady_virtioWrite (b : VirtBus) (i : ℕ) (off : U64) (val : U32) : Steady b (b.virtioWrite i off val) := by
  unfold virtioWrite
  cases b.virtio[i]? with
  | none => exact .refl b
  | some dev =>
    dsimp only
    have hset : ∀ dev, Steady b { b with virtio := b.virtio.set i dev } :=
      fun dev => ⟨rfl, rfl, rfl, rfl, rfl, List.length_set, id⟩
    rcases dev.write off val with ⟨_ | q, dev'⟩
    · exact hset dev'
    · exact (hset dev').trans (steady_processQueue _ i q.toNat)

theorem steady_mmioWrite {b b' : VirtBus} {addr val : U64} (h : b.mmioWrite addr val = some b') : Steady b b' := by
  unfold mmioWrite at h
  split at h
  · cases h
    unfold testWrite
    dsimp only
    split_ifs <;> exact ⟨rfl, rfl, rfl, rfl, rfl, rfl, id⟩
  · cases h
    unfold clintWrite
    split <;> exact ⟨rfl, rfl, rfl, rfl, rfl, rfl, id⟩
  · cases h
    exact ⟨rfl, rfl, rfl, rfl, rfl, rfl, id⟩
  · cases h
    exact ⟨rfl, rfl, rfl, rfl, rfl, rfl, id⟩
  · cases h
    exact ⟨rfl, rfl, rfl, rfl, rfl, rfl, id⟩
  · cases h
    exact steady_virtioWrite _ _ _ _
  · cases h

theorem steady_busRead (w : Width) (b : VirtBus) (addr : U64) : Steady b (busRead w b addr).2 := by
  unfold busRead
  cases b.ram.flat.offset addr w.bytes with
  | some off => exact .refl b
  | none =>
    have h := steady_mmioRead b addr w.bytes
    rcases hr : b.mmioRead addr w.bytes with ⟨_ | v, b'⟩ <;> rw [hr] at h <;> exact h

theorem steady_busWrite (w : Width) (b : VirtBus) (addr val : U64) : Steady b (busWrite w b addr val).2 := by
  unfold busWrite
  dsimp only
  cases b.ram.flat.offset addr w.bytes with
  | some off => exact ⟨rfl, rfl, rfl, rfl, rfl, rfl, id⟩
  | none =>
    dsimp only
    cases h : { b with jit := b.jit.noteStore addr }.mmioWrite addr (cut w val) with
    | none => exact ⟨rfl, rfl, rfl, rfl, rfl, rfl, id⟩
    | some b' =>
      exact (show Steady b { b with jit := b.jit.noteStore addr } from ⟨rfl, rfl, rfl, rfl, rfl, rfl, id⟩).trans (steady_mmioWrite h)

/-- **Every access** of the hart leaves them alone. -/
theorem busRel_steady : BusRel Steady where
  refl := .refl
  trans _ _ _ := .trans
  read := steady_busRead
  write := steady_busWrite
  fetch16 b addr := by
    have h := steady_busRead .w2 b addr
    rcases hr : busRead .w2 b addr with ⟨e | v, b'⟩ <;> rw [hr] at h <;>
      simp only [Bus.fetch16, hr] <;> exact h
  fetch32IfSafe b _ := .refl b
  irqLines _ := ⟨rfl, rfl, rfl, rfl, rfl, rfl, id⟩

end VirtBus
end Lish
