import Lish.System.DmaMemory
import Lish.System.VirtMachine
import Mathlib.Algebra.BigOperators.Group.Finset.Basic
import Mathlib.Algebra.Order.BigOperators.Group.Finset
/-!
# Dtb — the flattened device tree of the machine

The builder of a device-tree blob, the calls that describe the machine, and how long the blob is.
-/
namespace Lish

/-- `to_be_bytes`. -/
def beBytes (v : U64) (n : ℕ) : List U8 := (Dma.leBytes v n).reverse

def be32 (v : U32) : List U8 := beBytes (v.setWidth 64) 4

structure Fdt where
  struct_ : List U8
  strings : List U8
  /-- The offset of a property name in the strings. -/
  names : List (List U8 × U32)

def FDT_BEGIN_NODE : U32 := 1
def FDT_END_NODE : U32 := 2
def FDT_PROP : U32 := 3
def FDT_END : U32 := 9

/-- Zeros up to the next multiple of four. -/
def padded (bytes : List U8) : List U8 := bytes ++ List.replicate ((4 - bytes.length % 4) % 4) 0

namespace Fdt

def new : Fdt := ⟨[], [], []⟩

def u32 (f : Fdt) (v : U32) : Fdt := { f with struct_ := f.struct_ ++ be32 v }

def nameOffset (f : Fdt) (name : List U8) : U32 × Fdt :=
  match f.names.find? fun e => e.1 = name with
  | some e => (e.2, f)
  | none =>
    let off := BitVec.ofNat 32 f.strings.length
    (off, { f with strings := f.strings ++ name ++ [0], names := f.names ++ [(name, off)] })

def beginNode (f : Fdt) (name : List U8) : Fdt :=
  let f := f.u32 FDT_BEGIN_NODE
  { f with struct_ := padded (f.struct_ ++ name ++ [0]) }

def endNode (f : Fdt) : Fdt := f.u32 FDT_END_NODE

def prop (f : Fdt) (name data : List U8) : Fdt :=
  let r := f.nameOffset name
  let f := ((r.2.u32 FDT_PROP).u32 (BitVec.ofNat 32 data.length)).u32 r.1
  { f with struct_ := padded (f.struct_ ++ data) }

def finish (f : Fdt) : List U8 :=
  let f := f.u32 FDT_END
  let headerLen := 40
  let rsvmapLen := 16 -- one empty entry
  let offStruct := headerLen + rsvmapLen
  let offStrings := offStruct + f.struct_.length
  let total := offStrings + f.strings.length
  [0xd00dfeed, BitVec.ofNat 32 total, BitVec.ofNat 32 offStruct, BitVec.ofNat 32 offStrings, BitVec.ofNat 32 headerLen,
    17, -- version
    16, -- last_comp_version
    0, -- boot_cpuid
    BitVec.ofNat 32 f.strings.length, BitVec.ofNat 32 f.struct_.length].flatMap be32 ++
  List.replicate rsvmapLen 0 ++ f.struct_ ++ f.strings

end Fdt

/-- A call of the builder. -/
inductive FdtCall where
  | beginNode (name : List U8)
  | prop (name data : List U8)
  | endNode
  deriving DecidableEq

namespace FdtCall

def apply (f : Fdt) : FdtCall → Fdt
  | beginNode name => f.beginNode name
  | prop name data => f.prop name data
  | endNode => f.endNode

def propU32 (name : String) (v : U32) : FdtCall := .prop (asciiBytes name) (be32 v)

def propU32s (name : String) (vs : List U32) : FdtCall := .prop (asciiBytes name) (vs.flatMap be32)

def propU64Pair (name : String) (a b : U64) : FdtCall := .prop (asciiBytes name) (beBytes a 8 ++ beBytes b 8)

def propStr (name : String) (s : List U8) : FdtCall := .prop (asciiBytes name) (s ++ [0])

def propStrs (name : String) (ss : List String) : FdtCall := .prop (asciiBytes name) (ss.flatMap fun s => asciiBytes s ++ [0])

end FdtCall

/-- The blob of a sequence of calls. -/
def Fdt.build (calls : List FdtCall) : List U8 := (calls.foldl FdtCall.apply Fdt.new).finish

/-! ## The tree of the machine -/

/-- A node named after its address, in hexadecimal. -/
def beginAt (name : String) (base : ℕ) : FdtCall :=
  .beginNode (asciiBytes name ++ (Nat.toDigits 16 base).map fun c => BitVec.ofNat 8 c.toNat)

/-- The deterministic seed of the kernel's random numbers. -/
def rngSeed : List U8 :=
  (List.range 64).map fun i => ((BitVec.ofNat 32 i * 0x9e3779b1) >>> 13).setWidth 8 ^^^ (BitVec.ofNat 8 i * 31)

def intcPhandle : U32 := 1
def plicPhandle : U32 := 2
def sysconPh : U32 := 5

open FdtCall

/-- Where the initrd is, when there is any. -/
def initrdProps (initrdStart initrdEnd : U64) : List FdtCall :=
  if initrdStart < initrdEnd then
    [.prop (asciiBytes "linux,initrd-start") (beBytes initrdStart 8),
      .prop (asciiBytes "linux,initrd-end") (beBytes initrdEnd 8)]
  else []

/-- The root and `/chosen` up to the initrd. -/
def chosenCalls (cmdline : List U8) : List FdtCall := [
  .beginNode [],
  propU32 "#address-cells" 2,
  propU32 "#size-cells" 2,
  propStr "compatible" (asciiBytes "riscv-virtio"),
  propStr "model" (asciiBytes "riscv-virtio,qemu"),
  .beginNode (asciiBytes "chosen"),
  propStr "bootargs" cmdline,
  propStr "stdout-path" (asciiBytes "/soc/serial@10000000"),
  .prop (asciiBytes "rng-seed") rngSeed]

def cpuCalls (ramSize : U64) : List FdtCall := [
  .endNode,
  .beginNode (asciiBytes "cpus"),
  propU32 "#address-cells" 1,
  propU32 "#size-cells" 0,
  propU32 "timebase-frequency" (BitVec.ofNat 32 RTC_FREQ),
  .beginNode (asciiBytes "cpu@0"),
  propStr "device_type" (asciiBytes "cpu"),
  propU32 "reg" 0,
  propStr "status" (asciiBytes "okay"),
  propStr "compatible" (asciiBytes "riscv"),
  propStr "riscv,isa-base" (asciiBytes "rv64i"),
  propStrs "riscv,isa-extensions" ["i", "m", "a", "f", "d", "c", "zicntr", "zicsr", "zifencei"],
  propStr "riscv,isa" (asciiBytes "rv64imafdc"),
  propStr "mmu-type" (asciiBytes "riscv,sv48"),
  .beginNode (asciiBytes "interrupt-controller"),
  propU32 "#interrupt-cells" 1,
  .prop (asciiBytes "interrupt-controller") [],
  propStr "compatible" (asciiBytes "riscv,cpu-intc"),
  propU32 "phandle" intcPhandle,
  .endNode,
  .endNode, -- cpu@0
  .endNode, -- cpus
  beginAt "memory@" RAM_BASE.toNat,
  propStr "device_type" (asciiBytes "memory"),
  propU64Pair "reg" RAM_BASE ramSize,
  .endNode]

def socCalls : List FdtCall := [
  .beginNode (asciiBytes "soc"),
  propU32 "#address-cells" 2,
  propU32 "#size-cells" 2,
  propStr "compatible" (asciiBytes "simple-bus"),
  .prop (asciiBytes "ranges") [],
  -- test finisher
  beginAt "test@" TEST_BASE,
  propStrs "compatible" ["sifive,test1", "sifive,test0", "syscon"],
  propU64Pair "reg" (BitVec.ofNat 64 TEST_BASE) 0x1000,
  propU32 "phandle" sysconPh,
  .endNode,
  .beginNode (asciiBytes "poweroff"),
  propStr "compatible" (asciiBytes "syscon-poweroff"),
  propU32 "regmap" sysconPh,
  propU32 "offset" 0,
  propU32 "value" 0x5555,
  .endNode,
  .beginNode (asciiBytes "reboot"),
  propStr "compatible" (asciiBytes "syscon-reboot"),
  propU32 "regmap" sysconPh,
  propU32 "offset" 0,
  propU32 "value" 0x7777,
  .endNode,
  -- UART
  beginAt "serial@" UART_BASE,
  propStr "compatible" (asciiBytes "ns16550a"),
  propU64Pair "reg" (BitVec.ofNat 64 UART_BASE) (BitVec.ofNat 64 UART_SIZE),
  propU32 "clock-frequency" 3686400,
  propU32s "interrupts-extended" [plicPhandle, BitVec.ofNat 32 UART_IRQ],
  .endNode,
  beginAt "rtc@" GOLDFISH_RTC_BASE,
  propStr "compatible" (asciiBytes "google,goldfish-rtc"),
  propU64Pair "reg" (BitVec.ofNat 64 GOLDFISH_RTC_BASE) (BitVec.ofNat 64 GOLDFISH_RTC_SIZE),
  propU32s "interrupts-extended" [plicPhandle, BitVec.ofNat 32 GOLDFISH_RTC_IRQ],
  .endNode,
  -- CLINT
  beginAt "clint@" CLINT_BASE,
  propStrs "compatible" ["sifive,clint0", "riscv,clint0"],
  propU64Pair "reg" (BitVec.ofNat 64 CLINT_BASE) (BitVec.ofNat 64 CLINT_SIZE),
  propU32s "interrupts-extended" [intcPhandle, 3, intcPhandle, 7],
  .endNode,
  -- PLIC
  beginAt "plic@" PLIC_BASE,
  propStrs "compatible" ["sifive,plic-1.0.0", "riscv,plic0"],
  propU32 "#interrupt-cells" 1,
  .prop (asciiBytes "interrupt-controller") [],
  propU64Pair "reg" (BitVec.ofNat 64 PLIC_BASE) (BitVec.ofNat 64 PLIC_SIZE),
  propU32 "riscv,ndev" (BitVec.ofNat 32 (PLIC_SOURCES - 1)),
  propU32s "interrupts-extended" [intcPhandle, 11, intcPhandle, 9],
  propU32 "phandle" plicPhandle,
  .endNode]

/-- A virtio-mmio slot. -/
def slotCalls (i : ℕ) : List FdtCall := [
  beginAt "virtio_mmio@" (VIRTIO_BASE + i * VIRTIO_SIZE),
  propStr "compatible" (asciiBytes "virtio,mmio"),
  propU64Pair "reg" (BitVec.ofNat 64 (VIRTIO_BASE + i * VIRTIO_SIZE)) (BitVec.ofNat 64 VIRTIO_SIZE),
  propU32s "interrupts-extended" [plicPhandle, BitVec.ofNat 32 (VIRTIO_IRQ_BASE + i)],
  .endNode]

/-- The calls after the initrd's properties. -/
def restCalls (ramSize : U64) (nVirtio : ℕ) : List FdtCall :=
  cpuCalls ramSize ++ socCalls ++ (List.range nVirtio).flatMap slotCalls ++ [
    .endNode, -- soc
    .endNode] -- root

def virtCalls (ramSize : U64) (cmdline : List U8) (initrdStart initrdEnd : U64) (nVirtio : ℕ) : List FdtCall :=
  chosenCalls cmdline ++ initrdProps initrdStart initrdEnd ++ restCalls ramSize nVirtio

def buildVirtFdt (ramSize : U64) (cmdline : List U8) (initrdStart initrdEnd : U64) (nVirtio : ℕ) : List U8 :=
  Fdt.build (virtCalls ramSize cmdline initrdStart initrdEnd nVirtio)

/-! ## The length of a blob -/

theorem length_beBytes (v : U64) (n : ℕ) : (beBytes v n).length = n := by
  unfold beBytes
  rw [List.length_reverse, Dma.leBytes_length]

theorem length_be32 (v : U32) : (be32 v).length = 4 := length_beBytes _ 4

theorem length_padded (bytes : List U8) : (padded bytes).length = 4 * ((bytes.length + 3) / 4) := by
  unfold padded
  rw [List.length_append, List.length_replicate]
  omega

/-- The names of properties among calls. -/
def FdtCall.propName : FdtCall → Option (List U8)
  | .prop name _ => some name
  | _ => none

/-- What a call adds to the structure block. -/
def FdtCall.size : FdtCall → ℕ
  | .beginNode name => 4 + 4 * ((name.length + 4) / 4)
  | .prop _ data => 12 + 4 * ((data.length + 3) / 4)
  | .endNode => 4

/-- The structure block is `k` bytes long, and the strings are the names of `names`, each once. -/
structure Fdt.Sized (f : Fdt) (k : ℕ) (names : Finset (List U8)) : Prop where
  struct_ : f.struct_.length = k
  aligned : k % 4 = 0
  known : ∀ n, (f.names.find? fun e => decide (e.1 = n)).isSome = true ↔ n ∈ names
  strings : f.strings.length = ∑ n ∈ names, (n.length + 1)

namespace Fdt.Sized

variable {f : Fdt} {k : ℕ} {names : Finset (List U8)}

theorem u32 (h : f.Sized k names) (v : U32) : (f.u32 v).Sized (k + 4) names := by
  refine ⟨?_, by have := h.aligned; omega, h.known, h.strings⟩
  show (f.struct_ ++ be32 v).length = k + 4
  rw [List.length_append, length_be32, h.struct_]

theorem pad (h : f.Sized k names) (bytes : List U8) :
    Sized { f with struct_ := padded (f.struct_ ++ bytes) } (k + 4 * ((bytes.length + 3) / 4)) names := by
  have ha := h.aligned
  refine ⟨?_, by omega, h.known, h.strings⟩
  rw [length_padded, List.length_append, h.struct_]
  omega

theorem nameOffset (h : f.Sized k names) (name : List U8) : (f.nameOffset name).2.Sized k (insert name names) := by
  unfold Fdt.nameOffset
  cases hf : f.names.find? fun e => decide (e.1 = name) with
  | some e =>
    have hm : name ∈ names := (h.known name).1 (by rw [hf]; rfl)
    rw [Finset.insert_eq_of_mem hm]
    exact h
  | none =>
    have hm : name ∉ names := fun hm => by
      have := (h.known name).2 hm
      rw [hf] at this
      cases this
    refine ⟨h.struct_, h.aligned, fun n => ?_, ?_⟩
    · dsimp only
      rw [List.find?_append, Option.isSome_or, Bool.or_eq_true_iff, h.known, Finset.mem_insert, List.find?_singleton]
      by_cases hn : name = n
      · simp [hn]
      · simp [hn, Ne.symm hn]
    · dsimp only
      rw [Finset.sum_insert hm, List.length_append, List.length_append, h.strings, List.length_singleton]
      omega

/-- What one call adds. -/
theorem apply (h : f.Sized k names) (c : FdtCall) : (c.apply f).Sized (k + c.size) (names ∪ c.propName.toFinset) := by
  cases c with
  | beginNode name =>
    have hs := (h.u32 FDT_BEGIN_NODE).pad (name ++ [0])
    rw [List.length_append, List.length_singleton] at hs
    show ({ f.u32 FDT_BEGIN_NODE with struct_ := padded ((f.u32 FDT_BEGIN_NODE).struct_ ++ name ++ [0]) } : Fdt).Sized _ (names ∪ ∅)
    rw [Finset.union_empty, List.append_assoc]
    exact (Nat.add_assoc _ _ _) ▸ hs
  | prop name data =>
    have hs := (((h.nameOffset name).u32 FDT_PROP).u32 (BitVec.ofNat 32 data.length)).u32 (f.nameOffset name).1
    show Sized _ _ (names ∪ {name})
    rw [Finset.union_singleton]
    have hk : k + 4 + 4 + 4 + 4 * ((data.length + 3) / 4) = k + (FdtCall.prop name data).size := by
      show _ = k + (12 + 4 * ((data.length + 3) / 4))
      omega
    exact hk ▸ hs.pad data
  | endNode =>
    show Sized _ _ (names ∪ ∅)
    rw [Finset.union_empty]
    exact h.u32 FDT_END_NODE

theorem foldl (h : f.Sized k names) (calls : List FdtCall) :
    (calls.foldl FdtCall.apply f).Sized (k + (calls.map FdtCall.size).sum)
      (names ∪ (calls.filterMap FdtCall.propName).toFinset) := by
  induction calls generalizing f k names with
  | nil =>
    rw [List.filterMap_nil, List.toFinset_nil, Finset.union_empty]
    exact h
  | cons c calls ih =>
    have hs := ih (h.apply c)
    have hn : (List.filterMap FdtCall.propName (c :: calls)).toFinset =
        c.propName.toFinset ∪ (calls.filterMap FdtCall.propName).toFinset := by
      rw [List.filterMap_cons]
      cases c.propName with
      | none => exact (Finset.empty_union _).symm
      | some n => exact List.toFinset_cons
    rw [List.foldl_cons, List.map_cons, List.sum_cons, ← Nat.add_assoc, hn, ← Finset.union_assoc]
    exact hs

end Fdt.Sized

/-- The names of the properties of a tree, each once. -/
def propNames (calls : List FdtCall) : Finset (List U8) := (calls.filterMap FdtCall.propName).toFinset

/-- **The length of a blob**: its header, what each call adds, and every name once. -/
theorem length_build (calls : List FdtCall) :
    (Fdt.build calls).length = 60 + (calls.map FdtCall.size).sum + ∑ n ∈ propNames calls, (n.length + 1) := by
  have hnew : Fdt.new.Sized 0 ∅ := ⟨rfl, rfl, fun n => by simp [Fdt.new], rfl⟩
  have h := (hnew.foldl calls).u32 FDT_END
  rw [Finset.empty_union] at h
  unfold Fdt.build Fdt.finish propNames
  dsimp only
  rw [List.length_append, List.length_append, List.length_append, List.length_replicate, h.struct_, h.strings,
    List.length_flatMap]
  simp only [length_be32, List.map_cons, List.map_nil, List.sum_cons, List.sum_nil]
  omega

theorem propNames_append (xs ys : List FdtCall) : propNames (xs ++ ys) = propNames xs ∪ propNames ys := by
  unfold propNames
  rw [List.filterMap_append, List.toFinset_append]

/-- The properties of the initrd take at most 76 bytes, and what they add is all that they change. -/
theorem length_buildVirtFdt (ramSize : U64) (cmdline : List U8) (initrdStart initrdEnd : U64) (nVirtio : ℕ) :
    (buildVirtFdt ramSize cmdline 0 0 nVirtio).length ≤ (buildVirtFdt ramSize cmdline initrdStart initrdEnd nVirtio).length ∧
    (buildVirtFdt ramSize cmdline initrdStart initrdEnd nVirtio).length ≤
      (buildVirtFdt ramSize cmdline 0 0 nVirtio).length + 76 := by
  have hsize : ((initrdProps initrdStart initrdEnd).map FdtCall.size).sum ≤ 40 := by
    unfold initrdProps
    split
    · show 12 + 4 * (((beBytes initrdStart 8).length + 3) / 4) + (12 + 4 * (((beBytes initrdEnd 8).length + 3) / 4) + 0) ≤ 40
      rw [length_beBytes, length_beBytes]
    · exact Nat.zero_le _
  have hnames : ∑ n ∈ propNames (initrdProps initrdStart initrdEnd), (n.length + 1) ≤ 36 := by
    unfold initrdProps
    split
    · show ∑ n ∈ [asciiBytes "linux,initrd-start", asciiBytes "linux,initrd-end"].toFinset, (n.length + 1) ≤ 36
      decide
    · exact Nat.zero_le _
  have hnone : initrdProps 0 0 = [] := rfl
  unfold buildVirtFdt virtCalls
  rw [length_build, length_build, hnone, List.append_nil]
  simp only [List.map_append, List.sum_append, propNames_append]
  generalize propNames (chosenCalls cmdline) = A
  generalize propNames (restCalls ramSize nVirtio) = C
  generalize propNames (initrdProps initrdStart initrdEnd) = B at hnames ⊢
  have hle : ∑ n ∈ A ∪ C, (n.length + 1) ≤ ∑ n ∈ A ∪ B ∪ C, (n.length + 1) :=
    Finset.sum_le_sum_of_subset (Finset.union_subset_union_left Finset.subset_union_left)
  have hge : ∑ n ∈ A ∪ B ∪ C, (n.length + 1) ≤ ∑ n ∈ A ∪ C, (n.length + 1) + ∑ n ∈ B, (n.length + 1) := by
    rw [Finset.union_right_comm, ← Finset.sum_union_inter]
    exact Nat.le_add_right _ _
  omega

end Lish
