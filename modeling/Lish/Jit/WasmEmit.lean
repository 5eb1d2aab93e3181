import Lish.Core.Arch
import Lish.Wasm.Straight
/-!
# WasmEmit — the encoder of generated modules

The instruction stream of a module under construction, byte by byte: the immediates in it, and the code that has been
emitted as code that runs.
-/
namespace Lish

open Leb128 Wasm

/-! ## Immediates -/

theorem toNat_low7 (v : U64) : ((v &&& 0x7f).setWidth 8).toNat = v.toNat % 128 := by
  have h : (v &&& 0x7f).toNat = v.toNat % 128 := by
    rw [BitVec.toNat_and]
    exact Nat.and_two_pow_sub_one_eq_mod v.toNat 7
  rw [BitVec.toNat_setWidth, h]
  omega

theorem toNat_shift7 (v : U64) : (v >>> 7).toNat = v.toNat / 128 := by
  rw [BitVec.toNat_ushiftRight, Nat.shiftRight_eq_div_pow]

theorem toInt_shift7 (v : U64) : (v.sshiftRight 7).toInt = v.toInt / 128 := by
  rw [BitVec.toInt_sshiftRight, Int.shiftRight_eq_div_pow]
  rfl

/-- The bits of a group of an unsigned immediate, and of the rest of it while there is any. -/
def uleb (out : List U8) (v : U64) : List U8 :=
  let b := (v &&& 0x7f).setWidth 8
  let v' := v >>> 7
  if v' = 0 then out ++ [b] else uleb (out ++ [b ||| 0x80]) v'
termination_by v.toNat
decreasing_by
  rename_i h
  have h0 : (v >>> 7).toNat ≠ 0 := fun h0 => h (BitVec.eq_of_toNat_eq h0)
  rw [toNat_shift7] at h0 ⊢
  omega

/-- The shift of a signed immediate is arithmetic: it ends when the sign is all that is left. -/
def sleb (out : List U8) (v : U64) : List U8 :=
  let b := (v &&& 0x7f).setWidth 8
  let v' := v.sshiftRight 7
  if (v' = 0 ∧ b &&& 0x40 = 0) ∨ (v' = -1 ∧ b &&& 0x40 ≠ 0) then out ++ [b] else sleb (out ++ [b ||| 0x80]) v'
termination_by v.toInt.natAbs
decreasing_by
  rename_i h
  have h0 : v.toInt ≠ 0 := fun h0 => by
    obtain rfl : v = 0 := BitVec.eq_of_toInt_eq h0
    exact h (by decide)
  have h1 : v.toInt ≠ -1 := fun h1 => by
    obtain rfl : v = -1 := BitVec.eq_of_toInt_eq h1
    exact h (by decide)
  rw [toInt_shift7]
  omega

theorem low7_eq {v : U64} {n : ℕ} (h : v.toNat % 128 = n) : (v &&& 0x7f).setWidth 8 = BitVec.ofNat 8 n := by
  apply BitVec.eq_of_toNat_eq
  rw [toNat_low7, h, toNat_group (by omega)]

theorem low7_more {v : U64} {n : ℕ} (h : v.toNat % 128 = n) :
    (v &&& 0x7f).setWidth 8 ||| 0x80 = BitVec.ofNat 8 (n + 128) := by
  have hb : ∀ b : U8, b.toNat < 128 → b ||| 0x80 = BitVec.ofNat 8 (b.toNat + 128) := by decide
  rw [hb _ (by rw [toNat_low7]; omega), toNat_low7, h]

theorem uleb_eq (out : List U8) (v : U64) : uleb out v = out ++ encodeU v.toNat := by
  induction hn : v.toNat using Nat.strongRecOn generalizing out v with
  | ind n ih =>
    subst hn
    have hz : v >>> 7 = 0 ↔ v.toNat < 128 := by
      rw [← BitVec.toNat_inj, toNat_shift7]
      exact Nat.div_eq_zero_iff_lt (by omega)
    rw [uleb, encodeU]
    by_cases hv : v.toNat < 128
    · rw [if_pos hv]
      rw [if_pos (hz.2 hv), low7_eq (Nat.mod_eq_of_lt hv)]
    · rw [if_neg hv]
      rw [if_neg fun h => hv (hz.1 h), ih _ (by rw [toNat_shift7]; omega) _ _ rfl, toNat_shift7, low7_more rfl,
        List.append_assoc, List.singleton_append]

theorem toNat_mod_toInt (v : U64) : v.toNat % 128 = (v.toInt % 128).toNat := by
  rw [BitVec.toInt_eq_toNat_cond]
  have := v.isLt
  split
  · omega
  · omega

/-- What ends the emission of a signed immediate: the last group holds it with its sign. -/
theorem sleb_done (v : U64) :
    ((v.sshiftRight 7 = 0 ∧ (v &&& 0x7f).setWidth 8 &&& (0x40 : U8) = 0) ∨
      (v.sshiftRight 7 = -1 ∧ (v &&& 0x7f).setWidth 8 &&& (0x40 : U8) ≠ 0)) ↔ -64 ≤ v.toInt ∧ v.toInt < 64 := by
  have hb : ∀ b : U8, b.toNat < 128 → (b &&& 0x40 = 0 ↔ b.toNat < 64) := by decide
  have h0 : v.sshiftRight 7 = 0 ↔ v.toInt / 128 = 0 := by
    rw [← BitVec.toInt_inj, toInt_shift7]
    rfl
  have h1 : v.sshiftRight 7 = -1 ↔ v.toInt / 128 = -1 := by
    rw [← BitVec.toInt_inj, toInt_shift7]
    rfl
  rw [ne_eq, hb _ (by rw [toNat_low7]; omega), toNat_low7, toNat_mod_toInt, h0, h1]
  omega

theorem sleb_eq (out : List U8) (v : U64) : sleb out v = out ++ encodeS v.toInt := by
  induction hn : v.toInt.natAbs using Nat.strongRecOn generalizing out v with
  | ind n ih =>
    subst hn
    rw [sleb, encodeS]
    by_cases hv : -64 ≤ v.toInt ∧ v.toInt < 64
    · rw [if_pos hv]
      rw [if_pos ((sleb_done v).2 hv), low7_eq (toNat_mod_toInt v)]
    · rw [if_neg hv]
      rw [if_neg fun h => hv ((sleb_done v).1 h), ih _ (by rw [toInt_shift7]; omega) _ _ rfl, toInt_shift7,
        low7_more (toNat_mod_toInt v), List.append_assoc, List.singleton_append]

/-- The immediates of the instructions: indices and depths, offsets, and the two kinds of constant. -/
inductive Immediate where
  | index (i : U32)
  | offset (v : U64)
  | i32 (v : U32)
  | i64 (v : U64)

inductive ImmediateKind where
  | index
  | offset
  | i32
  | i64

namespace Immediate

def kind : Immediate → ImmediateKind
  | index _ => .index
  | offset _ => .offset
  | i32 _ => .i32
  | i64 _ => .i64

/-- `idx as u64` and `v as i64` widen a 32-bit immediate before it is emitted. -/
def emit (code : List U8) : Immediate → List U8
  | index i => uleb code (i.setWidth 64)
  | offset v => uleb code v
  | i32 v => sleb code (v.signExtend 64)
  | i64 v => sleb code v

end Immediate

/-- An immediate of a kind as the format reads it. -/
def decodeImmediate (bytes : List U8) : ImmediateKind → Option (Immediate × List U8)
  | .index => (decodeU 32 bytes).map fun m => (.index (BitVec.ofNat 32 m.1), m.2)
  | .offset => (decodeU 64 bytes).map fun m => (.offset (BitVec.ofNat 64 m.1), m.2)
  | .i32 => (decodeS 32 bytes).map fun m => (.i32 (BitVec.ofInt 32 m.1), m.2)
  | .i64 => (decodeS 64 bytes).map fun m => (.i64 (BitVec.ofInt 64 m.1), m.2)

def decodeImmediates : List ImmediateKind → List U8 → Option (List Immediate × List U8)
  | [], bytes => some ([], bytes)
  | k :: ks, bytes =>
    (decodeImmediate bytes k).bind fun r => (decodeImmediates ks r.2).map fun rs => (r.1 :: rs.1, rs.2)

/-- The groups of an immediate. -/
def Immediate.bytes : Immediate → List U8
  | .index i => encodeU i.toNat
  | .offset v => encodeU v.toNat
  | .i32 v => encodeS v.toInt
  | .i64 v => encodeS v.toInt

theorem emit_eq (code : List U8) (i : Immediate) : i.emit code = code ++ i.bytes := by
  cases i with
  | index i =>
    show uleb code (i.setWidth 64) = code ++ encodeU i.toNat
    rw [uleb_eq, BitVec.toNat_setWidth, Nat.mod_eq_of_lt (by have := i.isLt; omega)]
  | offset v => exact uleb_eq code v
  | i32 v =>
    show sleb code (v.signExtend 64) = code ++ encodeS v.toInt
    rw [sleb_eq, BitVec.toInt_signExtend_of_le (by decide)]
  | i64 v => exact sleb_eq code v

theorem decodeImmediate_bytes (i : Immediate) (rest : List U8) : decodeImmediate (i.bytes ++ rest) i.kind = some (i, rest) := by
  cases i with
  | index i =>
    show (decodeU 32 (encodeU i.toNat ++ rest)).map _ = _
    rw [decodeU_encodeU _ _ _ i.isLt, Option.map_some, BitVec.ofNat_toNat, BitVec.setWidth_eq]
  | offset v =>
    show (decodeU 64 (encodeU v.toNat ++ rest)).map _ = _
    rw [decodeU_encodeU _ _ _ v.isLt, Option.map_some, BitVec.ofNat_toNat, BitVec.setWidth_eq]
  | i32 v =>
    show (decodeS 32 (encodeS v.toInt ++ rest)).map _ = _
    rw [decodeS_encodeS _ _ _ (BitVec.le_toInt v) (BitVec.toInt_lt), Option.map_some, BitVec.ofInt_toInt]
  | i64 v =>
    show (decodeS 64 (encodeS v.toInt ++ rest)).map _ = _
    rw [decodeS_encodeS _ _ _ (BitVec.le_toInt v) (BitVec.toInt_lt), Option.map_some, BitVec.ofInt_toInt]

theorem foldl_emit (imms : List Immediate) (code : List U8) :
    imms.foldl Immediate.emit code = code ++ imms.flatMap Immediate.bytes := by
  induction imms generalizing code with
  | nil => exact (List.append_nil code).symm
  | cons i imms ih => rw [List.foldl_cons, ih, emit_eq, List.append_assoc, List.flatMap_cons]

theorem decodeImmediates_flatMap (imms : List Immediate) (rest : List U8) :
    decodeImmediates (imms.map Immediate.kind) (imms.flatMap Immediate.bytes ++ rest) = some (imms, rest) := by
  induction imms with
  | nil => rfl
  | cons i imms ih =>
    rw [List.map_cons, List.flatMap_cons, List.append_assoc, decodeImmediates, decodeImmediate_bytes, Option.bind_some, ih,
      Option.map_some]

/-- **The immediates are canonical**: each is read back exactly, from its own bytes and from no fewer, and so is any
sequence of them. -/
theorem leb_canonical :
    (∀ v : U64, (∀ out, uleb out v = out ++ uleb [] v) ∧ (∀ rest, decodeU 64 (uleb [] v ++ rest) = some (v.toNat, rest)) ∧
      ∀ N bytes rest, decodeU N (bytes ++ rest) = some (v.toNat, rest) → (uleb [] v).length ≤ bytes.length) ∧
    (∀ v : U64, (∀ out, sleb out v = out ++ sleb [] v) ∧ (∀ rest, decodeS 64 (sleb [] v ++ rest) = some (v.toInt, rest)) ∧
      ∀ N bytes rest, decodeS N (bytes ++ rest) = some (v.toInt, rest) → (sleb [] v).length ≤ bytes.length) ∧
    ∀ (imms : List Immediate) (rest : List U8),
      decodeImmediates (imms.map Immediate.kind) (imms.foldl Immediate.emit [] ++ rest) = some (imms, rest) := by
  refine ⟨fun v => ⟨fun out => ?_, fun rest => ?_, fun N bytes rest h => ?_⟩,
    fun v => ⟨fun out => ?_, fun rest => ?_, fun N bytes rest h => ?_⟩, fun imms rest => ?_⟩
  · rw [uleb_eq out, uleb_eq [], List.nil_append]
  · rw [uleb_eq, List.nil_append]
    exact decodeU_encodeU v.toNat 64 rest v.isLt
  · rw [uleb_eq, List.nil_append]
    exact encodeU_shortest h
  · rw [sleb_eq out, sleb_eq [], List.nil_append]
  · rw [sleb_eq, List.nil_append]
    exact decodeS_encodeS v.toInt 64 rest (BitVec.le_toInt v) BitVec.toInt_lt
  · rw [sleb_eq, List.nil_append]
    exact encodeS_shortest h
  · rw [foldl_emit, List.nil_append]
    exact decodeImmediates_flatMap imms rest

/-! ## The instruction stream -/

structure WasmModule where
  code : List U8

def i64And : U8 := 0x83
def i64Add : U8 := 0x7c
def i64Sub : U8 := 0x7d
def i64Mul : U8 := 0x7e
def i64ShrS : U8 := 0x87
def i64ShrU : U8 := 0x88

namespace WasmModule

def op (m : WasmModule) (opcode : U8) : WasmModule := { m with code := m.code ++ [opcode] }

def i64Const (m : WasmModule) (v : U64) : WasmModule := { m with code := sleb (m.code ++ [0x42]) v }

def i32Const (m : WasmModule) (v : U32) : WasmModule := { m with code := sleb (m.code ++ [0x41]) (v.signExtend 64) }

def localGet (m : WasmModule) (i : U32) : WasmModule := { m with code := uleb (m.code ++ [0x20]) (i.setWidth 64) }

def localSet (m : WasmModule) (i : U32) : WasmModule := { m with code := uleb (m.code ++ [0x21]) (i.setWidth 64) }

/-- Align 3, with a constant offset. -/
def i64Load (m : WasmModule) (offset : U64) : WasmModule := { m with code := uleb (uleb (m.code ++ [0x29]) 3) offset }

def i64Store (m : WasmModule) (offset : U64) : WasmModule := { m with code := uleb (uleb (m.code ++ [0x37]) 3) offset }

end WasmModule

/-- `m'` is `m` with more code: instructions that take `s` to `s'`, and in which nothing wraps. -/
def Emits (m m' : WasmModule) (s s' : State) : Prop :=
  ∃ is : List Instr, m'.code = m.code ++ is.flatMap Instr.bytes ∧ runExact is s = some s'

namespace Emits

variable {m m' : WasmModule} {s s' t : State}

theorem refl (m : WasmModule) (s : State) : Emits m m s s := ⟨[], (List.append_nil m.code).symm, rfl⟩

theorem step {m'' : WasmModule} {s'' : State} {i : Instr} (h : Emits m m' s s') (hb : m''.code = m'.code ++ i.bytes)
    (hx : i.execExact s' = some s'') : Emits m m'' s s'' := by
  obtain ⟨is, hc, hr⟩ := h
  refine ⟨is ++ [i], ?_, ?_⟩
  · rw [hb, hc, List.append_assoc, List.flatMap_append, List.flatMap_singleton]
  · rw [runExact_append, hr, Option.bind_some, runExact, hx]
    rfl

theorem i64Const (h : Emits m m' s s') (v : U64) : Emits m (m'.i64Const v) s (s'.push (.i64 v)) := by
  refine h.step (i := .i64Const v) ?_ rfl
  show sleb _ v = _
  rw [sleb_eq, List.append_assoc]
  rfl

theorem i32Const (h : Emits m m' s s') (v : U32) : Emits m (m'.i32Const v) s (s'.push (.i32 v)) := by
  refine h.step (i := .i32Const v) ?_ rfl
  show sleb _ (v.signExtend 64) = _
  rw [sleb_eq, BitVec.toInt_signExtend_of_le (by decide), List.append_assoc]
  rfl

theorem toNat_widen (i : U32) : (i.setWidth 64).toNat = i.toNat := by
  rw [BitVec.toNat_setWidth, Nat.mod_eq_of_lt (by have := i.isLt; omega)]

theorem localGet (h : Emits m m' s s') {i : U32} {v : Val} (hl : s'.locals i.toNat = some v) :
    Emits m (m'.localGet i) s (s'.push v) := by
  refine h.step (i := .localGet i) ?_ ?_
  · show uleb _ (i.setWidth 64) = _
    rw [uleb_eq, toNat_widen, List.append_assoc]
    rfl
  · show (s'.locals i.toNat).map s'.push = _
    rw [hl, Option.map_some]

theorem localSet {i : U32} {v w : U64} (h : Emits m m' s (t.push (.i64 v))) (hl : t.locals i.toNat = some (.i64 w)) :
    Emits m (m'.localSet i) s (t.setLocal i.toNat (.i64 v)) := by
  refine h.step (i := .localSet i) ?_ ?_
  · show uleb _ (i.setWidth 64) = _
    rw [uleb_eq, toNat_widen, List.append_assoc]
    rfl
  · show (Instr.localSet i).exec (t.push (.i64 v)) = _
    unfold Instr.exec
    simp only [State.push_stack, State.push_locals, hl]
    rfl

theorem memarg (code : List U8) (b : U8) (offset : U64) :
    uleb (uleb (code ++ [b]) 3) offset = code ++ (b :: (encodeU (3 : U32).toNat ++ encodeU offset.toNat)) := by
  rw [uleb_eq, uleb_eq, List.append_assoc, List.append_assoc]
  rfl

theorem i64Load {a : U32} {offset v : U64} (h : Emits m m' s (t.push (.i32 a)))
    (hl : t.mem.load64 (a.toNat + offset.toNat) = some v) : Emits m (m'.i64Load offset) s (t.push (.i64 v)) := by
  refine h.step (i := .i64Load 3 offset) (memarg _ _ _) ?_
  show (t.mem.load64 (a.toNat + offset.toNat)).map _ = _
  rw [hl, Option.map_some]
  rfl

theorem i64Store {a : U32} {offset v : U64} {mem : Memory} (h : Emits m m' s ((t.push (.i32 a)).push (.i64 v)))
    (hs : t.mem.store64 (a.toNat + offset.toNat) v = some mem) : Emits m (m'.i64Store offset) s { t with mem } := by
  refine h.step (i := .i64Store 3 offset) (memarg _ _ _) ?_
  show (t.mem.store64 (a.toNat + offset.toNat) v).map _ = _
  rw [hs, Option.map_some]
  rfl

theorem bin (op : BinOp) {a b : U64} (h : Emits m m' s ((t.push (.i64 a)).push (.i64 b))) (hf : op.Fits a b) :
    Emits m (m'.op op.opcode) s (t.push (.i64 (op.eval a b))) := by
  refine h.step (i := .bin op) rfl ?_
  show (((some (a, b, t.stack)).filter fun o => decide (op.Fits o.1 o.2.1)).map _) = _
  rw [Option.filter_some, if_pos (decide_eq_true hf), Option.map_some]
  rfl

end Emits

/-- The bytes that `m'` has more than `m` are read as code that takes `s` to `t`, also when no sum or product may wrap. -/
def Runs (m m' : WasmModule) (s t : State) : Prop :=
  ∃ (code : List U8) (is : List Instr),
    m'.code = m.code ++ code ∧ decodeCode code = some is ∧ run is s = some t ∧ runExact is s = some t

theorem Emits.runs {m m' : WasmModule} {s t : State} (h : Emits m m' s t) : Runs m m' s t := by
  obtain ⟨is, hc, hr⟩ := h
  exact ⟨_, is, hc, decodeCode_bytes is, run_of_exact hr, hr⟩

end Lish
