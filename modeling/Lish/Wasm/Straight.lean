import Lish.Wasm.Leb128
/-!
# Straight — straight-line Wasm code

The instructions between two branches: constants, locals, 64-bit arithmetic and memory, their binary form, and what
they do to the operand stack, the locals and the memory.
-/
namespace Lish
namespace Wasm

open Leb128

/-! ## Instructions -/

/-- The binary operations on two 64-bit operands. -/
inductive BinOp where
  | add
  | sub
  | mul
  | and
  | shrS
  | shrU

inductive Instr where
  | i32Const (v : BitVec 32)
  | i64Const (v : BitVec 64)
  | localGet (i : BitVec 32)
  | localSet (i : BitVec 32)
  | i64Load (align : BitVec 32) (offset : BitVec 64)
  | i64Store (align : BitVec 32) (offset : BitVec 64)
  | bin (op : BinOp)

def BinOp.opcode : BinOp → BitVec 8
  | add => 0x7c
  | sub => 0x7d
  | mul => 0x7e
  | and => 0x83
  | shrS => 0x87
  | shrU => 0x88

/-- The binary form of an instruction. -/
def Instr.bytes : Instr → List (BitVec 8)
  | i32Const v => 0x41 :: encodeS v.toInt
  | i64Const v => 0x42 :: encodeS v.toInt
  | localGet i => 0x20 :: encodeU i.toNat
  | localSet i => 0x21 :: encodeU i.toNat
  | i64Load align offset => 0x29 :: (encodeU align.toNat ++ encodeU offset.toNat)
  | i64Store align offset => 0x37 :: (encodeU align.toNat ++ encodeU offset.toNat)
  | bin op => [op.opcode]

def decodeIndex (bytes : List (BitVec 8)) : Option (BitVec 32 × List (BitVec 8)) :=
  (decodeU 32 bytes).map fun m => (BitVec.ofNat 32 m.1, m.2)

def decodeConst (N : ℕ) (bytes : List (BitVec 8)) : Option (BitVec N × List (BitVec 8)) :=
  (decodeS N bytes).map fun m => (BitVec.ofInt N m.1, m.2)

def decodeMemarg (bytes : List (BitVec 8)) : Option ((BitVec 32 × BitVec 64) × List (BitVec 8)) :=
  (decodeIndex bytes).bind fun a => (decodeU 64 a.2).map fun o => ((a.1, BitVec.ofNat 64 o.1), o.2)

/-- The instruction at the start of the bytes, with what follows it. -/
def decodeInstr : List (BitVec 8) → Option (Instr × List (BitVec 8))
  | [] => none
  | b :: rest =>
    match b with
    | 0x41 => (decodeConst 32 rest).map fun m => (.i32Const m.1, m.2)
    | 0x42 => (decodeConst 64 rest).map fun m => (.i64Const m.1, m.2)
    | 0x20 => (decodeIndex rest).map fun m => (.localGet m.1, m.2)
    | 0x21 => (decodeIndex rest).map fun m => (.localSet m.1, m.2)
    | 0x29 => (decodeMemarg rest).map fun m => (.i64Load m.1.1 m.1.2, m.2)
    | 0x37 => (decodeMemarg rest).map fun m => (.i64Store m.1.1 m.1.2, m.2)
    | 0x7c => some (.bin .add, rest)
    | 0x7d => some (.bin .sub, rest)
    | 0x7e => some (.bin .mul, rest)
    | 0x83 => some (.bin .and, rest)
    | 0x87 => some (.bin .shrS, rest)
    | 0x88 => some (.bin .shrU, rest)
    | _ => none

/-- The instructions of the bytes, at most as many as the fuel. -/
def decodeUpTo : ℕ → List (BitVec 8) → Option (List Instr)
  | _, [] => some []
  | 0, _ :: _ => none
  | fuel + 1, b :: bytes => (decodeInstr (b :: bytes)).bind fun m => (decodeUpTo fuel m.2).map fun is => m.1 :: is

/-- The instructions of the bytes: each takes at least one. -/
def decodeCode (bytes : List (BitVec 8)) : Option (List Instr) := decodeUpTo bytes.length bytes

theorem decodeIndex_encode (i : BitVec 32) (rest : List (BitVec 8)) : decodeIndex (encodeU i.toNat ++ rest) = some (i, rest) := by
  unfold decodeIndex
  rw [decodeU_encodeU _ _ _ i.isLt, Option.map_some, BitVec.ofNat_toNat, BitVec.setWidth_eq]

theorem decodeConst_encode {N : ℕ} (v : BitVec N) (rest : List (BitVec 8)) :
    decodeConst N (encodeS v.toInt ++ rest) = some (v, rest) := by
  unfold decodeConst
  rw [decodeS_encodeS _ _ _ (BitVec.le_toInt v) BitVec.toInt_lt, Option.map_some, BitVec.ofInt_toInt]

theorem decodeMemarg_encode (align : BitVec 32) (offset : BitVec 64) (rest : List (BitVec 8)) :
    decodeMemarg (encodeU align.toNat ++ encodeU offset.toNat ++ rest) = some ((align, offset), rest) := by
  unfold decodeMemarg
  rw [List.append_assoc, decodeIndex_encode, Option.bind_some, decodeU_encodeU _ _ _ offset.isLt, Option.map_some,
    BitVec.ofNat_toNat, BitVec.setWidth_eq]

theorem decodeInstr_bytes (i : Instr) (rest : List (BitVec 8)) : decodeInstr (i.bytes ++ rest) = some (i, rest) := by
  cases i with
  | i32Const v =>
    show (decodeConst 32 (encodeS v.toInt ++ rest)).map _ = _
    rw [decodeConst_encode, Option.map_some]
  | i64Const v =>
    show (decodeConst 64 (encodeS v.toInt ++ rest)).map _ = _
    rw [decodeConst_encode, Option.map_some]
  | localGet i =>
    show (decodeIndex (encodeU i.toNat ++ rest)).map _ = _
    rw [decodeIndex_encode, Option.map_some]
  | localSet i =>
    show (decodeIndex (encodeU i.toNat ++ rest)).map _ = _
    rw [decodeIndex_encode, Option.map_some]
  | i64Load align offset =>
    show (decodeMemarg (encodeU align.toNat ++ encodeU offset.toNat ++ rest)).map _ = _
    rw [decodeMemarg_encode, Option.map_some]
  | i64Store align offset =>
    show (decodeMemarg (encodeU align.toNat ++ encodeU offset.toNat ++ rest)).map _ = _
    rw [decodeMemarg_encode, Option.map_some]
  | bin op => cases op <;> rfl

theorem bytes_cons (i : Instr) : ∃ b bs, i.bytes = b :: bs := by
  cases i <;> exact ⟨_, _, rfl⟩

theorem decodeUpTo_bytes (is : List Instr) (fuel : ℕ) (h : (is.flatMap Instr.bytes).length ≤ fuel) :
    decodeUpTo fuel (is.flatMap Instr.bytes) = some is := by
  induction is generalizing fuel with
  | nil => cases fuel <;> rfl
  | cons i is ih =>
    obtain ⟨b, bs, hb⟩ := bytes_cons i
    rw [List.flatMap_cons, hb, List.cons_append] at h ⊢
    cases fuel with
    | zero => exact absurd h (Nat.not_succ_le_zero _)
    | succ fuel =>
      have hlen : (is.flatMap Instr.bytes).length ≤ fuel := by
        rw [List.length_cons, List.length_append] at h
        omega
      rw [decodeUpTo, ← List.cons_append, ← hb, decodeInstr_bytes, Option.bind_some, ih fuel hlen, Option.map_some]

/-- **Emitted instructions are read back.** -/
theorem decodeCode_bytes (is : List Instr) : decodeCode (is.flatMap Instr.bytes) = some is :=
  decodeUpTo_bytes is _ le_rfl

/-! ## Memory -/

/-- A linear memory. -/
structure Memory where
  size : ℕ
  byte : ℕ → BitVec 8

namespace Memory

/-- The little-endian number in `n` bytes. -/
def number (mem : ℕ → BitVec 8) (a : ℕ) : ℕ → ℕ
  | 0 => 0
  | n + 1 => (mem a).toNat + 256 * number mem (a + 1) n

def load64 (m : Memory) (a : ℕ) : Option (BitVec 64) :=
  if a + 8 ≤ m.size then some (BitVec.ofNat 64 (number m.byte a 8)) else none

def store64 (m : Memory) (a : ℕ) (v : BitVec 64) : Option Memory :=
  if a + 8 ≤ m.size then
    some { m with byte := fun i => if a ≤ i ∧ i < a + 8 then BitVec.ofNat 8 (v.toNat / 256 ^ (i - a)) else m.byte i }
  else none

theorem number_congr {mem mem' : ℕ → BitVec 8} {a n : ℕ} (h : ∀ i < n, mem (a + i) = mem' (a + i)) :
    number mem a n = number mem' a n := by
  induction n generalizing a with
  | zero => rfl
  | succ n ih =>
    have h0 : mem a = mem' a := h 0 (Nat.succ_pos n)
    rw [number, number, h0, ih fun i hi => ?_]
    have := h (i + 1) (by omega)
    rwa [show a + (i + 1) = a + 1 + i by omega] at this

theorem number_digits {mem : ℕ → BitVec 8} {a v n : ℕ} (h : ∀ i < n, mem (a + i) = BitVec.ofNat 8 (v / 256 ^ i)) :
    number mem a n = v % 256 ^ n := by
  induction n generalizing a v with
  | zero => rw [number, pow_zero, Nat.mod_one]
  | succ n ih =>
    have h0 : mem a = BitVec.ofNat 8 v := by
      have := h 0 (Nat.succ_pos n)
      rwa [pow_zero, Nat.div_one] at this
    have hs : ∀ i < n, mem (a + 1 + i) = BitVec.ofNat 8 (v / 256 / 256 ^ i) := fun i hi => by
      have := h (i + 1) (by omega)
      rwa [show a + (i + 1) = a + 1 + i by omega, pow_succ', ← Nat.div_div_eq_div_mul] at this
    have hp : 256 ^ (n + 1) = 256 * 256 ^ n := Nat.pow_succ'
    rw [number, h0, ih hs, BitVec.toNat_ofNat, hp]
    exact Nat.mod_mul.symm

theorem load64_store64 {m m' : Memory} {a : ℕ} {v : BitVec 64} (h : m.store64 a v = some m') : m'.load64 a = some v := by
  unfold store64 at h
  split at h
  · rename_i hs
    obtain rfl := Option.some.inj h
    have hd : ∀ i < 8, (if a ≤ a + i ∧ a + i < a + 8 then BitVec.ofNat 8 (v.toNat / 256 ^ (a + i - a)) else m.byte (a + i)) =
        BitVec.ofNat 8 (v.toNat / 256 ^ i) := fun i hi => by
      rw [if_pos ⟨by omega, by omega⟩, Nat.add_sub_cancel_left]
    unfold load64
    rw [if_pos hs, number_digits hd, Nat.mod_eq_of_lt (show v.toNat < 256 ^ 8 from v.isLt), BitVec.ofNat_toNat, BitVec.setWidth_eq]
  · cases h

/-- A store leaves what it does not overlap. -/
theorem load64_store64_ne {m m' : Memory} {a b : ℕ} {v : BitVec 64} (h : m.store64 a v = some m')
    (hd : b + 8 ≤ a ∨ a + 8 ≤ b) : m'.load64 b = m.load64 b := by
  unfold store64 at h
  split at h
  · obtain rfl := Option.some.inj h
    unfold load64
    rw [number_congr fun i hi => if_neg (by omega)]
  · cases h

theorem store64_isSome {m : Memory} {a : ℕ} {v : BitVec 64} (h : m.load64 a = some v) (w : BitVec 64) :
    ∃ m', m.store64 a w = some m' := by
  unfold load64 at h
  split at h
  · rename_i hs
    exact ⟨_, if_pos hs⟩
  · cases h

end Memory

/-! ## Execution -/

inductive Val where
  | i32 (v : BitVec 32)
  | i64 (v : BitVec 64)

/-- The operand stack, the locals and the memory. -/
structure State where
  stack : List Val
  locals : ℕ → Option Val
  mem : Memory

namespace State

def push (s : State) (v : Val) : State := { s with stack := v :: s.stack }

def setLocal (s : State) (i : ℕ) (v : Val) : State := { s with locals := fun j => if j = i then some v else s.locals j }

@[simp] theorem push_locals (s : State) (v : Val) : (s.push v).locals = s.locals := rfl
@[simp] theorem push_mem (s : State) (v : Val) : (s.push v).mem = s.mem := rfl
@[simp] theorem push_stack (s : State) (v : Val) : (s.push v).stack = v :: s.stack := rfl
@[simp] theorem setLocal_mem (s : State) (i : ℕ) (v : Val) : (s.setLocal i v).mem = s.mem := rfl
@[simp] theorem setLocal_stack (s : State) (i : ℕ) (v : Val) : (s.setLocal i v).stack = s.stack := rfl

@[simp] theorem setLocal_locals (s : State) (i j : ℕ) (v : Val) :
    (s.setLocal i v).locals j = if j = i then some v else s.locals j := rfl

end State

/-- The shifts take their count modulo the width. -/
def BinOp.eval (a b : BitVec 64) : BinOp → BitVec 64
  | add => a + b
  | sub => a - b
  | mul => a * b
  | and => a &&& b
  | shrS => a.sshiftRight (b.toNat % 64)
  | shrU => a >>> (b.toNat % 64)

/-- The operations that have a carry to lose do not lose one. -/
def BinOp.Fits (a b : BitVec 64) : BinOp → Prop
  | add => a.toNat + b.toNat < 2 ^ 64
  | mul => a.toNat * b.toNat < 2 ^ 64
  | _ => True

instance (a b : BitVec 64) (op : BinOp) : Decidable (op.Fits a b) := by
  cases op <;> unfold BinOp.Fits <;> infer_instance

/-- The two 64-bit operands on top of the stack, the lower one first, and what is under them. -/
def State.operands (s : State) : Option (BitVec 64 × BitVec 64 × List Val) :=
  match s.stack with
  | .i64 b :: .i64 a :: stack => some (a, b, stack)
  | _ => none

def State.result (s : State) (op : BinOp) (o : BitVec 64 × BitVec 64 × List Val) : State :=
  { s with stack := .i64 (op.eval o.1 o.2.1) :: o.2.2 }

/-- One instruction; none when it traps or the operands are of the wrong type. -/
def Instr.exec (s : State) : Instr → Option State
  | i32Const v => some (s.push (.i32 v))
  | i64Const v => some (s.push (.i64 v))
  | localGet i => (s.locals i.toNat).map s.push
  | localSet i =>
    match s.stack, s.locals i.toNat with
    | .i32 v :: stack, some (.i32 _) => some ({ s with stack }.setLocal i.toNat (.i32 v))
    | .i64 v :: stack, some (.i64 _) => some ({ s with stack }.setLocal i.toNat (.i64 v))
    | _, _ => none
  | i64Load _ offset =>
    match s.stack with
    | .i32 a :: stack => (s.mem.load64 (a.toNat + offset.toNat)).map fun v => { s with stack := .i64 v :: stack }
    | _ => none
  | i64Store _ offset =>
    match s.stack with
    | .i64 v :: .i32 a :: stack => (s.mem.store64 (a.toNat + offset.toNat) v).map fun mem => { s with stack, mem }
    | _ => none
  | bin op => s.operands.map (s.result op)

def run : List Instr → State → Option State
  | [], s => some s
  | i :: is, s => (i.exec s).bind (run is)

/-- One instruction; an addition or a multiplication that wraps is refused. -/
def Instr.execExact (s : State) : Instr → Option State
  | bin op => (s.operands.filter fun o => op.Fits o.1 o.2.1).map (s.result op)
  | i => i.exec s

/-- A run in which no addition and no multiplication wraps. -/
def runExact : List Instr → State → Option State
  | [], s => some s
  | i :: is, s => (i.execExact s).bind (runExact is)

theorem exec_of_exact {s s' : State} {i : Instr} (h : i.execExact s = some s') : i.exec s = some s' := by
  cases i with
  | bin op =>
    obtain ⟨o, ho, rfl⟩ := Option.map_eq_some_iff.1 h
    show s.operands.map (s.result op) = _
    rw [(Option.filter_eq_some_iff.1 ho).1, Option.map_some]
  | _ => exact h

/-- A run that nothing wraps in is the run. -/
theorem run_of_exact {is : List Instr} {s s' : State} (h : runExact is s = some s') : run is s = some s' := by
  induction is generalizing s with
  | nil => exact h
  | cons i is ih =>
    obtain ⟨t, ht, hr⟩ := Option.bind_eq_some_iff.1 h
    rw [run, exec_of_exact ht, Option.bind_some]
    exact ih hr

theorem runExact_append (is js : List Instr) (s : State) : runExact (is ++ js) s = (runExact is s).bind (runExact js) := by
  induction is generalizing s with
  | nil => rfl
  | cons i is ih =>
    rw [List.cons_append, runExact, runExact, Option.bind_assoc]
    congr 1
    funext t
    exact ih t

end Wasm
end Lish
