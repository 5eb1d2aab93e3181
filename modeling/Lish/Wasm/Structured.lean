import Lish.Wasm.Straight
/-!
# Structured — Wasm code with branches

What a function body has besides straight-line code: comparisons, divisions and conversions, conditionals, the return and
the tail call; their binary form, and how a body ends.
-/
namespace Lish
namespace Wasm

open Leb128

/-! ## Instructions -/

/-- The comparisons of two 64-bit operands. -/
inductive CmpOp where
  | eq
  | ne
  | ltS
  | ltU
  | geS
  | geU
  deriving DecidableEq

/-- The operations on two 32-bit operands. -/
inductive Bin32Op where
  | ne
  | and
  | or
  deriving DecidableEq

/-- The operations on two 64-bit operands that `BinOp` has not, some of which trap. -/
inductive ArithOp where
  | divS
  | divU
  | remS
  | remU
  | or
  | xor
  | shl
  deriving DecidableEq

/-- An instruction that goes on to the next one. -/
inductive Simple where
  | plain (i : Instr)
  | cmp (op : CmpOp)
  | bin32 (op : Bin32Op)
  | arith (op : ArithOp)
  | eqz64
  | eqz32
  /-- The first of two operands if a condition is not zero, else the second. -/
  | select
  | wrap
  | extendS
  | extendU
  | i32Load (align : BitVec 32) (offset : BitVec 64)

/-- Code, with the branches of a conditional inside it. -/
inductive Code where
  | simple (i : Simple)
  | ifThen (body : List Code)
  | ifElse (body other : List Code)
  | ret
  | returnCall (f : BitVec 32)

namespace Code

abbrev i32Const (v : BitVec 32) : Code := simple (.plain (.i32Const v))
abbrev i64Const (v : BitVec 64) : Code := simple (.plain (.i64Const v))
abbrev localGet (i : BitVec 32) : Code := simple (.plain (.localGet i))
abbrev localSet (i : BitVec 32) : Code := simple (.plain (.localSet i))
abbrev i64Load (offset : BitVec 64) : Code := simple (.plain (.i64Load 3 offset))
abbrev i64Store (offset : BitVec 64) : Code := simple (.plain (.i64Store 3 offset))
abbrev i32Load (offset : BitVec 64) : Code := simple (.i32Load 2 offset)
abbrev bin (op : BinOp) : Code := simple (.plain (.bin op))
abbrev cmp64 (op : CmpOp) : Code := simple (.cmp op)
abbrev bin32 (op : Bin32Op) : Code := simple (.bin32 op)
abbrev arith (op : ArithOp) : Code := simple (.arith op)
abbrev eqz64 : Code := simple .eqz64
abbrev eqz32 : Code := simple .eqz32
abbrev select : Code := simple .select
abbrev wrap : Code := simple .wrap
abbrev extendS : Code := simple .extendS
abbrev extendU : Code := simple .extendU

end Code

/-- The straight-line code among the structured. -/
def straight (is : List Instr) : List Code := is.map fun i => .simple (.plain i)

/-! ## Binary form -/

def CmpOp.opcode : CmpOp → BitVec 8
  | eq => 0x51
  | ne => 0x52
  | ltS => 0x53
  | ltU => 0x54
  | geS => 0x59
  | geU => 0x5a

def Bin32Op.opcode : Bin32Op → BitVec 8
  | ne => 0x47
  | and => 0x71
  | or => 0x72

def ArithOp.opcode : ArithOp → BitVec 8
  | divS => 0x7f
  | divU => 0x80
  | remS => 0x81
  | remU => 0x82
  | or => 0x84
  | xor => 0x85
  | shl => 0x86

def Simple.bytes : Simple → List (BitVec 8)
  | plain i => i.bytes
  | cmp op => [op.opcode]
  | bin32 op => [op.opcode]
  | arith op => [op.opcode]
  | eqz64 => [0x50]
  | eqz32 => [0x45]
  | select => [0x1b]
  | wrap => [0xa7]
  | extendS => [0xac]
  | extendU => [0xad]
  | i32Load align offset => 0x28 :: (encodeU align.toNat ++ encodeU offset.toNat)

mutual

/-- The binary form: the blocks of a conditional leave nothing on the stack. -/
def Code.bytes : Code → List (BitVec 8)
  | .simple i => i.bytes
  | .ifThen body => 0x04 :: 0x40 :: (bytesAll body ++ [0x0b])
  | .ifElse body other => 0x04 :: 0x40 :: (bytesAll body ++ 0x05 :: (bytesAll other ++ [0x0b]))
  | .ret => [0x0f]
  | .returnCall f => 0x12 :: encodeU f.toNat

def bytesAll : List Code → List (BitVec 8)
  | [] => []
  | c :: cs => c.bytes ++ bytesAll cs

end

theorem bytesAll_straight (is : List Instr) : bytesAll (straight is) = is.flatMap Instr.bytes := by
  induction is with
  | nil => rfl
  | cons i is ih =>
    rw [List.flatMap_cons, ← ih]
    rfl

/-- The instruction at the start of the bytes that goes on to the next one, with what follows it. -/
def decodeSimple : List (BitVec 8) → Option (Simple × List (BitVec 8))
  | [] => none
  | b :: rest =>
    match b with
    | 0x51 => some (.cmp .eq, rest)
    | 0x52 => some (.cmp .ne, rest)
    | 0x53 => some (.cmp .ltS, rest)
    | 0x54 => some (.cmp .ltU, rest)
    | 0x59 => some (.cmp .geS, rest)
    | 0x5a => some (.cmp .geU, rest)
    | 0x47 => some (.bin32 .ne, rest)
    | 0x71 => some (.bin32 .and, rest)
    | 0x72 => some (.bin32 .or, rest)
    | 0x7f => some (.arith .divS, rest)
    | 0x80 => some (.arith .divU, rest)
    | 0x81 => some (.arith .remS, rest)
    | 0x82 => some (.arith .remU, rest)
    | 0x84 => some (.arith .or, rest)
    | 0x85 => some (.arith .xor, rest)
    | 0x86 => some (.arith .shl, rest)
    | 0x50 => some (.eqz64, rest)
    | 0x45 => some (.eqz32, rest)
    | 0x1b => some (.select, rest)
    | 0xa7 => some (.wrap, rest)
    | 0xac => some (.extendS, rest)
    | 0xad => some (.extendU, rest)
    | 0x28 => (decodeMemarg rest).map fun m => (.i32Load m.1.1 m.1.2, m.2)
    | _ => (decodeInstr (b :: rest)).map fun m => (.plain m.1, m.2)

theorem decodeSimple_bytes (i : Simple) (rest : List (BitVec 8)) : decodeSimple (i.bytes ++ rest) = some (i, rest) := by
  cases i with
  | plain i =>
    have h : decodeSimple (i.bytes ++ rest) = (decodeInstr (i.bytes ++ rest)).map fun m => (.plain m.1, m.2) := by
      cases i with
      | bin op => cases op <;> rfl
      | _ => rfl
    rw [Simple.bytes, h, decodeInstr_bytes, Option.map_some]
  | cmp op => cases op <;> rfl
  | bin32 op => cases op <;> rfl
  | arith op => cases op <;> rfl
  | i32Load align offset =>
    show (decodeMemarg (encodeU align.toNat ++ encodeU offset.toNat ++ rest)).map _ = _
    rw [decodeMemarg_encode, Option.map_some]
  | _ => rfl

/-- What ends a sequence of instructions. -/
inductive Ending where
  | eof
  | otherwise
  | fin
  deriving DecidableEq

def Ending.bytes : Ending → List (BitVec 8)
  | eof => []
  | otherwise => [0x05]
  | fin => [0x0b]

theorem Ending.length_fin : (bytes .fin).length = 1 := rfl

theorem Ending.length_otherwise : (bytes .otherwise).length = 1 := rfl

/-- The instructions up to what ends them, and what follows. -/
def decodeSeq : ℕ → List (BitVec 8) → Option (List Code × Ending × List (BitVec 8))
  | _, [] => some ([], .eof, [])
  | 0, _ :: _ => none
  | fuel + 1, b :: rest =>
    match b with
    | 0x0b => some ([], .fin, rest)
    | 0x05 => some ([], .otherwise, rest)
    | 0x0f => (decodeSeq fuel rest).map fun m => (.ret :: m.1, m.2)
    | 0x12 => (decodeIndex rest).bind fun f => (decodeSeq fuel f.2).map fun m => (.returnCall f.1 :: m.1, m.2)
    | 0x04 =>
      if rest.head? = some 0x40 then
        (decodeSeq fuel rest.tail).bind fun body =>
          match body.2.1 with
          | .fin => (decodeSeq fuel body.2.2).map fun m => (.ifThen body.1 :: m.1, m.2)
          | .otherwise => (decodeSeq fuel body.2.2).bind fun other =>
            if other.2.1 = .fin then (decodeSeq fuel other.2.2).map fun m => (.ifElse body.1 other.1 :: m.1, m.2) else none
          | .eof => none
      else none
    | _ => (decodeSimple (b :: rest)).bind fun i => (decodeSeq fuel i.2).map fun m => (.simple i.1 :: m.1, m.2)

/-- The instructions of a body. -/
def decodeBody (bytes : List (BitVec 8)) : Option (List Code) :=
  (decodeSeq bytes.length bytes).bind fun m => if m.2.1 = .eof then some m.1 else none

theorem simple_cons (i : Simple) : ∃ b bs, i.bytes = b :: bs := by
  cases i with
  | plain i => exact bytes_cons i
  | _ => exact ⟨_, _, rfl⟩

/-- A simple instruction is not taken for the start or the end of a block. -/
theorem decodeSeq_simple (i : Simple) (fuel : ℕ) (rest : List (BitVec 8)) :
    decodeSeq (fuel + 1) (i.bytes ++ rest) = (decodeSeq fuel rest).map fun m => (.simple i :: m.1, m.2) := by
  have h : decodeSeq (fuel + 1) (i.bytes ++ rest) =
      (decodeSimple (i.bytes ++ rest)).bind fun i => (decodeSeq fuel i.2).map fun m => (.simple i.1 :: m.1, m.2) := by
    cases i with
    | plain i =>
      cases i with
      | bin op => cases op <;> rfl
      | _ => rfl
    | cmp op => cases op <;> rfl
    | bin32 op => cases op <;> rfl
    | arith op => cases op <;> rfl
    | _ => rfl
  rw [h, decodeSimple_bytes, Option.bind_some]

theorem decodeSeq_bytes (fuel : ℕ) : ∀ (cs : List Code) (e : Ending) (rest : List (BitVec 8)), (e = .eof → rest = []) →
    (bytesAll cs ++ e.bytes ++ rest).length ≤ fuel → decodeSeq fuel (bytesAll cs ++ e.bytes ++ rest) = some (cs, e, rest) := by
  induction fuel with
  | zero =>
    intro cs e rest he h
    have hnil := List.length_eq_zero_iff.1 (Nat.le_zero.1 h)
    rw [hnil]
    simp only [List.append_eq_nil_iff] at hnil
    obtain ⟨⟨hcs, hb⟩, rfl⟩ := hnil
    cases e with
    | eof =>
      cases cs with
      | nil => rfl
      | cons c cs =>
        cases c with
        | simple i =>
          obtain ⟨b, bs, hi⟩ := simple_cons i
          rw [bytesAll, Code.bytes, hi] at hcs
          cases hcs
        | _ => cases hcs
    | _ => cases hb
  | succ fuel ih =>
    intro cs e rest he h
    cases cs with
    | nil =>
      cases e with
      | eof =>
        rw [he rfl]
        rfl
      | _ => rfl
    | cons c cs =>
      rw [bytesAll, List.append_assoc, List.append_assoc] at h ⊢
      have hrest (d : Code) (hd : c = d) (hle : (bytesAll cs ++ e.bytes ++ rest).length ≤ fuel) :
          ((decodeSeq fuel (bytesAll cs ++ (e.bytes ++ rest))).map fun m => (d :: m.1, m.2)) = some (c :: cs, e, rest) := by
        rw [← List.append_assoc, ih cs e rest he hle, hd, Option.map_some]
      cases c with
      | simple i =>
        obtain ⟨b, bs, hi⟩ := simple_cons i
        rw [Code.bytes] at h ⊢
        rw [decodeSeq_simple]
        refine hrest _ rfl ?_
        rw [hi] at h
        simp only [List.length_append, List.length_cons] at h ⊢
        omega
      | ret =>
        refine hrest _ rfl ?_
        simp only [Code.bytes, List.length_append, List.length_cons] at h ⊢
        omega
      | returnCall f =>
        change ((decodeIndex (encodeU f.toNat ++ _)).bind _) = _
        rw [decodeIndex_encode, Option.bind_some]
        refine hrest _ rfl ?_
        simp only [Code.bytes, List.length_append, List.length_cons] at h ⊢
        omega
      | ifThen body =>
        simp only [Code.bytes, List.length_append, List.length_cons, List.length_nil] at h
        have hbody : decodeSeq fuel (bytesAll body ++ [0x0b] ++ (bytesAll cs ++ (e.bytes ++ rest))) =
            some (body, .fin, bytesAll cs ++ (e.bytes ++ rest)) :=
          ih body .fin _ (fun hf => Ending.noConfusion hf) (by
            simp only [Ending.length_fin, List.length_append]
            omega)
        change (decodeSeq fuel (bytesAll body ++ [0x0b] ++ (bytesAll cs ++ (e.bytes ++ rest)))).bind _ = _
        rw [hbody, Option.bind_some]
        refine hrest _ rfl ?_
        simp only [List.length_append]
        omega
      | ifElse body other =>
        simp only [Code.bytes, List.length_append, List.length_cons, List.length_nil] at h
        have hother : decodeSeq fuel (bytesAll other ++ [0x0b] ++ (bytesAll cs ++ (e.bytes ++ rest))) =
            some (other, .fin, bytesAll cs ++ (e.bytes ++ rest)) :=
          ih other .fin _ (fun hf => Ending.noConfusion hf) (by
            simp only [Ending.length_fin, List.length_append]
            omega)
        have hbody : decodeSeq fuel (bytesAll body ++ [0x05] ++ (bytesAll other ++ [0x0b] ++ (bytesAll cs ++ (e.bytes ++ rest)))) =
            some (body, .otherwise, bytesAll other ++ [0x0b] ++ (bytesAll cs ++ (e.bytes ++ rest))) :=
          ih body .otherwise _ (fun hf => Ending.noConfusion hf) (by
            simp only [Ending.length_otherwise, List.length_append, List.length_cons, List.length_nil]
            omega)
        change (decodeSeq fuel ((bytesAll body ++ 0x05 :: (bytesAll other ++ [0x0b])) ++ (bytesAll cs ++ (e.bytes ++ rest)))).bind _ = _
        rw [show (bytesAll body ++ 0x05 :: (bytesAll other ++ [0x0b])) ++ (bytesAll cs ++ (e.bytes ++ rest)) =
            bytesAll body ++ [0x05] ++ (bytesAll other ++ [0x0b] ++ (bytesAll cs ++ (e.bytes ++ rest))) by
          simp only [List.append_assoc, List.cons_append, List.nil_append], hbody, Option.bind_some]
        dsimp only
        rw [hother, Option.bind_some]
        dsimp only
        rw [if_pos rfl]
        refine hrest _ rfl ?_
        simp only [List.length_append]
        omega

/-- **A body is read back.** -/
theorem decodeBody_bytes (cs : List Code) : decodeBody (bytesAll cs) = some cs := by
  have h := decodeSeq_bytes (bytesAll cs).length cs .eof [] (fun _ => rfl) (by simp [Ending.bytes])
  rw [Ending.bytes, List.append_nil, List.append_nil] at h
  unfold decodeBody
  rw [h]
  rfl

/-! ## Execution -/

/-- The 32-bit truth values. -/
def truth (p : Prop) [Decidable p] : BitVec 32 := if p then 1 else 0

section

variable (p q : Prop) [Decidable p] [Decidable q]

theorem truth_congr (h : p ↔ q) : truth p = truth q := by
  unfold truth
  simp only [h]

theorem truth_and : truth p &&& truth q = truth (p ∧ q) := by
  unfold truth
  by_cases hp : p <;> by_cases hq : q <;> simp [hp, hq]

theorem truth_or : truth p ||| truth q = truth (p ∨ q) := by
  unfold truth
  by_cases hp : p <;> by_cases hq : q <;> simp [hp, hq]

theorem truth_eq_zero : truth p = 0 ↔ ¬p := by
  unfold truth
  by_cases hp : p <;> simp [hp]

theorem truth_ne_zero : truth p ≠ 0 ↔ p := by
  rw [ne_eq, truth_eq_zero, not_not]

theorem truth_widen : (truth p).setWidth 64 = if p then 1 else 0 := by
  unfold truth
  by_cases hp : p <;> simp [hp]

end

def CmpOp.eval (a b : BitVec 64) : CmpOp → BitVec 32
  | eq => truth (a = b)
  | ne => truth (a ≠ b)
  | ltS => truth (a.slt b)
  | ltU => truth (a.ult b)
  | geS => truth (¬a.slt b)
  | geU => truth (¬a.ult b)

theorem CmpOp.eval_ne (a b : BitVec 64) : CmpOp.eval a b .ne = truth (a ≠ b) := rfl

theorem CmpOp.eval_ltU (a b : BitVec 64) : CmpOp.eval a b .ltU = truth (a.ult b = true) := rfl

theorem CmpOp.eval_geU (a b : BitVec 64) : CmpOp.eval a b .geU = truth (¬a.ult b = true) := rfl

def Bin32Op.eval (a b : BitVec 32) : Bin32Op → BitVec 32
  | ne => truth (a ≠ b)
  | and => a &&& b
  | or => a ||| b

theorem Bin32Op.eval_ne (a b : BitVec 32) : Bin32Op.eval a b .ne = truth (a ≠ b) := rfl

/-- A division by zero traps, and so does the signed quotient that does not fit. -/
def ArithOp.eval (a b : BitVec 64) : ArithOp → Option (BitVec 64)
  | divS => if b = 0 ∨ a = BitVec.intMin 64 ∧ b = -1 then none else some (a.sdiv b)
  | divU => if b = 0 then none else some (a / b)
  | remS => if b = 0 then none else some (a.srem b)
  | remU => if b = 0 then none else some (a % b)
  | or => some (a ||| b)
  | xor => some (a ^^^ b)
  | shl => some (a <<< (b.toNat % 64))

def Memory.load32 (m : Memory) (a : ℕ) : Option (BitVec 32) :=
  if a + 4 ≤ m.size then some (BitVec.ofNat 32 (Memory.number m.byte a 4)) else none

/-- A store in range. -/
def Memory.put (m : Memory) (a : ℕ) (v : BitVec 64) : Memory :=
  { m with byte := fun i => if a ≤ i ∧ i < a + 8 then BitVec.ofNat 8 (v.toNat / 256 ^ (i - a)) else m.byte i }

section

variable {m : Memory} {a b : ℕ} {v : BitVec 64}

theorem Memory.store64_put (h : a + 8 ≤ m.size) : m.store64 a v = some (m.put a v) := if_pos h

@[simp] theorem Memory.put_size : (m.put a v).size = m.size := rfl

theorem Memory.byte_put_ne {i : ℕ} (h : ¬(a ≤ i ∧ i < a + 8)) : (m.put a v).byte i = m.byte i := if_neg h

theorem Memory.load64_put (h : a + 8 ≤ m.size) : (m.put a v).load64 a = some v := load64_store64 (store64_put h)

theorem Memory.load64_put_ne (h : a + 8 ≤ m.size) (hd : b + 8 ≤ a ∨ a + 8 ≤ b) : (m.put a v).load64 b = m.load64 b :=
  load64_store64_ne (store64_put h) hd

end

/-- One instruction; none when it traps or the operands are of the wrong type. -/
def Simple.exec (s : State) : Simple → Option State
  | plain i => i.exec s
  | cmp op =>
    match s.stack with
    | .i64 b :: .i64 a :: stack => some { s with stack := .i32 (op.eval a b) :: stack }
    | _ => none
  | bin32 op =>
    match s.stack with
    | .i32 b :: .i32 a :: stack => some { s with stack := .i32 (op.eval a b) :: stack }
    | _ => none
  | arith op =>
    match s.stack with
    | .i64 b :: .i64 a :: stack => (op.eval a b).map fun v => { s with stack := .i64 v :: stack }
    | _ => none
  | eqz64 =>
    match s.stack with
    | .i64 a :: stack => some { s with stack := .i32 (truth (a = 0)) :: stack }
    | _ => none
  | eqz32 =>
    match s.stack with
    | .i32 a :: stack => some { s with stack := .i32 (truth (a = 0)) :: stack }
    | _ => none
  | select =>
    match s.stack with
    | .i32 v :: .i64 b :: .i64 a :: stack => some { s with stack := .i64 (if v ≠ 0 then a else b) :: stack }
    | _ => none
  | wrap =>
    match s.stack with
    | .i64 a :: stack => some { s with stack := .i32 (a.setWidth 32) :: stack }
    | _ => none
  | extendS =>
    match s.stack with
    | .i32 a :: stack => some { s with stack := .i64 (a.signExtend 64) :: stack }
    | _ => none
  | extendU =>
    match s.stack with
    | .i32 a :: stack => some { s with stack := .i64 (a.setWidth 64) :: stack }
    | _ => none
  | i32Load _ offset =>
    match s.stack with
    | .i32 a :: stack => (s.mem.load32 (a.toNat + offset.toNat)).map fun v => { s with stack := .i32 v :: stack }
    | _ => none

/-- How a function ends: it returns, or another function takes over with its argument. -/
inductive Exit where
  | returned (mem : Memory)
  | tailCalled (f arg : BitVec 32) (mem : Memory)

/-- Where code ends up: past its last instruction, or out of the function. -/
inductive Flow where
  | next (s : State)
  | left (e : Exit)

/-- The stack of a block is its own: it starts empty, and what encloses it goes on with its own stack. -/
def Flow.leave (stack : List Val) : Flow → Option Flow
  | next s => if s.stack = [] then some (.next { s with stack }) else none
  | left e => some (.left e)

def Flow.andThen (k : State → Option Flow) : Flow → Option Flow
  | next s => k s
  | left e => some (.left e)

/-- The end of a function that has no result returns. -/
def Flow.close : Flow → Option Exit
  | next s => if s.stack = [] then some (.returned s.mem) else none
  | left e => some e

mutual

def Code.exec : Code → State → Option Flow
  | .simple i, s => (i.exec s).map .next
  | .ifThen body, s =>
    match s.stack with
    | .i32 v :: stack =>
      if v ≠ 0 then (execAll body { s with stack := [] }).bind (Flow.leave stack) else some (.next { s with stack })
    | _ => none
  | .ifElse body other, s =>
    match s.stack with
    | .i32 v :: stack =>
      if v ≠ 0 then (execAll body { s with stack := [] }).bind (Flow.leave stack)
      else (execAll other { s with stack := [] }).bind (Flow.leave stack)
    | _ => none
  | .ret, s => some (.left (.returned s.mem))
  | .returnCall f, s =>
    match s.stack with
    | .i32 arg :: _ => some (.left (.tailCalled f arg s.mem))
    | _ => none

def execAll : List Code → State → Option Flow
  | [], s => some (.next s)
  | c :: cs, s => (c.exec s).bind (Flow.andThen (execAll cs))

end

/-- The execution of the body of a function. -/
def runBody (cs : List Code) (s : State) : Option Exit := (execAll cs s).bind Flow.close

theorem Flow.andThen_bind (k k' : State → Option Flow) (o : Flow) :
    (o.andThen k).bind (Flow.andThen k') = o.andThen fun s => (k s).bind (Flow.andThen k') := by
  cases o <;> rfl

theorem execAll_append (cs ds : List Code) (s : State) :
    execAll (cs ++ ds) s = (execAll cs s).bind (Flow.andThen (execAll ds)) := by
  induction cs generalizing s with
  | nil => rfl
  | cons c cs ih =>
    rw [List.cons_append, execAll, execAll, Option.bind_assoc]
    congr 1
    funext o
    rw [Flow.andThen_bind]
    congr 1
    funext t
    exact ih t

/-- Code that goes on to `t` may be left out before what starts in `t`. -/
theorem execAll_next {cs : List Code} {s t : State} (h : execAll cs s = some (.next t)) (ds : List Code) :
    execAll (cs ++ ds) s = execAll ds t := by
  rw [execAll_append, h]
  rfl

theorem runBody_close {cs : List Code} {s : State} {o : Flow} {e : Exit} (ho : execAll cs s = some o) (he : o.close = some e) :
    runBody cs s = some e := by
  unfold runBody
  rw [ho]
  exact he

theorem runBody_next {cs : List Code} {s t : State} (h : execAll cs s = some (.next t)) (ds : List Code) :
    runBody (cs ++ ds) s = runBody ds t := by
  unfold runBody
  rw [execAll_next h]

/-- Code that leaves the function is followed by nothing. -/
theorem execAll_left {cs : List Code} {s : State} {e : Exit} (h : execAll cs s = some (.left e)) (ds : List Code) :
    execAll (cs ++ ds) s = some (.left e) := by
  rw [execAll_append, h]
  rfl

theorem execAll_straight (is : List Instr) (s : State) : execAll (straight is) s = (run is s).map .next := by
  induction is generalizing s with
  | nil => rfl
  | cons i is ih =>
    change (((i.exec s).map Flow.next).bind (Flow.andThen (execAll (straight is)))) = ((i.exec s).bind (run is)).map .next
    cases i.exec s with
    | none => rfl
    | some t => exact ih t

/-- A local that straight-line code does not set stays as it is. -/
theorem run_locals {is : List Instr} {s t : State} {k : ℕ} (h : run is s = some t) (hk : ∀ i, Instr.localSet i ∈ is → i.toNat ≠ k) :
    t.locals k = s.locals k := by
  induction is generalizing s with
  | nil =>
    obtain rfl := Option.some.inj h
    rfl
  | cons i is ih =>
    obtain ⟨u, hu, hr⟩ := Option.bind_eq_some_iff.1 h
    rw [ih hr fun j hj => hk j (List.mem_cons_of_mem _ hj)]
    cases i with
    | localSet j =>
      have hj := hk j List.mem_cons_self
      simp only [Instr.exec] at hu
      split at hu
      · obtain rfl := Option.some.inj hu
        exact if_neg hj.symm
      · obtain rfl := Option.some.inj hu
        exact if_neg hj.symm
      · cases hu
    | i32Const v =>
      obtain rfl := Option.some.inj hu
      rfl
    | i64Const v =>
      obtain rfl := Option.some.inj hu
      rfl
    | localGet j =>
      obtain ⟨v, -, rfl⟩ := Option.map_eq_some_iff.1 hu
      rfl
    | i64Load align offset =>
      simp only [Instr.exec] at hu
      split at hu
      · obtain ⟨v, -, rfl⟩ := Option.map_eq_some_iff.1 hu
        rfl
      · cases hu
    | i64Store align offset =>
      simp only [Instr.exec] at hu
      split at hu
      · obtain ⟨v, -, rfl⟩ := Option.map_eq_some_iff.1 hu
        rfl
      · cases hu
    | bin op =>
      obtain ⟨v, -, rfl⟩ := Option.map_eq_some_iff.1 hu
      rfl

/-! ### One instruction after another -/

section

variable (cs : List Code) (s : State)

@[simp] theorem exec_i32Const (v : BitVec 32) : execAll (.simple (.plain (.i32Const v)) :: cs) s = execAll cs
  (s.push (.i32 v)) := rfl

@[simp] theorem exec_i64Const (v : BitVec 64) : execAll (.simple (.plain (.i64Const v)) :: cs) s = execAll cs
  (s.push (.i64 v)) := rfl

theorem exec_localGet {i : BitVec 32} {v : Val} (h : s.locals i.toNat = some v) :
    execAll (.simple (.plain (.localGet i)) :: cs) s = execAll cs (s.push v) := by
  change (((s.locals i.toNat).map s.push).map Flow.next).bind _ = _
  rw [h]
  rfl

theorem exec_localSet {i : BitVec 32} {v w : BitVec 64} (h : s.locals i.toNat = some (.i64 w)) :
    execAll (.simple (.plain (.localSet i)) :: cs) (s.push (.i64 v)) = execAll cs (s.setLocal i.toNat (.i64 v)) := by
  change (((Instr.localSet i).exec (s.push (.i64 v))).map Flow.next).bind _ = _
  unfold Instr.exec
  simp only [State.push_stack, State.push_locals, h]
  rfl

/-- The address of an access with a constant base. -/
theorem toNat_offset (k : ℕ) : (0 : BitVec 32).toNat + k = k := Nat.zero_add k

theorem exec_i64Load {align a : BitVec 32} {offset v : BitVec 64} (h : s.mem.load64 (a.toNat + offset.toNat) = some v) :
    execAll (.simple (.plain (.i64Load align offset)) :: cs) (s.push (.i32 a)) = execAll cs (s.push (.i64 v)) := by
  change (((s.mem.load64 (a.toNat + offset.toNat)).map fun v => s.push (.i64 v)).map Flow.next).bind _ = _
  rw [h]
  rfl

theorem exec_i32Load {align a : BitVec 32} {offset : BitVec 64} {v : BitVec 32}
    (h : s.mem.load32 (a.toNat + offset.toNat) = some v) :
    execAll (.simple (.i32Load align offset) :: cs) (s.push (.i32 a)) = execAll cs (s.push (.i32 v)) := by
  change (((s.mem.load32 (a.toNat + offset.toNat)).map fun v => s.push (.i32 v)).map Flow.next).bind _ = _
  rw [h]
  rfl

theorem exec_i64Store {align a : BitVec 32} {offset v : BitVec 64} (h : a.toNat + offset.toNat + 8 ≤ s.mem.size) :
    execAll (.simple (.plain (.i64Store align offset)) :: cs) ((s.push (.i32 a)).push (.i64 v)) =
      execAll cs { s with mem := s.mem.put (a.toNat + offset.toNat) v } := by
  change (((s.mem.store64 (a.toNat + offset.toNat) v).map fun mem => { s with mem }).map Flow.next).bind _ = _
  rw [Memory.store64_put h]
  rfl

variable (a b : BitVec 64) (u v : BitVec 32)

@[simp] theorem exec_bin (op : BinOp) : execAll (.simple (.plain (.bin op)) :: cs) ((s.push (.i64 a)).push (.i64 b)) =
    execAll cs (s.push (.i64 (op.eval a b))) := rfl

@[simp] theorem exec_cmp (op : CmpOp) : execAll (.simple (.cmp op) :: cs) ((s.push (.i64 a)).push (.i64 b)) =
    execAll cs (s.push (.i32 (op.eval a b))) := rfl

@[simp] theorem exec_bin32 (op : Bin32Op) : execAll (.simple (.bin32 op) :: cs) ((s.push (.i32 u)).push (.i32 v)) =
    execAll cs (s.push (.i32 (op.eval u v))) := rfl

theorem exec_arith {op : ArithOp} {r : BitVec 64} (h : op.eval a b = some r) :
    execAll (.simple (.arith op) :: cs) ((s.push (.i64 a)).push (.i64 b)) = execAll cs (s.push (.i64 r)) := by
  change (((op.eval a b).map fun v => s.push (.i64 v)).map Flow.next).bind _ = _
  rw [h]
  rfl

@[simp] theorem exec_eqz64 : execAll (.simple .eqz64 :: cs) (s.push (.i64 a)) = execAll cs (s.push (.i32 (truth (a = 0)))) := rfl

@[simp] theorem exec_eqz32 : execAll (.simple .eqz32 :: cs) (s.push (.i32 u)) = execAll cs (s.push (.i32 (truth (u = 0)))) := rfl

@[simp] theorem exec_select : execAll (.simple .select :: cs) (((s.push (.i64 a)).push (.i64 b)).push (.i32 u)) =
    execAll cs (s.push (.i64 (if u ≠ 0 then a else b))) := rfl

@[simp] theorem exec_wrap : execAll (.simple .wrap :: cs) (s.push (.i64 a)) = execAll cs (s.push (.i32 (a.setWidth 32))) := rfl

@[simp] theorem exec_extendS : execAll (.simple .extendS :: cs) (s.push (.i32 u)) = execAll cs
  (s.push (.i64 (u.signExtend 64))) := rfl

@[simp] theorem exec_extendU : execAll (.simple .extendU :: cs) (s.push (.i32 u)) = execAll cs
  (s.push (.i64 (u.setWidth 64))) := rfl

variable (p : Prop) [Decidable p]

/-- A conditional return. -/
theorem exec_guard : execAll (.ifThen [.ret] :: cs) (s.push (.i32 (truth p))) =
    if p then some (.left (.returned s.mem)) else execAll cs s := by
  unfold truth
  split_ifs <;> rfl

variable {p}

/-- A conditional whose condition fails is passed over. -/
theorem exec_pass (h : ¬p) (body : List Code) : execAll (.ifThen body :: cs) (s.push (.i32 (truth p))) = execAll cs s := by
  unfold truth
  rw [if_neg h]
  rfl

/-- A conditional whose body leaves the function. -/
theorem exec_side (h : p) {body : List Code} {e : Exit} (hb : execAll body { s with stack := [] } = some (.left e)) :
    execAll (.ifThen body :: cs) (s.push (.i32 (truth p))) = some (.left e) := by
  unfold truth
  rw [if_pos h]
  change ((((execAll body { s with stack := [] })).bind (Flow.leave s.stack)).bind _) = _
  rw [hb]
  rfl

/-- The arm that a condition selects. -/
theorem exec_arm {body other : List Code} {o : Flow}
    (h : execAll (if p then body else other) { s with stack := [] } = some o) :
    execAll (.ifElse body other :: cs) (s.push (.i32 (truth p))) = (o.leave s.stack).bind (Flow.andThen (execAll cs)) := by
  unfold truth
  split_ifs at h with hp
  · rw [if_pos hp]
    change ((((execAll body { s with stack := [] })).bind (Flow.leave s.stack)).bind _) = _
    rw [h]
    rfl
  · rw [if_neg hp]
    change ((((execAll other { s with stack := [] })).bind (Flow.leave s.stack)).bind _) = _
    rw [h]
    rfl

end

end Wasm
end Lish
