import Lish.Core.Cpu
import Lish.Core.SoftFp
/-!
# OpFp — floating-point instructions of the hart

What an FP instruction writes, as a function of the registers.  An operation is soft-float, but for the native fast path:
add, subtract, multiply and divide run on the host when the inexact flag is already set and no other could be raised.
-/
namespace Lish

open SoftFp

/-- The host's native operations on encodings: format, operation (0 to 3: add, sub, mul, div) and operands. -/
abbrev HostFp := Sf → ℕ → ℕ → ℕ → ℕ

/-- A format in a 64-bit register: how an operand is read and a result written. -/
structure FpFormat where
  sf : Sf
  unbox : U64 → ℕ
  box : ℕ → U64

/-- f32 operand: NaN-boxed reads; improper boxes read as qNaN. -/
def ub32 (r : U64) : U32 := if r >>> 32 = 0xffffffff then r.setWidth 32 else 0x7fc00000

def bx32 (v : U32) : U64 := 0xffffffff00000000 ||| v.setWidth 64

def fmtS : FpFormat := ⟨sf32, fun r => (ub32 r).toNat, fun v => bx32 (BitVec.ofNat 32 v)⟩
def fmtD : FpFormat := ⟨sf64, fun r => r.toNat, fun v => BitVec.ofNat 64 v⟩

def fpFormat (fmt : ℕ) : Option FpFormat :=
  match fmt with
  | 0 => some fmtS
  | 1 => some fmtD
  | _ => none

/-- What an FP instruction writes: an integer or an FP register, and the flags to accrue. -/
structure FpOut where
  toX : Bool
  value : U64
  flags : FFlags
  deriving DecidableEq

namespace Cpu

/-- Resolve a rounding mode field (7 = dynamic via frm); none = reserved encoding. -/
def getRm (c : Cpu) (rmField : ℕ) : Option ℕ :=
  let rm := if rmField = 7 then ((c.fcsr >>> 5) &&& 7).toNat else rmField
  if rm ≤ 4 then some rm else none

/-- Native fast path, valid only at RNE with NX already set. -/
def fpFast (f : Sf) (host : HostFp) (op a b : ℕ) : Option ℕ :=
  let ea := f.expOf a
  let eb := f.expOf b
  if ea = f.expMask ∨ eb = f.expMask then none -- NaN/inf operands
  else if op = 3 ∧ f.shl b 1 = 0 then none -- divide by zero
  else
    let rb := host f op a b
    let er := f.expOf rb
    let ok : Bool := match op with
      | 0 | 1 => er ≠ f.expMask
      | 2 => (1 ≤ er ∧ er ≤ f.expMask - 1) ∨ (f.shl rb 1 = 0 ∧ (f.shl a 1 = 0 ∨ f.shl b 1 = 0))
      | _ => (1 ≤ er ∧ er ≤ f.expMask - 1) ∨ (f.shl rb 1 = 0 ∧ f.shl a 1 = 0)
    if ok then some rb else none

def fpFast64 (host : HostFp) : ℕ → ℕ → ℕ → Option ℕ := fpFast sf64 host
def fpFast32 (host : HostFp) : ℕ → ℕ → ℕ → Option ℕ := fpFast sf32 host

def softArith (f : Sf) (op a b rm : ℕ) (fl : FFlags) : ℕ × FFlags :=
  match op with
  | 0 => f.add a b rm fl
  | 1 => f.sub a b rm fl
  | 2 => f.mul a b rm fl
  | _ => f.div a b rm fl

/-- The arithmetic arms of OP-FP; no host means no fast path. -/
def fpArith (host : Option HostFp) (f : Sf) (fcsr : U32) (op a b rm : ℕ) : ℕ × FFlags :=
  let fast : Option ℕ :=
    if rm = RM_RNE ∧ fcsr &&& FFLAG_INEXACT ≠ 0 then host.bind fun h => fpFast f h op a b else none
  match fast with
  | some r => (r, 0)
  | none => softArith f op a b rm 0

/-- Sign injection in a format; none = illegal. -/
def fpSignInject (f : Sf) (f3 a b : ℕ) : Option ℕ :=
  let s := f.signMask
  match f3 with
  | 0 => some (a &&& (s - 1) ||| b &&& s)
  | 1 => some (a &&& (s - 1) ||| (b &&& s) ^^^ s)
  | 2 => some (a ^^^ b &&& s)
  | _ => none

def toF (w : FpFormat) (r : ℕ × FFlags) : FpOut := ⟨false, w.box r.1, r.2⟩
def toXBool (r : Bool × FFlags) : FpOut := ⟨true, if r.1 then 1 else 0, r.2⟩

/-- The result of a conversion to a 32-bit (sign-extended) or a 64-bit integer. -/
def toX32 (r : ℕ × FFlags) : FpOut := ⟨true, (BitVec.ofNat 32 r.1).signExtend 64, r.2⟩
def toX64 (r : ℕ × FFlags) : FpOut := ⟨true, BitVec.ofNat 64 r.1, r.2⟩

/-- OP-FP (opcode 0x53): what it writes; none = illegal. -/
def opFp (host : Option HostFp) (c : Cpu) (insn : U32) : Option FpOut :=
  let f7 := funct7 insn
  let op := f7 / 4
  let f3 := funct3 insn
  let s2 := (rs2 insn).val
  match fpFormat (f7 % 4) with
  | none => none
  | some w =>
    let a := w.unbox (c.f (rs1 insn))
    let b := w.unbox (c.f (rs2 insn))
    match op with
    | 0 | 1 | 2 | 3 => (c.getRm f3).map fun rm => toF w (fpArith host w.sf c.fcsr op a b rm)
    | 0x0b => if s2 = 0 then (c.getRm f3).map fun rm => toF w (w.sf.sqrt a rm 0) else none
    | 0x04 => (fpSignInject w.sf f3 a b).map fun r => toF w (r, 0)
    | 0x05 =>
      match f3 with
      | 0 => some (toF w (w.sf.min a b 0))
      | 1 => some (toF w (w.sf.max a b 0))
      | _ => none
    | 0x08 =>
      if f7 % 4 = 0 ∧ s2 = 1 then -- FCVT.S.D
        (c.getRm f3).map fun rm => toF fmtS (cvtSf64Sf32 (fmtD.unbox (c.f (rs1 insn))) rm 0)
      else if f7 % 4 = 1 ∧ s2 = 0 then -- FCVT.D.S
        some (toF fmtD (cvtSf32Sf64 (fmtS.unbox (c.f (rs1 insn))) 0))
      else none
    | 0x14 =>
      match f3 with
      | 2 => some (toXBool (w.sf.eqQuiet a b 0))
      | 1 => some (toXBool (w.sf.lt a b 0))
      | 0 => some (toXBool (w.sf.le a b 0))
      | _ => none
    | 0x18 =>
      (c.getRm f3).bind fun rm =>
        match s2 with
        | 0 => some (toX32 (w.sf.cvtToI32 a rm 0 false))
        | 1 => some (toX32 (w.sf.cvtToI32 a rm 0 true))
        | 2 => some (toX64 (w.sf.cvtToI64 a rm 0 false))
        | 3 => some (toX64 (w.sf.cvtToI64 a rm 0 true))
        | _ => none
    | 0x1a =>
      (c.getRm f3).bind fun rm =>
        let x := c.x (rs1 insn)
        match s2 with
        | 0 => some (toF w (w.sf.cvtFromI32 (x.setWidth 32).toNat rm 0 false))
        | 1 => some (toF w (w.sf.cvtFromI32 (x.setWidth 32).toNat rm 0 true))
        | 2 => some (toF w (w.sf.cvtFromI64 x.toNat rm 0 false))
        | 3 => some (toF w (w.sf.cvtFromI64 x.toNat rm 0 true))
        | _ => none
    | 0x1c =>
      match f3 with
      | 0 => -- FMV.X.W reads the raw low word
        some ⟨true, if f7 % 4 = 0 then ((c.f (rs1 insn)).setWidth 32).signExtend 64 else c.f (rs1 insn), 0⟩
      | 1 => some ⟨true, BitVec.ofNat 64 (w.sf.fclass a), 0⟩
      | _ => none
    | 0x1e =>
      if f3 = 0 then
        some ⟨false, if f7 % 4 = 0 then bx32 ((c.x (rs1 insn)).setWidth 32) else c.x (rs1 insn), 0⟩
      else none
    | _ => none

/-- FMADD, FMSUB, FNMSUB, FNMADD: what they write; none = illegal. -/
def fmaOut (c : Cpu) (insn : U32) : Option FpOut :=
  let rs3 : Fin 32 := (insn.extractLsb' 27 5).toFin
  let negProd := opcode insn = 0x4b ∨ opcode insn = 0x4f
  let negC := opcode insn = 0x47 ∨ opcode insn = 0x4f
  (c.getRm (funct3 insn)).bind fun rm =>
    (fpFormat (funct7 insn % 4)).map fun w =>
      let a := w.unbox (c.f (rs1 insn))
      let b := w.unbox (c.f (rs2 insn))
      let d := w.unbox (c.f rs3)
      let a := if negProd then a ^^^ w.sf.signMask else a
      let d := if negC then d ^^^ w.sf.signMask else d
      toF w (w.sf.fma a b d rm 0)

end Cpu
end Lish
