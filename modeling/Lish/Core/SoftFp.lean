import Mathlib.Data.Nat.Size
import Mathlib.Tactic.Linarith
/-!
# SoftFp — software floating point with exact flags

The body of the `softfp!` macro over a format, and its two instances.  A value of the macro's unsigned type is a `Nat`
below `2 ^ fSize`; wherever the machine type drops bits the definition says so (`shl`, `wadd`, `wsub`).  Exponents are
`Int`.  Every function threads the accrued flags `fl`.
-/
namespace Lish.SoftFp

abbrev FFlags := BitVec 32

-- fflags bits (RISC-V order)
def FFLAG_INEXACT : FFlags := 1#32
def FFLAG_UNDERFLOW : FFlags := 2#32
def FFLAG_DIVIDE_ZERO : FFlags := 4#32
def FFLAG_OVERFLOW : FFlags := 8#32
def FFLAG_INVALID_OP : FFlags := 16#32

-- rounding modes (RISC-V frm encoding)
def RM_RNE : ℕ := 0
def RM_RTZ : ℕ := 1
def RM_RDN : ℕ := 2
def RM_RUP : ℕ := 3
def RM_RMM : ℕ := 4

/-- The macro's parameters, with the layout they must have. -/
structure Sf where
  fSize : ℕ
  mantSize : ℕ
  expSize : ℕ
  layout : fSize = 1 + expSize + mantSize
  exp_ge : 5 ≤ expSize
  mant_ge : 4 ≤ mantSize
  deriving DecidableEq

def sf32 : Sf := ⟨32, 23, 8, by decide, by decide, by decide⟩
def sf64 : Sf := ⟨64, 52, 11, by decide, by decide, by decide⟩

namespace Sf

variable (f : Sf)

def expMask : ℕ := 2 ^ f.expSize - 1
def mantMask : ℕ := 2 ^ f.mantSize - 1
def signMask : ℕ := 2 ^ (f.fSize - 1)
def imantSize : ℕ := f.fSize - 2
def rndSize : ℕ := f.imantSize - f.mantSize
def qnanMask : ℕ := 2 ^ (f.mantSize - 1)
def qnan : ℕ := f.expMask <<< f.mantSize ||| 2 ^ (f.mantSize - 1)

/-! the machine word -/

def shl (a d : ℕ) : ℕ := (a <<< d) % 2 ^ f.fSize
def wadd (a b : ℕ) : ℕ := (a + b) % 2 ^ f.fSize
def wsub (a b : ℕ) : ℕ := (a + (2 ^ f.fSize - b)) % 2 ^ f.fSize
def leadingZeros (a : ℕ) : ℕ := f.fSize - a.size

def pack (sign exp mant : ℕ) : ℕ :=
  f.shl sign (f.fSize - 1) ||| f.shl exp f.mantSize ||| (mant &&& f.mantMask)

def rshiftRnd (a : ℕ) (d : ℤ) : ℕ :=
  if d = 0 then a
  else if d ≥ f.fSize then (if a ≠ 0 then 1 else 0)
  else
    let mask := 2 ^ d.toNat - 1
    a >>> d.toNat ||| (if a &&& mask ≠ 0 then 1 else 0)

def addend (sign rm : ℕ) : ℕ :=
  if rm = RM_RNE ∨ rm = RM_RMM then 2 ^ (f.rndSize - 1)
  else if rm = RM_RTZ then 0
  else if sign ^^^ (rm &&& 1) ≠ 0 then 2 ^ f.rndSize - 1 else 0

/-- `mant` has its most significant bit at `fSize - 2`, `rndSize` guard bits below the result. -/
def roundPack (sign : ℕ) (exp : ℤ) (mant rm : ℕ) (fl : FFlags) : ℕ × FFlags :=
  let addend := f.addend sign rm
  let rndMask := 2 ^ f.rndSize - 1
  let (mant, exp, fl) :=
    if exp ≤ 0 then
      -- underflow flag: rounded result subnormal and inexact
      let isSubnormal := exp < 0 ∨ f.wadd mant addend < 2 ^ (f.fSize - 1)
      let mant := f.rshiftRnd mant (1 - exp)
      (mant, 1, if isSubnormal ∧ mant &&& rndMask ≠ 0 then fl ||| FFLAG_UNDERFLOW else fl)
    else (mant, exp, fl)
  let rndBits := mant &&& rndMask
  let fl := if rndBits ≠ 0 then fl ||| FFLAG_INEXACT else fl
  let mant := f.wadd mant addend >>> f.rndSize
  -- halfway: round to even
  let mant := if rm = RM_RNE ∧ rndBits = 2 ^ (f.rndSize - 1) then mant &&& (2 ^ f.fSize - 2) else mant
  let exp := exp + (mant >>> (f.mantSize + 1) : ℕ)
  if mant ≤ f.mantMask then (f.pack sign 0 mant, fl) -- subnormal or zero
  else if exp ≥ f.expMask then
    if addend = 0 then
      (f.pack sign (f.expMask - 1) f.mantMask, fl ||| (FFLAG_OVERFLOW ||| FFLAG_INEXACT))
    else (f.pack sign f.expMask 0, fl ||| (FFLAG_OVERFLOW ||| FFLAG_INEXACT))
  else (f.pack sign exp.toNat mant, fl)

/-- `mant` has at most `fSize - 1` bits. -/
def normalize (sign : ℕ) (exp : ℤ) (mant rm : ℕ) (fl : FFlags) : ℕ × FFlags :=
  let shift : ℤ := (f.leadingZeros mant : ℤ) - (f.fSize - 1 - f.imantSize : ℕ)
  f.roundPack sign (exp - shift) (f.shl mant shift.toNat) rm fl

/-- Double-word mantissa variant (`hi` has at most `fSize - 1` bits). -/
def normalize2 (sign : ℕ) (exp : ℤ) (hi lo rm : ℕ) (fl : FFlags) : ℕ × FFlags :=
  let l : ℤ := if hi = 0 then (f.fSize : ℤ) + f.leadingZeros lo else f.leadingZeros hi
  let shift := l - (f.fSize - 1 - f.imantSize : ℕ)
  let exp := exp - shift
  let hi :=
    if shift = 0 then hi ||| (if lo ≠ 0 then 1 else 0)
    else if shift < f.fSize then
      let hi := f.shl hi shift.toNat ||| lo >>> (f.fSize - shift.toNat)
      let lo := f.shl lo shift.toNat
      hi ||| (if lo ≠ 0 then 1 else 0)
    else f.shl lo (shift.toNat - f.fSize)
  f.roundPack sign exp hi rm fl

/-! fields of an encoding -/

def signOf (a : ℕ) : ℕ := a >>> (f.fSize - 1)
def expOf (a : ℕ) : ℕ := a >>> f.mantSize &&& f.expMask
def mantOf (a : ℕ) : ℕ := a &&& f.mantMask

def isNan (a : ℕ) : Bool := f.expOf a = f.expMask ∧ f.mantOf a ≠ 0

def isSignan (a : ℕ) : Bool :=
  let exp1 := a >>> (f.mantSize - 1) &&& (2 ^ (f.expSize + 1) - 1)
  exp1 = 2 * f.expMask ∧ f.mantOf a ≠ 0

/-- The normalized mantissa of a subnormal, with its exponent. -/
def normalizeSubnormal (mant : ℕ) : ℤ × ℕ :=
  let shift : ℤ := (f.mantSize : ℤ) - (f.fSize - 1 - f.leadingZeros mant)
  (1 - shift, f.shl mant shift.toNat)

def invalidOpIf (c : Bool) (fl : FFlags) : FFlags := if c then fl ||| FFLAG_INVALID_OP else fl

def add (a b rm : ℕ) (fl : FFlags) : ℕ × FFlags :=
  -- swap so |a| >= |b|
  let (a, b) := if a &&& (f.signMask - 1) < b &&& (f.signMask - 1) then (b, a) else (a, b)
  let aSign := f.signOf a
  let bSign := f.signOf b
  let aExp := f.expOf a
  let bExp := f.expOf b
  let aMant := f.shl (f.mantOf a) 3
  let bMant := f.shl (f.mantOf b) 3
  if aExp = f.expMask then
    if aMant ≠ 0 then
      (f.qnan, invalidOpIf (aMant &&& f.shl f.qnanMask 3 = 0 ∨ f.isSignan b) fl)
    else if bExp = f.expMask ∧ aSign ≠ bSign then (f.qnan, fl ||| FFLAG_INVALID_OP)
    else (a, fl) -- infinity
  else
    let (aExp, aMant) := if aExp = 0 then (1, aMant) else (aExp, aMant ||| 2 ^ (f.mantSize + 3))
    let (bExp, bMant) := if bExp = 0 then (1, bMant) else (bExp, bMant ||| 2 ^ (f.mantSize + 3))
    let bMant := f.rshiftRnd bMant (aExp - bExp : ℕ)
    let (aSign, aMant) :=
      if aSign = bSign then (aSign, f.wadd aMant bMant)
      else
        let aMant := f.wsub aMant bMant
        (if aMant = 0 then (if rm = RM_RDN then 1 else 0) else aSign, aMant)
    f.normalize aSign ((aExp : ℤ) + ((f.rndSize : ℤ) - 3)) aMant rm fl

def sub (a b rm : ℕ) (fl : FFlags) : ℕ × FFlags := f.add a (b ^^^ f.signMask) rm fl

def mulU (a b : ℕ) : ℕ × ℕ :=
  let r := a * b
  (r >>> f.fSize % 2 ^ f.fSize, r % 2 ^ f.fSize)

def mul (a b rm : ℕ) (fl : FFlags) : ℕ × FFlags :=
  let aSign := f.signOf a
  let bSign := f.signOf b
  let rSign := aSign ^^^ bSign
  let aExp := f.expOf a
  let bExp := f.expOf b
  let aMant := f.mantOf a
  let bMant := f.mantOf b
  if aExp = f.expMask ∨ bExp = f.expMask then
    if f.isNan a ∨ f.isNan b then (f.qnan, invalidOpIf (f.isSignan a ∨ f.isSignan b) fl)
    else if (aExp = f.expMask ∧ (bExp = 0 ∧ bMant = 0)) ∨ (bExp = f.expMask ∧ (aExp = 0 ∧ aMant = 0)) then
      (f.qnan, fl ||| FFLAG_INVALID_OP)
    else (f.pack rSign f.expMask 0, fl)
  else if aExp = 0 ∧ aMant = 0 then (f.pack rSign 0 0, fl)
  else
    let (aExp, aMant) : ℤ × ℕ :=
      if aExp = 0 then f.normalizeSubnormal aMant else (aExp, aMant ||| 2 ^ f.mantSize)
    if bExp = 0 ∧ bMant = 0 then (f.pack rSign 0 0, fl)
    else
      let (bExp, bMant) : ℤ × ℕ :=
        if bExp = 0 then f.normalizeSubnormal bMant else (bExp, bMant ||| 2 ^ f.mantSize)
      let rExp := aExp + bExp - 2 ^ (f.expSize - 1) + 2
      let (rMant, rLow) := f.mulU (f.shl aMant f.rndSize) (f.shl bMant (f.rndSize + 1))
      let rMant := rMant ||| (if rLow ≠ 0 then 1 else 0)
      f.normalize rSign rExp rMant rm fl

/-- The last steps of `fma`: both operands as exponent and double-word mantissa `hi:lo`. -/
def fmaSum (rSign : ℕ) (rExp : ℤ) (r1 r0 cSign : ℕ) (cExp : ℤ) (c1 c0 rm : ℕ) (fl : FFlags) : ℕ × FFlags :=
  -- shift c right by the exponent difference
  let shift := rExp - cExp
  let (c1, c0) :=
    if shift ≥ 2 * f.fSize then (0, if c0 ||| c1 ≠ 0 then 1 else 0)
    else if shift > f.fSize then (0, f.rshiftRnd c1 (shift - f.fSize))
    else if shift = f.fSize then (0, c1 ||| (if c0 ≠ 0 then 1 else 0))
    else if shift ≠ 0 then
      let d := shift.toNat
      let mask := 2 ^ d - 1
      (c1 >>> d, f.shl c1 (f.fSize - d) ||| c0 >>> d ||| (if c0 &&& mask ≠ 0 then 1 else 0))
    else (c1, c0)
  if rSign = cSign then
    let r0 := f.wadd r0 c0
    let r1 := f.wadd (f.wadd r1 c1) (if r0 < c0 then 1 else 0)
    f.normalize2 rSign rExp r1 r0 rm fl
  else
    let tmp := r0
    let r0 := f.wsub r0 c0
    let r1 := f.wsub (f.wsub r1 c1) (if r0 > tmp then 1 else 0)
    let rSign := if r0 ||| r1 = 0 then (if rm = RM_RDN then 1 else 0) else rSign
    f.normalize2 rSign rExp r1 r0 rm fl

def fma (a b c rm : ℕ) (fl : FFlags) : ℕ × FFlags :=
  let aSign := f.signOf a
  let bSign := f.signOf b
  let cSign := f.signOf c
  let rSign := aSign ^^^ bSign
  let aExp := f.expOf a
  let bExp := f.expOf b
  let cExp := f.expOf c
  let aMant := f.mantOf a
  let bMant := f.mantOf b
  let cMant := f.mantOf c
  if aExp = f.expMask ∨ bExp = f.expMask ∨ cExp = f.expMask then
    if f.isNan a ∨ f.isNan b ∨ f.isNan c then
      (f.qnan, invalidOpIf (f.isSignan a ∨ f.isSignan b ∨ f.isSignan c) fl)
    else if (aExp = f.expMask ∧ (bExp = 0 ∧ bMant = 0)) ∨ (bExp = f.expMask ∧ (aExp = 0 ∧ aMant = 0))
        ∨ ((aExp = f.expMask ∨ bExp = f.expMask) ∧ (cExp = f.expMask ∧ rSign ≠ cSign)) then
      (f.qnan, fl ||| FFLAG_INVALID_OP)
    else if cExp = f.expMask then (f.pack cSign f.expMask 0, fl)
    else (f.pack rSign f.expMask 0, fl)
  -- a * b == 0 cases
  else if (aExp = 0 ∧ aMant = 0) ∨ (bExp = 0 ∧ bMant = 0) then
    if cExp = 0 ∧ cMant = 0 then
      (f.pack (if cSign ≠ rSign then (if rm = RM_RDN then 1 else 0) else rSign) 0 0, fl)
    else (c, fl)
  else
    let (aExp, aMant) : ℤ × ℕ :=
      if aExp = 0 then f.normalizeSubnormal aMant else (aExp, aMant ||| 2 ^ f.mantSize)
    let (bExp, bMant) : ℤ × ℕ :=
      if bExp = 0 then f.normalizeSubnormal bMant else (bExp, bMant ||| 2 ^ f.mantSize)
    let rExp := aExp + bExp - 2 ^ (f.expSize - 1) + 3
    let (r1, r0) := f.mulU (f.shl aMant f.rndSize) (f.shl bMant f.rndSize)
    -- normalize product to fSize - 3
    let (rExp, r1, r0) :=
      if r1 < 2 ^ (f.fSize - 3) then (rExp - 1, f.shl r1 1 ||| r0 >>> (f.fSize - 1), f.shl r0 1)
      else (rExp, r1, r0)
    if cExp = 0 ∧ cMant = 0 then f.normalize rSign rExp (r1 ||| (if r0 ≠ 0 then 1 else 0)) rm fl
    else
      let (cExp, cMant) : ℤ × ℕ :=
        if cExp = 0 then f.normalizeSubnormal cMant else (cExp, cMant ||| 2 ^ f.mantSize)
      let cExp := cExp + 1
      let c1 := f.shl cMant (f.rndSize - 1)
      -- ensure |r| >= |c|
      if rExp > cExp ∨ (rExp = cExp ∧ r1 ≥ c1) then
        f.fmaSum rSign rExp r1 r0 cSign cExp c1 0 rm fl
      else f.fmaSum cSign cExp c1 0 rSign rExp r1 r0 rm fl

def divremU (ah al b : ℕ) : ℕ × ℕ :=
  let a := ah <<< f.fSize ||| al
  (a / b % 2 ^ f.fSize, a % b % 2 ^ f.fSize)

def div (a b rm : ℕ) (fl : FFlags) : ℕ × FFlags :=
  let aSign := f.signOf a
  let bSign := f.signOf b
  let rSign := aSign ^^^ bSign
  let aExp := f.expOf a
  let bExp := f.expOf b
  let aMant := f.mantOf a
  let bMant := f.mantOf b
  if aExp = f.expMask then
    if aMant ≠ 0 ∨ f.isNan b then (f.qnan, invalidOpIf (f.isSignan a ∨ f.isSignan b) fl)
    else if bExp = f.expMask then (f.qnan, fl ||| FFLAG_INVALID_OP)
    else (f.pack rSign f.expMask 0, fl)
  else if bExp = f.expMask then
    if bMant ≠ 0 then (f.qnan, invalidOpIf (f.isSignan a ∨ f.isSignan b) fl)
    else (f.pack rSign 0 0, fl)
  else if bExp = 0 ∧ bMant = 0 then
    if aExp = 0 ∧ aMant = 0 then (f.qnan, fl ||| FFLAG_INVALID_OP)
    else (f.pack rSign f.expMask 0, fl ||| FFLAG_DIVIDE_ZERO)
  else
    let (bExp, bMant) : ℤ × ℕ :=
      if bExp = 0 then f.normalizeSubnormal bMant else (bExp, bMant ||| 2 ^ f.mantSize)
    if aExp = 0 ∧ aMant = 0 then (f.pack rSign 0 0, fl)
    else
      let (aExp, aMant) : ℤ × ℕ :=
        if aExp = 0 then f.normalizeSubnormal aMant else (aExp, aMant ||| 2 ^ f.mantSize)
      let rExp := aExp - bExp + 2 ^ (f.expSize - 1) - 1
      let (rMant, rem) := f.divremU aMant 0 (f.shl bMant 2)
      let rMant := if rem ≠ 0 then rMant ||| 1 else rMant
      f.normalize rSign rExp rMant rm fl

/-- The Newton iteration of `sqrtrem_u`: `s` decreases until it is the floor of the root.  As `s` stays at or above it,
`a / s + s` fits the double word. -/
def sqrtLoop (a s : ℕ) : ℕ :=
  let u := (a / s + s) / 2
  if u ≥ s then s else sqrtLoop a u
termination_by s

/-- Root of `ah:al`, below `2 ^ (fSize - 2)`, and whether it is inexact. -/
def sqrtremU (ah al : ℕ) : ℕ × Bool :=
  if ah = 0 ∧ al = 0 then (0, false)
  else
    let a := ah <<< f.fSize ||| al
    let l := if ah ≠ 0 then 2 * f.fSize - f.leadingZeros (ah - 1) else f.fSize - f.leadingZeros (f.wsub al 1)
    let s := sqrtLoop a (2 ^ ((l + 1) / 2))
    (s % 2 ^ f.fSize, a - s * s ≠ 0)

def sqrt (a rm : ℕ) (fl : FFlags) : ℕ × FFlags :=
  let aSign := f.signOf a
  let aExp := f.expOf a
  let aMant := f.mantOf a
  if aExp = f.expMask then
    if aMant ≠ 0 then (f.qnan, invalidOpIf (f.isSignan a) fl)
    else if aSign ≠ 0 then (f.qnan, fl ||| FFLAG_INVALID_OP)
    else (a, fl) -- +inf
  else if aSign ≠ 0 then
    if aExp = 0 ∧ aMant = 0 then (a, fl) -- -0
    else (f.qnan, fl ||| FFLAG_INVALID_OP)
  else if aExp = 0 ∧ aMant = 0 then (f.pack 0 0 0, fl)
  else
    let (aExp, aMant) : ℤ × ℕ :=
      if aExp = 0 then f.normalizeSubnormal aMant else (aExp, aMant ||| 2 ^ f.mantSize)
    let aExp := aExp - (f.expMask / 2 : ℕ)
    let (aExp, aMant) := if aExp % 2 ≠ 0 then (aExp - 1, f.shl aMant 1) else (aExp, aMant)
    let aExp := aExp / 2 + (f.expMask / 2 : ℕ)
    let aMant := f.shl aMant (f.fSize - 4 - f.mantSize)
    let (root, inexact) := f.sqrtremU aMant 0
    let root := if inexact then root ||| 1 else root
    f.normalize aSign aExp root rm fl

/-! minimumNumber / maximumNumber and comparisons -/

def minMaxNan (a b : ℕ) (fl : FFlags) : ℕ × FFlags :=
  (if f.isNan a then (if f.isNan b then f.qnan else b) else a, invalidOpIf (f.isSignan a ∨ f.isSignan b) fl)

/-- `(a < b) as u32 ^ a_sign`: `a` comes first among two numbers of one sign. -/
def firstOfSign (a b : ℕ) : Bool := (if a < b then 1 else 0) ^^^ f.signOf a ≠ 0

def min (a b : ℕ) (fl : FFlags) : ℕ × FFlags :=
  if f.isNan a ∨ f.isNan b then f.minMaxNan a b fl
  else if f.signOf a ≠ f.signOf b then (if f.signOf a ≠ 0 then a else b, fl)
  else (if f.firstOfSign a b then a else b, fl)

def max (a b : ℕ) (fl : FFlags) : ℕ × FFlags :=
  if f.isNan a ∨ f.isNan b then f.minMaxNan a b fl
  else if f.signOf a ≠ f.signOf b then (if f.signOf a ≠ 0 then b else a, fl)
  else (if f.firstOfSign a b then b else a, fl)

def eqQuiet (a b : ℕ) (fl : FFlags) : Bool × FFlags :=
  if f.isNan a ∨ f.isNan b then (false, invalidOpIf (f.isSignan a ∨ f.isSignan b) fl)
  else if f.shl (a ||| b) 1 = 0 then (true, fl) -- +0 == -0
  else (a = b, fl)

def le (a b : ℕ) (fl : FFlags) : Bool × FFlags :=
  if f.isNan a ∨ f.isNan b then (false, fl ||| FFLAG_INVALID_OP)
  else if f.signOf a ≠ f.signOf b then (f.signOf a ≠ 0 ∨ f.shl (a ||| b) 1 = 0, fl)
  else if f.signOf a ≠ 0 then (a ≥ b, fl)
  else (a ≤ b, fl)

def lt (a b : ℕ) (fl : FFlags) : Bool × FFlags :=
  if f.isNan a ∨ f.isNan b then (false, fl ||| FFLAG_INVALID_OP)
  else if f.signOf a ≠ f.signOf b then (f.signOf a ≠ 0 ∧ f.shl (a ||| b) 1 ≠ 0, fl)
  else if f.signOf a ≠ 0 then (a > b, fl)
  else (a < b, fl)

def fclass (a : ℕ) : ℕ :=
  let aSign := f.signOf a
  let aExp := f.expOf a
  let aMant := f.mantOf a
  if aExp = f.expMask then
    if aMant ≠ 0 then (if aMant &&& f.qnanMask ≠ 0 then 2 ^ 9 else 2 ^ 8) -- qNaN, sNaN
    else if aSign ≠ 0 then 2 ^ 0 else 2 ^ 7
  else if aExp = 0 then
    if aMant = 0 then (if aSign ≠ 0 then 2 ^ 3 else 2 ^ 4)
    else if aSign ≠ 0 then 2 ^ 2 else 2 ^ 5
  else if aSign ≠ 0 then 2 ^ 1 else 2 ^ 6

/-! float to integer and back; `isz` is the width of the integer type -/

def cvtToI (isz : ℕ) (a rm : ℕ) (fl : FFlags) (unsigned : Bool) : ℕ × FFlags :=
  let aSign := f.signOf a
  let aExp := f.expOf a
  let aMant := f.mantOf a
  let aSign := if aExp = f.expMask ∧ aMant ≠ 0 then 0 else aSign -- NaN behaves like +inf
  let (aExp, aMant) := if aExp = 0 then (1, aMant) else (aExp, aMant ||| 2 ^ f.mantSize)
  let aMant := f.shl aMant f.rndSize
  let aExp : ℤ := (aExp : ℤ) - (f.expMask / 2 : ℕ) - f.mantSize
  let rMax := if unsigned then (aSign + (2 ^ isz - 1)) % 2 ^ isz else 2 ^ (isz - 1) - (aSign ^^^ 1)
  let negate (r : ℕ) : ℕ := if aSign ≠ 0 then (2 ^ isz - r) % 2 ^ isz else r
  if aExp ≥ 0 then
    if aExp ≤ (isz : ℤ) - 1 - f.mantSize then
      let r := ((aMant >>> f.rndSize) % 2 ^ isz) <<< aExp.toNat % 2 ^ isz
      if r > rMax then (rMax, fl ||| FFLAG_INVALID_OP) else (negate r, fl)
    else (rMax, fl ||| FFLAG_INVALID_OP)
  else
    let aMant := f.rshiftRnd aMant (-aExp)
    let rndBits := aMant &&& (2 ^ f.rndSize - 1)
    let aMant := f.wadd aMant (f.addend aSign rm) >>> f.rndSize
    let aMant := if rm = RM_RNE ∧ rndBits = 2 ^ (f.rndSize - 1) then aMant &&& (2 ^ f.fSize - 2) else aMant
    if aMant > rMax then (rMax, fl ||| FFLAG_INVALID_OP)
    else (negate (aMant % 2 ^ isz), if rndBits ≠ 0 then fl ||| FFLAG_INEXACT else fl)

def cvtToI32 (a rm : ℕ) (fl : FFlags) (unsigned : Bool) : ℕ × FFlags := f.cvtToI 32 a rm fl unsigned
def cvtToI64 (a rm : ℕ) (fl : FFlags) (unsigned : Bool) : ℕ × FFlags := f.cvtToI 64 a rm fl unsigned

def cvtFromI (isz : ℕ) (a rm : ℕ) (fl : FFlags) (unsigned : Bool) : ℕ × FFlags :=
  let (aSign, r) := if !unsigned && decide (2 ^ (isz - 1) ≤ a) then (1, (2 ^ isz - a) % 2 ^ isz) else (0, a)
  let aExp : ℤ := (f.expMask / 2 : ℕ) + f.fSize - 2
  -- reduce range before generic normalization
  let l : ℤ := (isz : ℤ) - (isz - r.size : ℕ) - ((f.fSize : ℤ) - 1)
  let (aExp, r) :=
    if l > 0 then
      let mask := 2 ^ l.toNat - 1
      (aExp + l, r >>> l.toNat ||| (if r &&& mask ≠ 0 then 1 else 0))
    else (aExp, r)
  f.normalize aSign aExp (r % 2 ^ f.fSize) rm fl

def cvtFromI32 (a rm : ℕ) (fl : FFlags) (unsigned : Bool) : ℕ × FFlags := f.cvtFromI 32 a rm fl unsigned
def cvtFromI64 (a rm : ℕ) (fl : FFlags) (unsigned : Bool) : ℕ × FFlags := f.cvtFromI 64 a rm fl unsigned

end Sf

/-! ## Conversions between f32 and f64 -/

def shl64 (a d : ℕ) : ℕ := (a <<< d) % 2 ^ 64
def shl32 (a d : ℕ) : ℕ := (a <<< d) % 2 ^ 32

/-- f32 to f64: exact (a signaling NaN becomes the canonical quiet one). -/
def cvtSf32Sf64 (a : ℕ) (fl : FFlags) : ℕ × FFlags :=
  let aSign := a >>> 31
  let aExp := a >>> 23 &&& 0xff
  let aMant := a &&& 0x7fffff
  if aExp = 0xff then
    if aMant ≠ 0 then (sf64.qnan, Sf.invalidOpIf (sf32.isSignan a) fl)
    else (shl64 aSign 63 ||| 0x7ff <<< 52, fl)
  else if aExp = 0 then
    if aMant = 0 then (shl64 aSign 63, fl)
    else
      -- normalize subnormal
      let shift := 23 - (31 - (32 - aMant.size))
      let exp : ℤ := 1 - shift
      let mant := shl32 aMant shift &&& 0x7fffff
      let e := (exp - 0x7f + 0x3ff).toNat
      (shl64 aSign 63 ||| e <<< 52 ||| mant <<< (52 - 23), fl)
  else
    let e := aExp + 0x3ff - 0x7f
    (shl64 aSign 63 ||| e <<< 52 ||| aMant <<< (52 - 23), fl)

def rshiftRndU64 (a : ℕ) (d : ℤ) : ℕ :=
  if d = 0 then a
  else if d ≥ 64 then (if a ≠ 0 then 1 else 0)
  else
    let mask := 2 ^ d.toNat - 1
    a >>> d.toNat ||| (if a &&& mask ≠ 0 then 1 else 0)

/-- The local copy of `roundPack` for f32 that the f64 to f32 conversion uses. -/
def roundPackSf32 (sign : ℕ) (exp : ℤ) (mant rm : ℕ) (fl : FFlags) : ℕ × FFlags :=
  let addend :=
    if rm = RM_RNE ∨ rm = RM_RMM then 2 ^ 6
    else if rm = RM_RTZ then 0
    else if sign ^^^ (rm &&& 1) ≠ 0 then 2 ^ 7 - 1 else 0
  let (mant, exp, fl) :=
    if exp ≤ 0 then
      let isSubnormal := exp < 0 ∨ (mant + addend) % 2 ^ 32 < 2 ^ 31
      let mant := rshiftRndU64 mant (1 - exp) % 2 ^ 32
      (mant, 1, if isSubnormal ∧ mant &&& (2 ^ 7 - 1) ≠ 0 then fl ||| FFLAG_UNDERFLOW else fl)
    else (mant, exp, fl)
  let rndBits := mant &&& (2 ^ 7 - 1)
  let fl := if rndBits ≠ 0 then fl ||| FFLAG_INEXACT else fl
  let mant := ((mant + addend) % 2 ^ 32) >>> 7
  let mant := if rm = RM_RNE ∧ rndBits = 2 ^ 6 then mant &&& (2 ^ 32 - 2) else mant
  let exp := exp + (mant >>> 24 : ℕ)
  if mant ≤ 2 ^ 23 - 1 then (sf32.pack sign 0 mant, fl)
  else if exp ≥ 0xff then
    if addend = 0 then (sf32.pack sign (0xff - 1) (2 ^ 23 - 1), fl ||| (FFLAG_OVERFLOW ||| FFLAG_INEXACT))
    else (sf32.pack sign 0xff 0, fl ||| (FFLAG_OVERFLOW ||| FFLAG_INEXACT))
  else (sf32.pack sign exp.toNat mant, fl)

def normalizeSf32From (sign : ℕ) (exp : ℤ) (mant rm : ℕ) (fl : FFlags) : ℕ × FFlags :=
  let shift : ℤ := (32 - mant.size : ℕ) - 1 -- to bit 30
  roundPackSf32 sign (exp - shift) (shl32 mant shift.toNat) rm fl

/-- f64 to f32: rounded. -/
def cvtSf64Sf32 (a rm : ℕ) (fl : FFlags) : ℕ × FFlags :=
  let aSign := a >>> 63
  let aExp := a >>> 52 &&& 0x7ff
  let aMant := a &&& 0xfffffffffffff
  if aExp = 0x7ff then
    if aMant ≠ 0 then (sf32.qnan, Sf.invalidOpIf (sf64.isSignan a) fl)
    else (sf32.pack aSign 0xff 0, fl)
  else if aExp = 0 ∧ aMant = 0 then (sf32.pack aSign 0 0, fl)
  else
    let (aExp, aMant) : ℤ × ℕ :=
      if aExp = 0 then
        -- shifting the leading 1 up to bit 52 makes it act as the hidden bit
        let shift := 52 - (63 - (64 - aMant.size))
        (1 - shift, shl64 aMant shift)
      else (aExp, aMant ||| 2 ^ 52)
    let exp32 := aExp - 0x3ff + 0x7f
    let mant := rshiftRndU64 aMant (52 - 30)
    normalizeSf32From aSign exp32 (mant % 2 ^ 32) rm fl

end Lish.SoftFp
