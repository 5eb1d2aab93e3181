import Lish.Ieee.Round
/-!
# Comparisons and conversions

Numbers are ordered by their values, the infinities outside and the two zeros equal; a NaN compares with nothing.  A conversion to an
integer rounds once and saturates; a conversion to a format rounds once.
-/
namespace Lish.Ieee

namespace Datum

/-- The order of the numbers. -/
def lt : Datum → Datum → Bool
  | inf s, inf t => s && !t
  | inf s, num _ _ => s
  | num _ _, inf t => !t
  | num s p, num t q => decide ((num s p).toRat < (num t q).toRat)
  | _, _ => false

/-- Comparisons for equality signal on a signaling NaN only. -/
def eqQuiet (x y : Datum) : Bool × Flags :=
  if x.isNan || y.isNan then (false, { nv := x.isSignaling || y.isSignaling }) else (!x.lt y && !y.lt x, {})

/-- Comparisons for order signal on every NaN. -/
def ltSignaling (x y : Datum) : Bool × Flags := if x.isNan || y.isNan then (false, { nv := true }) else (x.lt y, {})

def leSignaling (x y : Datum) : Bool × Flags := if x.isNan || y.isNan then (false, { nv := true }) else (!y.lt x, {})

/-- The result of a minimum or maximum with a NaN: the other operand. -/
def otherNumber (x y : Datum) : Datum × Flags :=
  (if x.isNan then (if y.isNan then .nan false else y) else x, { nv := x.isSignaling || y.isSignaling })

/-- The smaller number; of two zeros the negative one. -/
def minNumber (x y : Datum) : Datum × Flags :=
  if x.isNan || y.isNan then otherNumber x y
  else (if x.lt y then x else if y.lt x then y else if x.neg then x else y, {})

/-- The larger number; of two zeros the positive one. -/
def maxNumber (x y : Datum) : Datum × Flags :=
  if x.isNan || y.isNan then otherNumber x y
  else (if y.lt x then x else if x.lt y then y else if x.neg then y else x, {})

/-- The integer a datum rounds to, cut to a range; a NaN goes to the upper end.  What is cut is invalid and not inexact. -/
def toInteger (m : Rounding) (lo hi : ℤ) : Datum → ℤ × Flags
  | nan _ => (hi, { nv := true })
  | inf s => (if s then lo else hi, { nv := true })
  | num s q =>
    let n : ℤ := if s then -roundNat m s q else roundNat m s q
    if n < lo then (lo, { nv := true })
    else if hi < n then (hi, { nv := true })
    else (n, { nx := decide ((roundNat m s q : ℚ) ≠ q) })

end Datum

/-- An integer in a format. -/
def Format.ofInteger (F : Format) (m : Rounding) (n : ℤ) : Datum × Flags :=
  if n = 0 then (.num false 0, {}) else F.round m (decide (n < 0)) |(n : ℚ)|

/-- A datum of another format. -/
def Format.convert (F : Format) (m : Rounding) (x : Datum) : Datum × Flags :=
  if x.isNan then propagate x.isSignaling
  else if x.isInf || x.isZero then (x, {})
  else F.round m x.neg |x.toRat|

end Lish.Ieee
