import Seismic.Scalar

/-!
# 64-bit binary numbers as scalars

Sum, difference, product, quotient, square root and comparison of `Float` have a meaning
in the logic.  Rounding to an integral value, the remainder and conversion to an integer do
not, so they are defined here by integer arithmetic on the mantissa and the exponent of the
argument.  Each of them is exact: where the result is not the argument itself it is an
integer below `2 ^ 53`, or a remainder with no more digits than its operands.
-/

namespace Seismic
namespace Double

open Float.Model (Format UnpackedFloat)
open Float.Model.UnpackedFloat (Sign)

def undefined : Float := .ofModel (.pack .notANumber)

def infinity (s : Sign) : Float := .ofModel (.pack (.infinity s))

def zero (s : Sign) : Float := .ofModel (.pack (.zero s))

/-- The number closest to `± m * 2 ^ e`, a tie going to the even mantissa. -/
def ofParts (s : Sign) (m : Nat) (e : Int) : Float :=
  if m = 0 then zero s
  else .ofModel (.pack (UnpackedFloat.round Format.binary64 s m e))

/-- An integer as a number.  Zero takes the sign of the number it was rounded from. -/
def integral (s : Sign) (n : Int) : Float :=
  if n = 0 then zero s else Float.ofInt n

/-- The function `f` of the numerator and the denominator of a number that may have a
fraction, applied to the numbers that have one.  All others are integral already. -/
def roundBy (f : Int → Int → Int) (x : Float) : Float :=
  match x.toModel.unpack with
  | .finite s m e _ =>
    if 0 ≤ e then x else integral s (f (s.apply m) (1 <<< (-e).toNat : Nat))
  | _ => x

def quotientDown (n d : Int) : Int := n.fdiv d

def quotientUp (n d : Int) : Int := -((-n).fdiv d)

/-- Quotient rounded to the nearest integer, halves away from zero. -/
def quotientNearest (n d : Int) : Int :=
  if n < 0 then -((2 * (-n) + d).fdiv (2 * d)) else (2 * n + d).fdiv (2 * d)

def floor (x : Float) : Float := roundBy quotientDown x

def ceil (x : Float) : Float := roundBy quotientUp x

def nearest (x : Float) : Float := roundBy quotientNearest x

def integerPart (s : Sign) (m : Nat) (e : Int) : Int :=
  if 0 ≤ e then s.apply (m <<< e.toNat : Nat) else s.apply (m >>> (-e).toNat : Nat)

def clampedInt (low high : Int) (x : Float) : Int :=
  match x.toModel.unpack with
  | .notANumber => 0
  | .infinity .positive => high
  | .infinity .negative => low
  | .zero _ => Max.max low (Min.min high 0)
  | .finite s m e _ => Max.max low (Min.min high (integerPart s m e))

/-- The remainder of `x` by `y`, with the sign of `x`.  Both are brought to the smaller of
their exponents, where the remainder of the mantissas is exact. -/
def remainder (x y : Float) : Float :=
  match x.toModel.unpack, y.toModel.unpack with
  | .finite s m e _, .finite _ m' e' _ =>
    let low := Min.min e e'
    let n := m <<< (e - low).toNat
    let d := m' <<< (e' - low).toNat
    ofParts s (n % d) low
  | .finite .., .infinity _ => x
  | .zero _, .finite .. => x
  | .zero _, .infinity _ => x
  | _, _ => undefined

/-- Position of a number in the total order: negative numbers below positive ones, the
undefined value above infinity. -/
def orderKey (x : Float) : Int :=
  let b := x.toBits.toNat
  if b < signedBound then b else (signedBound : Int) - b - 1

end Double

instance : Scalar Float where
  decLE := inferInstance
  decLT := inferInstance
  ofInt := Float.ofInt
  abs := Float.abs
  floor := Double.floor
  ceil := Double.ceil
  nearest := Double.nearest
  clampedInt := Double.clampedInt
  remainder := Double.remainder
  isFinite := Float.isFinite
  totalLe x y := Double.orderKey x ≤ Double.orderKey y

instance : Root Float := ⟨Float.sqrt⟩

instance : Limits Float where
  posInf := Double.infinity .positive
  negInf := Double.infinity .negative
  undefined := Double.undefined

end Seismic
