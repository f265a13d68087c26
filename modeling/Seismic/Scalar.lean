/-!
# Scalars and samples

Positions along axes and traces are computed in one number type, samples are stored in
another.  Everything that computes is written over the classes of this module, so the same
definitions run on binary floating point and can be read in exact arithmetic: a theorem
about a real survey instantiates them at the floating-point types, a theorem about the
geometry behind it instantiates them at a field.
-/

namespace Seismic

/-- Counts are below this number, `2 ^ 64`. -/
def countBound : Nat := 0x10000000000000000

/-- Signed numbers are below this number, `2 ^ 63`, and not below its negative. -/
def signedBound : Nat := 0x8000000000000000

/-- A number type in which positions are computed.  The order need not be total and `==`
need not be reflexive, as an undefined value is comparable with nothing. -/
class Scalar (α : Type) extends Add α, Sub α, Mul α, Div α, Neg α, LE α, LT α, BEq α where
  decLE : DecidableLE α
  decLT : DecidableLT α
  /-- The number closest to an integer. -/
  ofInt : Int → α
  abs : α → α
  floor : α → α
  ceil : α → α
  /-- The nearest integral number, halves away from zero. -/
  nearest : α → α
  /-- The integer part, clamped to `[low, high]`.  An undefined value has integer part
  zero. -/
  clampedInt : (low high : Int) → α → Int
  /-- `x - n * y` for the integer `n` closest to `x / y` on the side of zero, so the result
  has the sign of `x`. -/
  remainder : α → α → α
  isFinite : α → Bool
  /-- A total order that agrees with `≤` on defined values and puts undefined ones last. -/
  totalLe : α → α → Bool

namespace Scalar

instance {α : Type} [Scalar α] : DecidableLE α := Scalar.decLE

instance {α : Type} [Scalar α] : DecidableLT α := Scalar.decLT

instance (priority := low) {α : Type} {n : Nat} [Scalar α] : OfNat α n :=
  ⟨Scalar.ofInt n⟩

variable {α : Type} [Scalar α]

def ofNat (n : Nat) : α := ofInt (n : Int)

/-- Whether the value is undefined, which is when it differs from itself. -/
def isUndefined (x : α) : Bool := !(x == x)

/-- The larger of two numbers; an undefined one gives way to the other. -/
def max (x y : α) : α :=
  if isUndefined x then y
  else if isUndefined y then x
  else if x < y then y else x

/-- The smaller of two numbers; an undefined one gives way to the other. -/
def min (x y : α) : α :=
  if isUndefined x then y
  else if isUndefined y then x
  else if y < x then y else x

/-- `x` brought into `[low, high]`.  An undefined value stays as it is. -/
def clamp (x low high : α) : α :=
  let y := if x < low then low else x
  if high < y then high else y

/-- The remainder brought into `[0, |y|)` by adding `|y|` to a negative one. -/
def remainderUp (x y : α) : α :=
  let r := remainder x y
  if r < 0 then r + abs y else r

/-- The integer part as a signed 64-bit integer, clamped to that range. -/
def toInt64 (x : α) : Int := clampedInt (-signedBound) (signedBound - 1) x

/-- The integer part as a 64-bit count, clamped to that range. -/
def toCount (x : α) : Nat := (clampedInt 0 (countBound - 1) x).toNat

end Scalar

class Root (α : Type) where
  sqrt : α → α

/-- The values that stand for a missing least, greatest or defined element. -/
class Limits (α : Type) where
  posInf : α
  negInf : α
  undefined : α

/-- A storage type `σ` of samples whose values are numbers of type `α`. -/
class Sampled (σ : Type) (α : outParam Type) where
  /-- The number a sample stands for, without loss. -/
  widen : σ → α
  /-- The sample closest to a number. -/
  narrow : α → σ

namespace Sampled

variable {α σ : Type} [Scalar α] [Sampled σ α]

/-- Samples are added by rounding the sum of their values. -/
def add (s t : σ) : σ := narrow (widen s + widen t)

/-- Samples are multiplied by rounding the product of their values. -/
def mul (s t : σ) : σ := narrow (widen s * widen t)

def neg (s : σ) : σ := narrow (-widen s)

def zero : σ := narrow (0 : α)

/-- Equality of values: an undefined sample differs from itself, and zeros of both signs
are equal. -/
def same (s t : σ) : Bool := widen s == widen t

end Sampled

end Seismic
