import Seismic.Binary.Double

/-!
# Sine and cosine

Both are computed in binary fixed point with `places` digits after the point and rounded
once at the end.  An angle is first reduced by the nearest multiple of a right angle, for
which `π` is taken to as many further digits as the angle has before the point.  No 64-bit
angle has a sine or cosine closer than about `2 ^ -120` (relative) to a point halfway
between two 64-bit numbers, so the rounded results are the correctly rounded ones.
-/

namespace Seismic

structure Turn (α : Type) where
  sin : α
  cos : α
  deriving Repr, BEq

namespace Circle

open Float.Model.UnpackedFloat (Sign)

def places : Nat := 256

/-- The sum of the terms that `next k term` produces from `term`, until one is zero. -/
def series (next : Nat → Int → Int) : Nat → Nat → Int → Int
  | 0, _, _ => 0
  | fuel + 1, k, term =>
    if term = 0 then 0 else term + series next fuel (k + 1) (next k term)

/-- `2 ^ p` times the arc tangent of `1 / n`: the terms `(1 / n) ^ (2 * k + 1)` are divided
by `± (2 * k + 1)`. -/
def arcTangentInverse (p n : Nat) : Int :=
  let rec sum : Nat → Nat → Int → Int
    | 0, _, _ => 0
    | fuel + 1, k, power =>
      if power = 0 then 0
      else
        let term := power / (2 * k + 1 : Nat)
        (if k % 2 = 0 then term else -term) + sum fuel (k + 1) (power / (n * n : Nat))
  sum p 0 ((1 <<< p : Nat) / n)

/-- Further digits with which `π` is computed. -/
def guardDigits : Nat := 32

/-- `2 ^ p` times `π`, by Machin's formula. -/
def pi (p : Nat) : Int :=
  let q := p + guardDigits
  (16 * arcTangentInverse q 5 - 4 * arcTangentInverse q 239) >>> guardDigits

/-- `2 ^ places` times the sine of `r / 2 ^ places`. -/
def sine (r : Int) : Int :=
  let square := (r * r) >>> places
  series (fun k term => -((term * square) >>> places / ((2 * k) * (2 * k + 1) : Nat))) places 1 r

/-- `2 ^ places` times the cosine of `r / 2 ^ places`. -/
def cosine (r : Int) : Int :=
  let square := (r * r) >>> places
  series (fun k term => -((term * square) >>> places / ((2 * k - 1) * (2 * k) : Nat)))
    places 1 (1 <<< places : Nat)

def ofFixed (n : Int) : Float :=
  if n < 0 then Double.ofParts .negative (-n).toNat (-places)
  else Double.ofParts .positive n.toNat (-places)

/-- Sine and cosine of `m * 2 ^ e`.  `quarter` is the number of right angles taken off. -/
def ofMagnitude (m : Nat) (e : Int) : Turn Float :=
  let p := places + e.toNat + 64
  let angle : Int := if 0 ≤ e + p then (m <<< (e + p).toNat : Nat) else (m >>> (-(e + p)).toNat : Nat)
  let right := pi p / 2
  let quarter := (2 * angle + right) / (2 * right)
  let rest := (angle - quarter * right) >>> (p - places)
  let s := ofFixed (sine rest)
  let c := ofFixed (cosine rest)
  match (quarter % 4).toNat with
  | 0 => ⟨s, c⟩
  | 1 => ⟨c, -s⟩
  | 2 => ⟨-s, -c⟩
  | _ => ⟨-c, s⟩

/-- Sine and cosine of an angle in radians.  Below `2 ^ -27` the sine rounds to the angle
and the cosine to one.  An angle that is not finite has neither. -/
def ofRadians (x : Float) : Turn Float :=
  match x.toModel.unpack with
  | .finite s m e _ =>
    if (m.log2 : Int) + e < -27 then ⟨x, 1⟩
    else
      let turn := ofMagnitude m e
      match s with
      | .positive => turn
      | .negative => ⟨-turn.sin, turn.cos⟩
  | .zero _ => ⟨x, 1⟩
  | _ => ⟨Double.undefined, Double.undefined⟩

/-- The 64-bit number closest to `π / 180`. -/
def radiansPerDegree : Float := .ofBits 0x3F91DF46A2529D39

def ofDegrees (x : Float) : Turn Float := ofRadians (x * radiansPerDegree)

end Circle
end Seismic
