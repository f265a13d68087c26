import Seismic.Scalar

/-!
# Tolerant rounding

A position within a thousandth of a sample counts as lying on it.  Decimal inputs such as
`4.999` are not exact in binary, so the distance to a sample is allowed a further few units
in the last place of the position.
-/

namespace Seismic
namespace Tolerance

variable {α : Type} [Scalar α]

/-- The distance below which a value is considered to sit on a sample. -/
def width : α := 1 / 1000

/-- The distance between one and the next 64-bit number, `2 ^ -52`. -/
def epsilon : α := 1 / Scalar.ofNat 0x10000000000000

/-- The representation error allowed for a value as large as `x`. -/
def noise (x : α) : α := Scalar.max (Scalar.abs x) 1 * epsilon * 8

/-- Whether a distance measured at `x` is small enough to be ignored. -/
def admits (distance x : α) : Bool := distance ≤ width + noise x

/-- The floor, unless the value is within tolerance of its ceiling. -/
def floor (x : α) : α :=
  let above := Scalar.ceil x
  if admits (Scalar.abs (x - above)) x then above else Scalar.floor x

/-- The ceiling, unless the value is within tolerance of its floor. -/
def ceil (x : α) : α :=
  let below := Scalar.floor x
  if admits (Scalar.abs (x - below)) x then below else Scalar.ceil x

/-- The phase of `x` on the lattice of multiples of `y`, in `[0, y)`.  A remainder within
tolerance of `y`, or one that is representation error only, counts as zero. -/
def phase (x y : α) : α :=
  let r := Scalar.remainderUp x y
  if r ≤ noise x ∨ admits (Scalar.abs (r - y)) x then 0 else r

end Tolerance
end Seismic
