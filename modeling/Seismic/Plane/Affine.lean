import Seismic.Failure
import Seismic.Binary.Circle

/-!
# Points and affine maps of the plane

Maps are given by six coefficients.  A map that scales, turns and moves the plane has an
inverse in closed form; any other is inverted through its determinant.
-/

namespace Seismic

structure Point (α : Type) where
  x : α
  y : α
  deriving Repr, BEq

/-- The map `(x, y) ↦ (a * x + b * y + c, d * x + e * y + f)`. -/
structure Affine (α : Type) where
  a : α
  b : α
  c : α
  d : α
  e : α
  f : α
  deriving Repr, BEq

namespace Affine

variable {α : Type} [Scalar α]

def apply (t : Affine α) (p : Point α) : Point α :=
  ⟨t.a * p.x + t.b * p.y + t.c, t.d * p.x + t.e * p.y + t.f⟩

/-- Scale by `scale`, turn counter-clockwise and move the origin to `origin`. -/
def placing (origin scale : Point α) (turn : Turn α) : Affine α :=
  ⟨scale.x * turn.cos, -scale.y * turn.sin, origin.x,
    scale.x * turn.sin, scale.y * turn.cos, origin.y⟩

/-- The inverse of `placing`, entry by entry. -/
def locating (origin scale : Point α) (turn : Turn α) : Affine α :=
  ⟨turn.cos / scale.x, turn.sin / scale.x,
    -(turn.cos * origin.x + turn.sin * origin.y) / scale.x,
    -turn.sin / scale.y, turn.cos / scale.y,
    (turn.sin * origin.x - turn.cos * origin.y) / scale.y⟩

def determinant (t : Affine α) : α := t.a * t.e - t.b * t.d

/-- The inverse of a map whose determinant is a number other than zero. -/
def inverse (t : Affine α) : Result α (Affine α) :=
  let det := t.determinant
  if det == 0 || !Scalar.isFinite det then .error .notInvertible
  else .ok
    ⟨t.e / det, -t.b / det, (t.b * t.f - t.c * t.e) / det,
      -t.d / det, t.a / det, (t.c * t.d - t.a * t.f) / det⟩

end Affine
end Seismic
