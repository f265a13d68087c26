import Seismic.Axis
import Seismic.Plane.Affine

/-!
# Coordinates of a survey

A trace has an index, an annotation and a world position.  The transformer converts between
the three.  Indices and world positions are related by an affine map and its numeric
inverse, indices and annotations axis by axis.
-/

namespace Seismic

structure Transformer (α : Type) where
  indexToWorld : Affine α
  worldToIndex : Affine α
  inlineFirst : α
  inlineStep : α
  crosslineFirst : α
  crosslineStep : α
  deriving Repr, BEq

namespace Transformer

variable {α : Type} [Scalar α]

/-- The map that takes indices to world positions, from the position of the first trace and
the displacement of one step along each axis. -/
def spanning (origin inlineSpacing crosslineSpacing : Point α) : Affine α :=
  ⟨inlineSpacing.x, crosslineSpacing.x, origin.x,
    inlineSpacing.y, crosslineSpacing.y, origin.y⟩

/-- The transformer of a survey whose spacing vectors span the plane. -/
def ofSpacing (origin inlineSpacing crosslineSpacing : Point α) (iline xline : Axis α) :
    Result α (Transformer α) :=
  let forward := spanning origin inlineSpacing crosslineSpacing
  match forward.inverse with
  | .error _ => .error .parallelSpacing
  | .ok backward =>
    .ok ⟨forward, backward, iline.first, iline.step, xline.first, xline.step⟩

def worldOfIndex (t : Transformer α) (index : Point α) : Point α :=
  t.indexToWorld.apply index

def indexOfWorld (t : Transformer α) (world : Point α) : Point α :=
  t.worldToIndex.apply world

def annotationOfIndex (t : Transformer α) (index : Point α) : Point α :=
  ⟨t.inlineFirst + index.x * t.inlineStep, t.crosslineFirst + index.y * t.crosslineStep⟩

def indexOfAnnotation (t : Transformer α) (label : Point α) : Point α :=
  ⟨Axis.indexOnLine t.inlineFirst t.inlineStep label.x,
    Axis.indexOnLine t.crosslineFirst t.crosslineStep label.y⟩

def worldOfAnnotation (t : Transformer α) (label : Point α) : Point α :=
  t.worldOfIndex (t.indexOfAnnotation label)

def annotationOfWorld (t : Transformer α) (world : Point α) : Point α :=
  t.annotationOfIndex (t.indexOfWorld world)

end Transformer
end Seismic
