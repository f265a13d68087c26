import Seismic.Failure
import Seismic.Tolerance

/-!
# Axes

An axis has evenly spaced samples.  Each has an index, counted from zero, and an
annotation, the number it has in the survey.  Indices between samples are fractional.
-/

namespace Seismic

structure Axis (α : Type) where
  first : α
  last : α
  nsamples : Nat
  name : String
  unit : String
  /-- The dimension of the axis in the underlying store. -/
  dimension : Nat
  deriving Repr, BEq

namespace Axis

variable {α : Type} [Scalar α]

/-- The difference of annotation between two neighbours, zero on an axis that has none. -/
def step (a : Axis α) : α :=
  if a.nsamples ≤ 1 then 0 else (a.last - a.first) / Scalar.ofNat (a.nsamples - 1)

def annotationOf (a : Axis α) (index : α) : α := a.first + index * a.step

/-- The index of an annotation on a line of the given first annotation and step.  Without a
step every annotation counts as one index further. -/
def indexOnLine (first step label : α) : α :=
  if step == 0 then label - first else (label - first) / step

def indexOf (a : Axis α) (label : α) : α := indexOnLine a.first a.step label

/-- Whether the sample nearest to an index is on the axis. -/
def holdsIndex (a : Axis α) (index : α) : Bool :=
  decide (-(1 / 2) ≤ index) && decide (index < Scalar.ofNat a.nsamples - 1 / 2)

/-- The sample nearest to an index, halves upwards. -/
def nearestSample (a : Axis α) (index : α) : Result α Nat :=
  if a.holdsIndex index then
    .ok (Scalar.toCount (Scalar.max (Scalar.floor (index + 1 / 2)) 0))
  else .error (.offAxis index a.name a.nsamples)

/-- Whether an annotation lies between the first and the last, in whichever order these
are. -/
def holdsAnnotation (a : Axis α) (label : α) : Bool :=
  let (low, high) := if a.first ≤ a.last then (a.first, a.last) else (a.last, a.first)
  decide (low - Tolerance.width ≤ label) && decide (label ≤ high + Tolerance.width)

/-- The sample with a given annotation, which has to be on the axis. -/
def sampleAt (a : Axis α) (line : α) : Result α Nat :=
  let index := a.indexOf line
  let nearest := Scalar.nearest index
  if Tolerance.width < Scalar.abs (index - nearest) ∨ ¬ a.holdsIndex nearest then
    .error (.unknownLine line a.first a.last a.step)
  else .ok (Scalar.toCount nearest)

end Axis
end Seismic
