import Seismic.Shape
import Seismic.Window

/-!
# Segments of traces

The samples of one cell between its boundaries: raw, as they are in the volume, or
resampled at even distances from the reference.  Both know at which positions their samples
lie.
-/

namespace Seismic

structure Bounds (α : Type) where
  reference : α
  top : α
  bottom : α
  deriving Repr

def samplePositions {α : Type} [Scalar α] (top stepsize : α) (count : Nat) : Array α :=
  Array.ofFn fun k : Fin count => top + Scalar.ofNat k * stepsize

structure RawSegment (α σ : Type) where
  spacing : RawSpacing α
  bounds : Bounds α
  values : Array σ

namespace RawSegment

variable {α σ : Type} [Scalar α]

def topSample (s : RawSegment α σ) : Result α α := s.spacing.topSample s.bounds.top

def bottomSample (s : RawSegment α σ) : Result α α := s.spacing.bottomSample s.bounds.bottom

def positions (s : RawSegment α σ) : Result α (Array α) :=
  return samplePositions (← s.topSample) s.spacing.spacing.stepsize s.values.size

end RawSegment

/-- Evenly spaced samples within the window of a cell. -/
structure ResampledSegment (α : Type) where
  spacing : ResampledSpacing α
  bounds : Bounds α
  values : Array α

namespace ResampledSegment

variable {α : Type} [Scalar α]

def unset (spacing : ResampledSpacing α) : ResampledSegment α := ⟨spacing, ⟨0, 0, 0⟩, #[]⟩

/-- The segment for other bounds, with a zero for each sample of their window. -/
def reset (s : ResampledSegment α) (bounds : Bounds α) : Result α (ResampledSegment α) := do
  let count ← s.spacing.count bounds.reference bounds.top bounds.bottom
  if !Shape.fitsMemory 8 count then throw (.fault .capacity)
  return { s with bounds, values := Array.replicate count 0 }

def referenceIndex (s : ResampledSegment α) : Result α Nat :=
  s.spacing.countAbove s.bounds.reference s.bounds.top

def topSample (s : ResampledSegment α) : Result α α :=
  s.spacing.topSample s.bounds.reference s.bounds.top

def bottomSample (s : ResampledSegment α) : Result α α :=
  s.spacing.bottomSample s.bounds.reference s.bounds.bottom

def positions (s : ResampledSegment α) : Result α (Array α) :=
  return samplePositions (← s.topSample) s.spacing.spacing.stepsize s.values.size

end ResampledSegment
end Seismic
