import Seismic.Attribute.Options

/-!
# Vertical windows

Samples along a trace lie on a lattice: at `phase + k * stepsize` for the integers `k`,
their sample numbers.  The window between two boundaries holds every sample between them,
boundaries included, and `margin` further ones at each end.  A boundary within tolerance of
a sample includes it.

Two lattices are in use.  The samples of a volume have one phase for all traces, and their
windows carry a margin so that an interpolant is well defined up to the boundaries.
Resampled traces have no margin, and their phase is set, cell by cell, by the reference
depth.
-/

namespace Seismic

/-- Distance between samples, and samples added at each end of a window. -/
structure Spacing (α : Type) where
  stepsize : α
  margin : Nat
  deriving Repr

namespace Spacing

variable {α : Type} [Scalar α]

def ofStepsize (stepsize : α) (margin : Nat) : Result α (Spacing α) :=
  if Options.isStepsize stepsize then .ok ⟨stepsize, margin⟩
  else .error (.badStepsize stepsize)

def firstNumber (s : Spacing α) (top phase : α) : Result α Int :=
  sampleNumber (Scalar.toInt64 (Tolerance.ceil ((top - phase) / s.stepsize)) - s.margin)

def lastNumber (s : Spacing α) (bottom phase : α) : Result α Int :=
  sampleNumber (Scalar.toInt64 (Tolerance.floor ((bottom - phase) / s.stepsize)) + s.margin)

/-- Number of samples of a window.  Boundaries that cross may leave it empty. -/
def count (s : Spacing α) (top bottom phase : α) : Result α Nat := do
  let first ← s.firstNumber top phase
  let last ← s.lastNumber bottom phase
  let distance ← sampleNumber (last - first)
  return (← sampleNumber (distance + 1)).toNat

def position (s : Spacing α) (number : Int) (phase : α) : α :=
  Scalar.ofInt number * s.stepsize + phase

def topSample (s : Spacing α) (top phase : α) : Result α α :=
  return s.position (← s.firstNumber top phase) phase

def bottomSample (s : Spacing α) (bottom phase : α) : Result α α :=
  return s.position (← s.lastNumber bottom phase) phase

end Spacing

/-! ## Samples of a volume -/

/-- Samples added at each end of a window over a volume. -/
def rawMargin : Nat := 2

/-- The lattice of the samples of a volume. -/
structure RawSpacing (α : Type) where
  spacing : Spacing α
  phase : α
  deriving Repr

namespace RawSpacing

variable {α : Type} [Scalar α]

/-- The lattice through a sample at `position`, usually the first of the volume. -/
def through (stepsize position : α) : Result α (RawSpacing α) := do
  return ⟨← Spacing.ofStepsize stepsize rawMargin, Tolerance.phase position stepsize⟩

def count (s : RawSpacing α) (top bottom : α) : Result α Nat :=
  s.spacing.count top bottom s.phase

def topSample (s : RawSpacing α) (top : α) : Result α α := s.spacing.topSample top s.phase

def bottomSample (s : RawSpacing α) (bottom : α) : Result α α :=
  s.spacing.bottomSample bottom s.phase

end RawSpacing

/-! ## Resampled traces -/

/-- The lattices of resampled traces, one for each reference depth. -/
structure ResampledSpacing (α : Type) where
  spacing : Spacing α
  deriving Repr

namespace ResampledSpacing

variable {α : Type} [Scalar α]

def ofStepsize (stepsize : α) : Result α (ResampledSpacing α) :=
  return ⟨← Spacing.ofStepsize stepsize 0⟩

/-- The phase that puts a sample at the reference. -/
def phase (s : ResampledSpacing α) (reference : α) : α :=
  Tolerance.phase reference s.spacing.stepsize

def count (s : ResampledSpacing α) (reference top bottom : α) : Result α Nat :=
  s.spacing.count top bottom (s.phase reference)

def topSample (s : ResampledSpacing α) (reference top : α) : Result α α :=
  s.spacing.topSample top (s.phase reference)

def bottomSample (s : ResampledSpacing α) (reference bottom : α) : Result α α :=
  s.spacing.bottomSample bottom (s.phase reference)

/-- Number of the sample at the reference. -/
def referenceNumber (s : ResampledSpacing α) (reference : α) : Int :=
  Scalar.toInt64 (Scalar.nearest ((reference - s.phase reference) / s.spacing.stepsize))

/-- How many samples of a window lie above the one at the reference. -/
def countAbove (s : ResampledSpacing α) (reference top : α) : Result α Nat := do
  let first ← s.spacing.firstNumber top (s.phase reference)
  return (← sampleNumber (s.referenceNumber reference - first)).toNat

end ResampledSpacing
end Seismic
