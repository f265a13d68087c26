import Seismic.Survey.Basic

/-!
# Options of an attribute request

Which attributes to compute over a window along a horizon, how finely to resample the
window, and how many cells to work on at a time.
-/

namespace Seismic

/-- The number of cells per partition unless a request says otherwise. -/
def defaultPartitionSize : Nat := 4096

structure Options (α : Type) where
  attributes : List Attribute := []
  /-- The distance between resampled samples, that of the volume unless given. -/
  stepsize : Option α := none
  partitionSize : Nat := defaultPartitionSize
  deriving Repr, BEq

namespace Options

variable {α : Type} [Scalar α]

/-- Whether a number can be the distance between samples. -/
def isStepsize (x : α) : Bool := Scalar.isFinite x && decide (0 < x)

def validate (o : Options α) : Result α Unit := do
  if o.attributes.isEmpty then throw .noAttributes
  if let some a := o.attributes.find? fun a => !a.isAvailable then
    throw (.unavailableAttribute a)
  if let some x := o.stepsize then
    if !isStepsize x then throw (.badStepsize x)
  if o.partitionSize = 0 then throw .badPartitionSize

def stepsizeFor (o : Options α) (s : Survey α) : α := o.stepsize.getD s.sample.step

end Options
end Seismic
