import Seismic.Sample.Bytes
import Seismic.Volume.Basic

/-!
# Slices

A slice is the plane of samples across one direction at one line.  Lines are numbered by
annotation or by index, as the direction says, and directions that speak of depth or time
are refused for volumes sampled otherwise.
-/

namespace Seismic

/-- The sample with a given index, which has to be on the axis. -/
def Axis.sampleWithIndex {α : Type} [Scalar α] (a : Axis α) (line : α) : Result α Nat :=
  if Scalar.floor line == line && decide (0 ≤ line) &&
      decide (line < Scalar.ofNat a.nsamples) then
    .ok (Scalar.toCount line)
  else .error (.unknownIndex line (a.nsamples - 1))

/-- The units of the vertical axis that a direction requires, if it requires any. -/
def Direction.units? : Direction → Option (List String)
  | .depth => some ["m", "ft", "usft"]
  | .time => some ["ms", "s"]
  | _ => none

/-- Whether a direction can be used on a vertical axis in the given unit. -/
def Direction.admits (d : Direction) (unit : String) : Bool :=
  match d.units? with
  | none => true
  | some units => units.any fun u => upperCase u == upperCase unit

/-- Samples over two axes, the second running fastest. -/
structure Slice (α σ : Type) where
  values : Array σ
  x : Axis α
  y : Axis α

namespace Slice

variable {α : Type}

def shape {σ : Type} (s : Slice α σ) : Nat × Nat := (s.x.nsamples, s.y.nsamples)

def bytes (s : Slice α Single) : List UInt8 := Sample.encode s.values.toList

end Slice

namespace Volume

variable {α σ : Type} [Scalar α] [Sampled σ α]

/-- The index of a line in a direction. -/
def lineIndex (v : Volume α σ) (line : α) (direction : Direction) : Result α Nat := do
  let axis ← v.survey.axis direction.dimension
  if !direction.admits v.survey.sample.unit then
    throw (.wrongUnit direction v.survey.sample.unit)
  if direction.isAnnotation then axis.sampleAt line else axis.sampleWithIndex line

def acrossAxes (v : Volume α σ) : Nat → Axis α × Axis α
  | 0 => (v.survey.xline, v.survey.sample)
  | 1 => (v.survey.iline, v.survey.sample)
  | _ => (v.survey.iline, v.survey.xline)

def slice (v : Volume α σ) (line : α) (direction : Direction) : Result α (Slice α σ) := do
  let dimension := direction.dimension
  let index ← v.lineIndex line direction
  let lower := Extent.withAxis ⟨0, 0, 0⟩ dimension index
  let upper := v.shape.withAxis dimension (← addCounts index 1)
  let box ← Box.between lower upper
  let bytes ← boxBytes box
  let values ← v.read (Array.replicate (bytes / 4) Sampled.zero) box
  let (x, y) := v.acrossAxes dimension
  return ⟨values, x, y⟩

end Volume
end Seismic
