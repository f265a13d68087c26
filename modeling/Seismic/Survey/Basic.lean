import Seismic.Survey.Moment
import Seismic.Survey.Transformer

/-!
# Surveys

The description of a volume: its three axes, where it lies, and where it came from.
-/

namespace Seismic

structure Survey (α : Type) where
  iline : Axis α
  xline : Axis α
  /-- The vertical axis, in time or depth. -/
  sample : Axis α
  crs : String
  inputFile : String
  importedAt : Option Moment
  transformer : Transformer α
  deriving Repr, BEq

structure Corners (α : Type) where
  world : List (Point α)
  annotated : List (Point α)
  index : List (Point α)

namespace Survey

variable {α : Type}

/-- An axis by number: 0 for inlines, 1 for crosslines, 2 for samples. -/
def axis (s : Survey α) : Nat → Result α (Axis α)
  | 0 => .ok s.iline
  | 1 => .ok s.xline
  | 2 => .ok s.sample
  | dimension => .error (.noSuchAxis dimension)

def shape (s : Survey α) : Extent := ⟨s.iline.nsamples, s.xline.nsamples, s.sample.nsamples⟩

variable [Scalar α]

/-- Whether the trace nearest to an index is in the volume. -/
def holdsTrace (s : Survey α) (index : Point α) : Bool :=
  s.iline.holdsIndex index.x && s.xline.holdsIndex index.y

/-- The corners, counter-clockwise in index space from the first trace. -/
def corners (s : Survey α) : Corners α :=
  let i : α := Scalar.ofNat (s.iline.nsamples - 1)
  let j : α := Scalar.ofNat (s.xline.nsamples - 1)
  let index : List (Point α) := [⟨0, 0⟩, ⟨i, 0⟩, ⟨i, j⟩, ⟨0, j⟩]
  ⟨index.map s.transformer.worldOfIndex, index.map s.transformer.annotationOfIndex, index⟩

end Survey
end Seismic
