import Seismic.Failure

/-!
# Boxes of samples

A box is a range of indices along each axis of a volume, without its upper end.  No range is
empty.  Its samples are ordered by inline, then crossline, then sample.
-/

namespace Seismic
namespace Extent

/-- The number of samples of a volume with these lengths. -/
def count (e : Extent) : Nat := e.inline * e.crossline * e.sample

/-- The extent with another number for one axis. -/
def withAxis (e : Extent) (dimension n : Nat) : Extent :=
  match dimension with
  | 0 => { e with inline := n }
  | 1 => { e with crossline := n }
  | _ => { e with sample := n }

end Extent

structure Box where
  lower : Extent
  upper : Extent
  inline_lt : lower.inline < upper.inline
  crossline_lt : lower.crossline < upper.crossline
  sample_lt : lower.sample < upper.sample

namespace Box

/-- The box between two corners, the first of which has to be below the second. -/
def between {α : Type} (lower upper : Extent) : Result α Box :=
  if h : lower.inline < upper.inline ∧ lower.crossline < upper.crossline ∧
      lower.sample < upper.sample then
    .ok ⟨lower, upper, h.1, h.2.1, h.2.2⟩
  else .error (.invalidBox lower upper)

def full {α : Type} (shape : Extent) : Result α Box := between ⟨0, 0, 0⟩ shape

def shape (b : Box) : Extent :=
  ⟨b.upper.inline - b.lower.inline, b.upper.crossline - b.lower.crossline,
    b.upper.sample - b.lower.sample⟩

def count {α : Type} (b : Box) : Result α Nat := do
  mulCounts (← mulCounts b.shape.inline b.shape.crossline) b.shape.sample

/-- Whether the box lies within a volume of the given shape. -/
def fits (b : Box) (shape : Extent) : Bool :=
  decide (b.upper.inline ≤ shape.inline) && decide (b.upper.crossline ≤ shape.crossline) &&
    decide (b.upper.sample ≤ shape.sample)

/-- The indices of the samples, in order. -/
def indices (b : Box) : List Extent :=
  (List.range' b.lower.inline b.shape.inline).flatMap fun i =>
    (List.range' b.lower.crossline b.shape.crossline).flatMap fun j =>
      (List.range' b.lower.sample b.shape.sample).map fun k => ⟨i, j, k⟩

end Box
end Seismic
