import Seismic.Subvolume.Layout

/-!
# Subvolumes

The samples of all cells of a layout, in the order of the cells.
-/

namespace Seismic

/-- The elements of an array with those from `start` on replaced by the elements of a list,
as far as both reach. -/
def overwrite {β : Type} (xs : Array β) (start : Nat) : List β → Array β
  | [] => xs
  | y :: ys => overwrite (xs.setIfInBounds start y) (start + 1) ys

theorem size_overwrite {β : Type} (ys : List β) (xs : Array β) (start : Nat) :
    (overwrite xs start ys).size = xs.size := by
  induction ys generalizing xs start with
  | nil => rfl
  | cons y ys ih => rw [overwrite, ih, Array.size_setIfInBounds]

structure Subvolume (α σ : Type) where
  layout : Layout α σ
  data : Array σ

namespace Subvolume

variable {α σ : Type} [Scalar α] [Sampled σ α]

def ofLayout (l : Layout α σ) : Result α (Subvolume α σ) :=
  if Shape.fitsMemory 4 l.total then .ok ⟨l, Array.replicate l.total Sampled.zero⟩
  else .error (.fault .capacity)

def between (survey : Survey α) (reference top bottom : Horizon α σ) :
    Result α (Subvolume α σ) := do
  ofLayout (← Layout.between survey reference top bottom)

def segment (s : Subvolume α σ) (index : Nat) : Result α (Array σ) := do
  let (first, last) ← s.layout.range index
  return s.data.extract first last

/-- The subvolume with the first samples of a cell replaced.  Those beyond its window are
ignored. -/
def write (s : Subvolume α σ) (index : Nat) (samples : List σ) : Result α (Subvolume α σ) := do
  let (first, last) ← s.layout.range index
  return { s with data := overwrite s.data first (samples.take (last - first)) }

def rawSegment (s : Subvolume α σ) (index : Nat) : Result α (RawSegment α σ) := do
  let values ← s.segment index
  return ⟨s.layout.spacing, ← s.layout.bounds index, values⟩

end Subvolume
end Seismic
