import Seismic.Plane.Grid
import Seismic.Shape

/-!
# Horizons

A horizon has a depth for every cell of a bounded grid, row by row.  Cells that hold the
fill value have no depth.
-/

namespace Seismic

structure Horizon (α σ : Type) where
  grid : BoundedGrid α
  /-- The values, row by row. -/
  values : Array σ
  fill : σ
  /-- Every cell has a value. -/
  values_size : values.size = grid.nrows * grid.ncols

namespace Horizon

variable {α σ : Type}

def ofArray (values : Array σ) (grid : BoundedGrid α) (fill : σ) :
    Result α (Horizon α σ) := do
  let size ← grid.size
  if h : values.size = grid.nrows * grid.ncols then
    if !Shape.isAddressable [grid.nrows, grid.ncols] then throw .shapeOverflow
    return ⟨grid, values, fill, h⟩
  else throw (.surfaceCount values.size size grid.nrows grid.ncols)

def filled (grid : BoundedGrid α) (value fill : σ) : Result α (Horizon α σ) := do
  if !Shape.isAddressable [grid.nrows, grid.ncols] || !Shape.fitsMemory 4 (grid.nrows * grid.ncols)
  then throw (.fault .capacity)
  return ⟨grid, Array.replicate (grid.nrows * grid.ncols) value, fill, by simp⟩

def nrows (h : Horizon α σ) : Nat := h.grid.nrows

def ncols (h : Horizon α σ) : Nat := h.grid.ncols

def size (h : Horizon α σ) : Nat := h.values.size

def map (f : σ → σ) (h : Horizon α σ) : Horizon α σ :=
  { h with values := h.values.map f, values_size := by simp [h.values_size] }

/-- The number of the cell in a row and a column. -/
def cell (h : Horizon α σ) (row col : Nat) : Nat := row * h.grid.ncols + col

def Holds (h : Horizon α σ) (row col : Nat) : Prop := row < h.grid.nrows ∧ col < h.grid.ncols

instance (h : Horizon α σ) (row col : Nat) : Decidable (h.Holds row col) :=
  inferInstanceAs (Decidable (_ ∧ _))

theorem cell_lt_size {h : Horizon α σ} {row col : Nat} (held : h.Holds row col) :
    h.cell row col < h.values.size := by
  obtain ⟨hr, hc⟩ := held
  calc row * h.grid.ncols + col < row * h.grid.ncols + h.grid.ncols := by omega
    _ = (row + 1) * h.grid.ncols := by rw [Nat.add_mul, Nat.one_mul]
    _ ≤ h.grid.nrows * h.grid.ncols := Nat.mul_le_mul_right _ hr
    _ = h.values.size := h.values_size.symm

def value (h : Horizon α σ) (row col : Nat) : Result α σ :=
  if held : h.Holds row col then
    have := cell_lt_size held
    .ok h.values[h.cell row col]
  else .error (.offSurface row col h.grid.nrows h.grid.ncols)

def valueAt (h : Horizon α σ) (index : Nat) : Result α σ := do
  let (row, col) ← h.grid.cellOf index
  h.value row col

theorem size_stored (h : Horizon α σ) (row col : Nat) (value : σ) :
    (h.values.setIfInBounds (h.cell row col) value).size = h.grid.nrows * h.grid.ncols :=
  Array.size_setIfInBounds.trans h.values_size

def set (h : Horizon α σ) (row col : Nat) (value : σ) : Result α (Horizon α σ) :=
  if h.Holds row col then
    .ok { h with
      values := h.values.setIfInBounds (h.cell row col) value
      values_size := h.size_stored row col value }
  else .error (.offSurface row col h.grid.nrows h.grid.ncols)

/-- Stores a value in place.  Beside the outcome there is the horizon as it was left. -/
def setInPlace (h : Horizon α σ) (row col : Nat) (value : σ) : Result α Unit × Horizon α σ :=
  if h.Holds row col then
    (.ok (), { h with
      values := h.values.setIfInBounds (h.cell row col) value
      values_size := h.size_stored row col value })
  else (.error (.offSurface row col h.grid.nrows h.grid.ncols), h)

def setAt (h : Horizon α σ) (index : Nat) (value : σ) : Result α (Horizon α σ) := do
  let (row, col) ← h.grid.cellOf index
  h.set row col value

/-- Stores a value in place in the cell with a number. -/
def setAtInPlace (h : Horizon α σ) (index : Nat) (value : σ) : Result α Unit × Horizon α σ :=
  match h.grid.cellOf index with
  | .ok (row, col) => h.setInPlace row col value
  | .error e => (.error e, h)

variable [Scalar α] [Sampled σ α]

/-- Whether a value means that there is no depth. -/
def isFill (h : Horizon α σ) (value : σ) : Bool := Sampled.same value h.fill

def toWorld (h : Horizon α σ) (row col : Nat) : Result α (Point α) := h.grid.toWorld row col

def cellToWorld (h : Horizon α σ) (index : Nat) : Result α (Point α) := h.grid.cellToWorld index

/-- Row and column of a world point, which may lie between or outside the cells. -/
def ofWorld (h : Horizon α σ) (point : Point α) : Point α := h.grid.grid.ofWorld point

end Horizon
end Seismic
