import Seismic.Horizon.Basic
import Seismic.Survey.Basic
import Seismic.Trace.Segment

/-!
# Layout of a subvolume

A subvolume holds, for every cell of a horizon, the samples of a trace between two further
horizons.  Windows differ in length from cell to cell, so samples are stored back to back,
and an offset table with one more entry than there are cells says where each window begins
and ends.  A cell without data has an empty window.
-/

namespace Seismic

structure Layout (α σ : Type) where
  reference : Horizon α σ
  top : Horizon α σ
  bottom : Horizon α σ
  spacing : RawSpacing α
  /-- Where the window of each cell begins, and where the last one ends. -/
  offsets : Array Nat

namespace Layout

variable {α σ : Type}

def cells (l : Layout α σ) : Nat := l.offsets.size - 1

/-- The number of samples in all windows. -/
def total (l : Layout α σ) : Nat := l.offsets.back?.getD 0

def fill (l : Layout α σ) : σ := l.reference.fill

/-- Begin and end of the window of a cell. -/
def range (l : Layout α σ) (index : Nat) : Result α (Nat × Nat) :=
  if h : index + 1 < l.offsets.size then
    .ok (l.offsets[index], l.offsets[index + 1])
  else .error (.pastCells index l.cells)

/-- Whether a cell, which has to exist, has an empty window. -/
def isEmpty (l : Layout α σ) (index : Nat) : Result α Bool :=
  if h : index + 1 < l.offsets.size then
    .ok (l.offsets[index] == l.offsets[index + 1])
  else .error (.fault .pastEnd)

variable [Scalar α] [Sampled σ α]

def bounds (l : Layout α σ) (index : Nat) : Result α (Bounds α) := do
  let reference ← l.reference.valueAt index
  let top ← l.top.valueAt index
  let bottom ← l.bottom.valueAt index
  return ⟨Sampled.widen reference, Sampled.widen top, Sampled.widen bottom⟩

/-- Inline and crossline index of the trace nearest to a cell. -/
def traceOf (l : Layout α σ) (survey : Survey α) (index : Nat) : Result α (Nat × Nat) := do
  let position := survey.transformer.indexOfWorld (← l.reference.cellToWorld index)
  return (← survey.iline.nearestSample position.x, ← survey.xline.nearestSample position.y)

/-- Index on the sample axis of a survey of the first sample of a cell. -/
def firstSample (l : Layout α σ) (survey : Survey α) (index : Nat) : Result α Nat := do
  let position ← l.spacing.topSample (← l.bounds index).top
  let first := Scalar.nearest (survey.sample.indexOf position)
  if first < 0 then throw (.aboveFirstSample position survey.sample.first)
  return Scalar.toCount first

/-! ## Laying out -/

/-- The number of samples in the window of a cell.  It is zero if a horizon has no depth
there or if the survey has no trace there.  The horizons have to be ordered, also where there
is no trace, and the window has to lie within the survey. -/
def windowSize (survey : Survey α) (reference top bottom : Horizon α σ)
    (spacing : RawSpacing α) (index : Nat) : Result α Nat := do
  let r ← reference.valueAt index
  let t ← top.valueAt index
  let b ← bottom.valueAt index
  if reference.isFill r || top.isFill t || bottom.isFill b then return 0
  let reference' := Sampled.widen r
  let top' := Sampled.widen t
  let bottom' := Sampled.widen b
  let (row, col) ← reference.grid.cellOf index
  if ¬ (top' ≤ reference' ∧ reference' ≤ bottom') then
    throw (.unordered row col top' reference' bottom')
  let world ← reference.cellToWorld index
  if !survey.holdsTrace (survey.transformer.indexOfWorld world) then return 0
  let topSample ← spacing.topSample top'
  let bottomSample ← spacing.bottomSample bottom'
  let first := survey.sample.first
  let last := survey.sample.last
  if topSample < first - Tolerance.width ∨ last + Tolerance.width < bottomSample then
    throw (.verticalBounds row col top' bottom' topSample bottomSample first last)
  spacing.count top' bottom'

def extend (offsets : Array Nat) (size : Nat) : Result α (Array Nat) := do
  return offsets.push (← addCounts (offsets.back?.getD 0) size)

/-- Lays out the windows between `top` and `bottom`, cell by cell. -/
def between (survey : Survey α) (reference top bottom : Horizon α σ) :
    Result α (Layout α σ) := do
  let sized (h : Horizon α σ) : Bool :=
    h.nrows == reference.nrows && h.ncols == reference.ncols
  if !(sized top && sized bottom) then throw .surfaceSizes
  if reference.grid != top.grid || reference.grid != bottom.grid then throw .surfacePlanes
  let spacing ← RawSpacing.through survey.sample.step survey.sample.first
  let offsets ← (List.range reference.size).foldlM (fun offsets index => do
    extend offsets (← windowSize survey reference top bottom spacing index)) #[0]
  return ⟨reference, top, bottom, spacing, offsets⟩

end Layout
end Seismic
