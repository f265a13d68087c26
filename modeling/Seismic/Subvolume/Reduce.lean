import Seismic.Attribute.Output
import Seismic.Attribute.Reduce
import Seismic.Subvolume.Partition
import Seismic.Trace.Resample

/-!
# Attributes of a subvolume

Every cell with data is resampled once, and each requested attribute of the resampled column
is stored in the output of that attribute.  Cells without data get the fill value of the
reference.  One spline and one column serve a run of cells.
-/

namespace Seismic

/-- What is reused from cell to cell. -/
structure Worker (α : Type) where
  spline : Spline α
  column : ResampledSegment α

namespace Worker

def start {α : Type} [Scalar α] (spacing : ResampledSpacing α) : Worker α :=
  ⟨{}, .unset spacing⟩

end Worker

namespace Subvolume

variable {α σ : Type} [Scalar α] [Sampled σ α]

/-- The resampled column of a cell with data. -/
def column (s : Subvolume α σ) (w : Worker α) (index : Nat) : Result α (Worker α) := do
  let raw ← s.rawSegment index
  let empty ← w.column.reset (← s.layout.bounds index)
  let (resampled, spline) := w.spline.resample raw empty
  return ⟨spline, ← resampled⟩

variable [Root α] [Limits α]

def reduceCell (s : Subvolume α σ) (state : Worker α × List (Output σ)) (index : Nat) :
    Result α (Worker α × List (Output σ)) := do
  let (worker, outputs) := state
  if ← s.layout.isEmpty index then
    return (worker, ← outputs.mapM fun o => o.write s.layout.fill index)
  let worker ← s.column worker index
  return (worker, ← outputs.mapM fun o => do
    o.write (Sampled.narrow (← o.kind.reduce worker.column)) index)

/-- Stores the attributes of the cells from `lower` up to `upper` in their outputs. -/
def reduceRange (s : Subvolume α σ) (spacing : ResampledSpacing α) (outputs : List (Output σ))
    (lower upper : Nat) : Result α (List (Output σ)) := do
  if upper < lower ∨ s.layout.cells < upper then
    throw (.cellRange lower upper s.layout.cells)
  let (_, outputs) ← (List.range' lower (upper - lower)).foldlM s.reduceCell
    (Worker.start spacing, outputs)
  return outputs

/-- The outputs of a run of cells, each a piece of the output for all cells. -/
def outputsOf (kinds : List Attribute) (buffers : List (Array σ)) (lower upper : Nat) :
    Result α (List (Output σ)) :=
  (kinds.zip buffers).mapM fun (kind, buffer) =>
    Output.ofArray kind (buffer.extract lower upper) lower

/-- Stores the attributes of all cells, in partitions of at most `size` cells.  There is one
buffer per attribute, with one sample per cell. -/
def reduce (s : Subvolume α σ) (spacing : ResampledSpacing α) (kinds : List Attribute)
    (buffers : List (Array σ)) (size : Nat) : Result α (List (Array σ)) := do
  let cells := s.layout.cells
  if size = 0 then throw .badPartitionSize
  if kinds.length ≠ buffers.length then throw (.outputCount kinds.length buffers.length)
  if let some buffer := buffers.find? fun buffer => buffer.size != cells then
    throw (.outputLength buffer.size cells)
  let parts ← (runs cells size).mapM fun (lower, upper) => do
    return (lower, upper, ← outputsOf kinds buffers lower upper)
  let done ← parts.mapM fun (lower, upper, outputs) =>
    s.reduceRange spacing outputs lower upper
  return done.foldl (fun whole outputs => whole.zipWith (fun xs o => xs ++ o.values) outputs)
    (buffers.map fun _ => #[])

end Subvolume
end Seismic
