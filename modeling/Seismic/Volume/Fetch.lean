import Seismic.Subvolume.Partition
import Seismic.Volume.Basic

/-!
# Fetching a subvolume

Every cell with data gets the samples of the trace nearest to it.  Cells are fetched in
order, and the first one that cannot be fetched ends the work; the samples of the cells
before it stay.
-/

namespace Seismic
namespace Volume

variable {α σ : Type} [Scalar α] [Sampled σ α]

/-- The box of a run of samples of one trace. -/
def traceBox (inline crossline first count : Nat) : Result α Box := do
  Box.between ⟨inline, crossline, first⟩
    ⟨← addCounts inline 1, ← addCounts crossline 1, ← addCounts first count⟩

def fetchCell (v : Volume α σ) (p : Partition α σ) (index : Nat) :
    Result α (Partition α σ) := do
  if ← p.layout.isEmpty index then return p
  let (inline, crossline) ← p.layout.traceOf v.survey index
  let first ← p.layout.firstSample v.survey index
  let segment ← p.segment index
  let box ← traceBox inline crossline first segment.size
  p.write index (← v.read segment box).toList

def fetchCells (v : Volume α σ) (p : Partition α σ) :
    List Nat → Result α Unit × Partition α σ
  | [] => (.ok (), p)
  | index :: rest =>
    match v.fetchCell p index with
    | .error f => (.error f, p)
    | .ok p => v.fetchCells p rest

def fetchPartitions (v : Volume α σ) :
    List (Partition α σ) → Result α Unit × List (Partition α σ)
  | [] => (.ok (), [])
  | p :: rest =>
    match v.fetchCells p (List.range' p.lower (p.upper - p.lower)) with
    | (.error f, p) => (.error f, p :: rest)
    | (.ok _, p) =>
      let (done, rest) := v.fetchPartitions rest
      (done, p :: rest)

/-- Fetches a subvolume in partitions of at most `size` cells. -/
def fetch (v : Volume α σ) (s : Subvolume α σ) (size : Nat) :
    Result α Unit × Subvolume α σ :=
  match s.partitions size with
  | .error f => (.error f, s)
  | .ok partitions =>
    let (done, partitions) := v.fetchPartitions partitions
    (done, s.assemble partitions)

end Volume
end Seismic
