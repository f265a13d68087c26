import Seismic.Subvolume.Basic

/-!
# Partitions

Windows of different cells do not overlap, so a subvolume can be cut into runs of
consecutive cells that are worked on independently, and put together again.
-/

namespace Seismic

/-- The runs of at most `size` consecutive numbers that cover those below `count`. -/
def runs (count size : Nat) : List (Nat × Nat) :=
  (List.range ((count + size - 1) / size)).map fun k =>
    (k * size, Min.min (k * size + size) count)

/-- The cells from `lower` up to, but not including, `upper`, with their samples. -/
structure Partition (α σ : Type) where
  layout : Layout α σ
  lower : Nat
  upper : Nat
  data : Array σ

namespace Partition

variable {α σ : Type}

/-- Where the samples of the partition begin in the subvolume. -/
def base (p : Partition α σ) : Nat := p.layout.offsets.getD p.lower 0

/-- Begin and end of the window of a cell among the samples of the partition. -/
def range (p : Partition α σ) (index : Nat) : Result α (Nat × Nat) := do
  if index < p.lower ∨ p.upper ≤ index then throw (.outsidePartition index p.lower p.upper)
  let (first, last) ← p.layout.range index
  return (first - p.base, last - p.base)

def segment (p : Partition α σ) (index : Nat) : Result α (Array σ) := do
  let (first, last) ← p.range index
  return p.data.extract first last

/-- The partition with the first samples of a cell replaced.  Those beyond its window are
ignored. -/
def write (p : Partition α σ) (index : Nat) (samples : List σ) : Result α (Partition α σ) := do
  let (first, last) ← p.range index
  return { p with data := overwrite p.data first (samples.take (last - first)) }

end Partition

namespace Subvolume

variable {α σ : Type}

def partition (s : Subvolume α σ) (lower upper : Nat) : Partition α σ :=
  let first := s.layout.offsets.getD lower 0
  let last := s.layout.offsets.getD upper 0
  ⟨s.layout, lower, upper, s.data.extract first last⟩

def partitions (s : Subvolume α σ) (size : Nat) : Result α (List (Partition α σ)) :=
  if size = 0 then .error .badPartitionSize
  else .ok ((runs s.layout.cells size).map fun (lower, upper) => s.partition lower upper)

def assemble (s : Subvolume α σ) (partitions : List (Partition α σ)) : Subvolume α σ :=
  { s with data := (partitions.map Partition.data).foldl (· ++ ·) #[] }

end Subvolume
end Seismic
