import Seismic.Subvolume.Reduce

/-!
# Attributes by selection

The median is found by a selection, which rearranges what it works on.  So it is given a copy of the
column, in memory that belongs to the output and is kept from cell to cell.  The other attributes
read the column itself.  How the selection arranges the values is left to it.
-/

namespace Seismic
namespace Column

/-- The median read off a column whose upper middle value is in place. -/
def medianOf {α : Type} [Scalar α] [Limits α] (ys : List α) : α :=
  match ys[ys.length / 2]? with
  | none => 0
  | some upper =>
    if ys.length % 2 = 1 then upper else (greatest (ys.take (ys.length / 2)) + upper) / 2

/-- The median of a list that may be rearranged, and the list as it is left. -/
def medianInPlace (select : Nat → List Float → List Float) (xs : List Float) :
    Float × List Float :=
  if xs.isEmpty then (0, xs)
  else (medianOf (select (xs.length / 2) xs), select (xs.length / 2) xs)

/-- A segment that attributes are computed from, and the list in which the median rearranges a
copy of its values. -/
structure Bench where
  segment : ResampledSegment Float
  copy : List Float

namespace Bench

/-- The bench with its segment copied over what has been left of an earlier copy. -/
def refill (b : Bench) : Bench := { b with copy := b.copy.take 0 ++ b.segment.values.toList }

def compute (select : Nat → List Float → List Float) (a : Attribute) (b : Bench) :
    Result Float Float × Bench :=
  match a with
  | .median =>
    let b := b.refill
    let (m, arranged) := medianInPlace select b.copy
    (return m, { b with copy := arranged })
  | a => (a.reduce b.segment, b)

/-- One attribute after the other. -/
def computeAll (select : Nat → List Float → List Float) :
    List Attribute → Bench → List (Result Float Float) × Bench
  | [], b => ([], b)
  | a :: as, b =>
    let (r, b') := b.compute select a
    let (rs, b'') := b'.computeAll select as
    (r :: rs, b'')

end Bench
end Column

namespace Subvolume

open Column (Bench)

variable {σ : Type} [Sampled σ Float] (select : Nat → List Float → List Float)

/-- Stores the attributes of a segment for a cell, each in its output, in which there is a copy for
the median as well. -/
def storeAttributes (index : Nat) : List (Output σ × List Float) → ResampledSegment Float →
    Result Float (List (Output σ × List Float) × ResampledSegment Float)
  | [], segment => return ([], segment)
  | (o, copy) :: os, segment => do
    let (r, bench) := (Bench.mk segment copy).compute select o.kind
    let written ← o.write (Sampled.narrow (← r)) index
    let (rest, segment) ← storeAttributes index os bench.segment
    return ((written, bench.copy) :: rest, segment)

/-- Like `reduceCell`, with the median found by a selection. -/
def selectCell (s : Subvolume Float σ) (state : Worker Float × List (Output σ × List Float))
    (index : Nat) : Result Float (Worker Float × List (Output σ × List Float)) := do
  let (worker, outputs) := state
  if ← s.layout.isEmpty index then
    return (worker, ← outputs.mapM fun (o, copy) => do
      return (← o.write s.layout.fill index, copy))
  let worker ← s.column worker index
  let (outputs, segment) ← storeAttributes select index outputs worker.column
  return ({ worker with column := segment }, outputs)

/-- Like `reduceRange`, with the median found by a selection. -/
def selectRange (s : Subvolume Float σ) (spacing : ResampledSpacing Float)
    (outputs : List (Output σ × List Float)) (lower upper : Nat) :
    Result Float (List (Output σ × List Float)) := do
  if upper < lower ∨ s.layout.cells < upper then
    throw (.cellRange lower upper s.layout.cells)
  let (_, outputs) ← (List.range' lower (upper - lower)).foldlM (s.selectCell select)
    (Worker.start spacing, outputs)
  return outputs

end Subvolume
end Seismic
