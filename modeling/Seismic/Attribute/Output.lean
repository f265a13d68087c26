import Seismic.Failure

/-!
# Outputs of attributes

The output of an attribute holds one sample per cell, for all cells or for a run of them.
Cells are named by their number among all cells; `offset` is that of the first one held.
-/

namespace Seismic

structure Output (σ : Type) where
  kind : Attribute
  values : Array σ
  offset : Nat := 0

/-- A sample that is to be written for a cell. -/
structure Write (σ : Type) where
  sample : σ
  index : Nat

namespace Output

variable {α σ : Type}

def ofArray (kind : Attribute) (values : Array σ) (offset : Nat) : Result α (Output σ) :=
  if kind.isAvailable then .ok ⟨kind, values, offset⟩
  else .error (.unavailableAttribute kind)

/-- Stores the sample of a cell that the output holds. -/
def write (o : Output σ) (sample : σ) (index : Nat) : Result α (Output σ) := do
  if o.offset ≤ index ∧ index - o.offset < o.values.size then
    return { o with values := o.values.setIfInBounds (index - o.offset) sample }
  else
    let upper ← addCounts o.offset o.values.size
    throw (.outsideBuffer o.kind index o.offset upper (4 * o.values.size))

/-- Writes a sample in place.  Beside the outcome there is the output as it was left. -/
def writeInPlace (o : Output σ) (w : Write σ) : Result α Unit × Output σ :=
  if o.offset ≤ w.index ∧ w.index - o.offset < o.values.size then
    (.ok (), { o with values := o.values.setIfInBounds (w.index - o.offset) w.sample })
  else
    match (addCounts o.offset o.values.size : Result α Nat) with
    | .ok upper => (.error (.outsideBuffer o.kind w.index o.offset upper (4 * o.values.size)), o)
    | .error e => (.error e, o)

end Output
end Seismic
