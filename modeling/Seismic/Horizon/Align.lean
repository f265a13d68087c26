import Seismic.Horizon.Basic

/-!
# Aligning horizons

One horizon is brought onto the grid of another by taking, for each cell of the grid, the
nearest cell of the horizon to be aligned.  Two horizons may touch but not cross: wherever
both have a depth and the depths differ, the same one has to lie above.
-/

namespace Seismic
namespace Horizon

variable {α σ : Type} [Scalar α] [Sampled σ α]

/-- The depth of `secondary` at its cell nearest to a world point, if there is one. -/
def depthAt (secondary : Horizon α σ) (point : Point α) : Result α (Option σ) := do
  let position := secondary.ofWorld point
  let row := Scalar.nearest position.x
  let col := Scalar.nearest position.y
  if 0 ≤ row ∧ 0 ≤ col ∧ row < Scalar.ofNat secondary.nrows ∧ col < Scalar.ofNat secondary.ncols
  then
    let value ← secondary.value (Scalar.toCount row) (Scalar.toCount col)
    return if secondary.isFill value then none else some value
  else return none

/-- The depths of both horizons at a cell of `primary`, if both have one. -/
def depths (primary secondary : Horizon α σ) (row col : Nat) : Result α (Option (σ × σ)) := do
  let value ← primary.value row col
  if primary.isFill value then return none
  return (← secondary.depthAt (← primary.toWorld row col)).map fun other => (value, other)

/-- Whether `primary` lies above, as far as the cells seen so far tell, after one more cell.
Equal depths tell nothing. -/
def orient (above : Option Bool) (value other : σ) (row col : Nat) : Result α (Option Bool) :=
  if Sampled.same other value then .ok above
  else
    let here := decide (Sampled.widen value < Sampled.widen other)
    match above with
    | none => .ok (some here)
    | some there => if there = here then .ok above else .error (.surfacesIntersect row col)

def alignCell (primary secondary : Horizon α σ) (state : Horizon α σ × Option Bool)
    (index : Nat) : Result α (Horizon α σ × Option Bool) := do
  let (aligned, above) := state
  let (row, col) ← primary.grid.cellOf index
  match ← depths primary secondary row col with
  | none => return (← aligned.set row col aligned.fill, above)
  | some (value, other) =>
    let above ← orient above value other row col
    return (← aligned.set row col other, above)

/-- Writes the depths of `secondary` into `aligned`, which has the grid of `primary`, and its
fill value where there is none.  Also tells whether `primary` lies above `secondary`, which
is so of horizons that are equal. -/
def align (primary secondary aligned : Horizon α σ) : Result α (Horizon α σ × Bool) := do
  if primary.grid != aligned.grid then throw .alignedPlane
  let (aligned, above) ←
    (List.range primary.size).foldlM (alignCell primary secondary) (aligned, none)
  return (aligned, above.getD true)

end Horizon
end Seismic
