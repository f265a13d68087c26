import Seismic.Plane.Affine

/-!
# Rotated grids

A grid maps rows and columns to world coordinates, rows along its turned first axis and
columns along its turned second axis.  It carries the inverse of that map.  A bounded grid
has a number of rows and columns, and numbers its cells row by row.
-/

namespace Seismic

structure Grid (α : Type) where
  toWorldMap : Affine α
  ofWorldMap : Affine α
  deriving Repr, BEq

namespace Grid

variable {α : Type} [Scalar α]

def placed (origin scale : Point α) (turn : Turn α) : Grid α :=
  ⟨Affine.placing origin scale turn, Affine.locating origin scale turn⟩

/-- World position of a grid position, which may lie between cells. -/
def toWorld (g : Grid α) (position : Point α) : Point α := g.toWorldMap.apply position

def ofWorld (g : Grid α) (point : Point α) : Point α := g.ofWorldMap.apply point

end Grid

structure BoundedGrid (α : Type) where
  grid : Grid α
  nrows : Nat
  ncols : Nat
  deriving Repr, BEq

namespace BoundedGrid

variable {α : Type}

def size (g : BoundedGrid α) : Result α Nat := mulCounts g.nrows g.ncols

def cellOf (g : BoundedGrid α) (index : Nat) : Result α (Nat × Nat) := do
  let size ← g.size
  if index < size then .ok (index / g.ncols, index % g.ncols)
  else .error (.pastGrid index size)

variable [Scalar α]

def toWorld (g : BoundedGrid α) (row col : Nat) : Result α (Point α) :=
  if row < g.nrows ∧ col < g.ncols then
    .ok (g.grid.toWorld ⟨Scalar.ofNat row, Scalar.ofNat col⟩)
  else .error (.offGrid row col g.nrows g.ncols)

def cellToWorld (g : BoundedGrid α) (index : Nat) : Result α (Point α) := do
  let (row, col) ← g.cellOf index
  g.toWorld row col

end BoundedGrid
end Seismic
