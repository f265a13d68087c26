import Seismic.Proofs.Align
import Seismic.Proofs.Exact.Coordinates

/-!
# Grids in exact arithmetic

The determinant of a map that scales, turns and moves the plane is the product of its scales,
whatever the turn.  So a grid with two scales other than zero, of either sign, has an inverse,
and the inverse that is computed from the determinant has the entries of the closed form.  World
positions of cells are taken back to the cells themselves, and nothing is left to be rounded.
-/

namespace Seismic
namespace Exact

variable {K : Type} [Field K] [LinearOrder K] [FloorRing K]

/-! ## Maps that turn -/

section Turn

variable (origin : Point (Exact K)) {scale : Point (Exact K)} {turn : Turn (Exact K)}
variable (hturn : turn.sin.val ^ 2 + turn.cos.val ^ 2 = 1)
include hturn

theorem determinant_placing :
    (Affine.placing origin scale turn).determinant.val = scale.x.val * scale.y.val := by
  show scale.x.val * turn.cos.val * (scale.y.val * turn.cos.val) -
    -scale.y.val * turn.sin.val * (scale.x.val * turn.sin.val) = scale.x.val * scale.y.val
  linear_combination scale.x.val * scale.y.val * hturn

/-- The inverse in closed form is the one that is computed from the determinant. -/
theorem inverse_placing (hx : scale.x.val ≠ 0) (hy : scale.y.val ≠ 0) :
    (Affine.placing origin scale turn).inverse = .ok (Affine.locating origin scale turn) := by
  have hdet : (Affine.placing origin scale turn).determinant.val = scale.x.val * scale.y.val :=
    determinant_placing origin hturn
  refine inverse_eq_ok.mpr ⟨by rw [hdet]; exact mul_ne_zero hx hy, ?_⟩
  -- One of the two scales cancels in every entry.
  ext <;> simp only [div_val, neg_val, sub_val, mul_val, hdet] <;>
    simp only [Affine.placing, Affine.locating, div_val, neg_val, sub_val, mul_val, add_val] <;>
    field_simp
  ring

theorem inverses_placed (hx : scale.x.val ≠ 0) (hy : scale.y.val ≠ 0) :
    Inverses (Grid.placed origin scale turn).toWorld (Grid.placed origin scale turn).ofWorld :=
  inverses_apply (inverse_placing origin hturn hx hy)

end Turn

/-! ## Cells -/

section Cells

variable [IsStrictOrderedRing K] {g : BoundedGrid (Exact K)}

/-- The rows and the columns have to be counts, so that they can be converted back to one. -/
theorem roundTrips_of_inverses (h : Inverses g.grid.toWorld g.grid.ofWorld)
    (hrows : g.nrows ≤ countBound) (hcols : g.ncols ≤ countBound) : g.RoundTrips := by
  intro row hrow col hcol
  have hposition := h.1 ⟨Scalar.ofNat row, Scalar.ofNat col⟩
  have hinside : (0 : Exact K) ≤ Scalar.ofNat row ∧ (0 : Exact K) ≤ Scalar.ofNat col ∧
      (Scalar.ofNat row : Exact K) < Scalar.ofNat g.nrows ∧
      (Scalar.ofNat col : Exact K) < Scalar.ofNat g.ncols := by
    simp only [le_iff, lt_iff, zero_val, ofNat_val]
    exact ⟨Nat.cast_nonneg row, Nat.cast_nonneg col, Nat.cast_lt.mpr hrow, Nat.cast_lt.mpr hcol⟩
  unfold BoundedGrid.nearestCell
  dsimp only
  rw [hposition, nearest_ofNat, nearest_ofNat, if_pos hinside,
    toCount_of_val (ofNat_val row) (by omega), toCount_of_val (ofNat_val col) (by omega)]

/-- The world position of a cell is taken back to its row and its column. -/
theorem ofWorld_of_toWorld (h : Inverses g.grid.toWorld g.grid.ofWorld) {row col : ℕ} :
    row < g.nrows ∧ col < g.ncols ↔ ∃ world, g.toWorld row col = .ok world ∧
      Scalar.nearest (g.grid.ofWorld world).x = Scalar.ofNat row ∧
      Scalar.nearest (g.grid.ofWorld world).y = Scalar.ofNat col := by
  unfold BoundedGrid.toWorld
  split_ifs with hcell
  · refine iff_of_true hcell ⟨_, rfl, ?_⟩
    rw [h.1]
    exact ⟨nearest_ofNat row, nearest_ofNat col⟩
  · exact iff_of_false hcell nofun

end Cells

/-- A grid that is turned by any angle and scaled by two numbers other than zero.  Its inverse in
closed form is the inverse that is computed from the determinant, and each of the two maps undoes
the other.  The world position of a cell, which every cell of a bounded grid has and nothing else,
is rounded back to the row and the column of the cell. -/
theorem placed_of_turn [IsStrictOrderedRing K] (origin scale : Point (Exact K))
    {turn : Turn (Exact K)} (hturn : turn.sin.val ^ 2 + turn.cos.val ^ 2 = 1)
    (hx : scale.x.val ≠ 0) (hy : scale.y.val ≠ 0) :
    (Affine.placing origin scale turn).inverse = .ok (Affine.locating origin scale turn) ∧
    Inverses (Affine.placing origin scale turn).apply (Affine.locating origin scale turn).apply ∧
    Inverses (Grid.placed origin scale turn).toWorld (Grid.placed origin scale turn).ofWorld ∧
    ∀ g : BoundedGrid (Exact K), g.grid = Grid.placed origin scale turn →
      (∀ row col, row < g.nrows ∧ col < g.ncols ↔ ∃ world, g.toWorld row col = .ok world ∧
        Scalar.nearest (g.grid.ofWorld world).x = Scalar.ofNat row ∧
        Scalar.nearest (g.grid.ofWorld world).y = Scalar.ofNat col) ∧
      (g.nrows ≤ countBound → g.ncols ≤ countBound → g.RoundTrips) := by
  have hinverse := inverse_placing origin hturn hx hy
  have hplaced := inverses_placed origin hturn hx hy
  refine ⟨hinverse, inverses_apply hinverse, hplaced, fun g hg => ?_⟩
  have hgrid : Inverses g.grid.toWorld g.grid.ofWorld := hg ▸ hplaced
  exact ⟨fun row col => ofWorld_of_toWorld hgrid, roundTrips_of_inverses hgrid⟩

end Exact

/-- The turn by an angle of a right triangle with the sides three, four and five. -/
def Turn.triangle : Turn (Exact ℚ) := ⟨⟨3 / 5⟩, ⟨4 / 5⟩⟩

/-- A grid of two rows and three columns that is turned and mirrored. -/
theorem Grid.placed_of_mirrored :
    Turn.triangle.sin.val ^ 2 + Turn.triangle.cos.val ^ 2 = 1 ∧
    (⟨5⟩ : Exact ℚ).val ≠ 0 ∧ (⟨-2⟩ : Exact ℚ).val ≠ 0 ∧
    (Affine.placing ⟨⟨10⟩, ⟨20⟩⟩ ⟨⟨5⟩, ⟨-2⟩⟩ Turn.triangle).inverse =
      .ok ⟨⟨4 / 25⟩, ⟨3 / 25⟩, ⟨-4⟩, ⟨3 / 10⟩, ⟨-2 / 5⟩, ⟨5⟩⟩ ∧
    (BoundedGrid.mk (Grid.placed ⟨⟨10⟩, ⟨20⟩⟩ ⟨⟨5⟩, ⟨-2⟩⟩ Turn.triangle) 2 3).RoundTrips := by
  have hturn : Turn.triangle.sin.val ^ 2 + Turn.triangle.cos.val ^ 2 = 1 := by decide +kernel
  have hx : (⟨5⟩ : Exact ℚ).val ≠ 0 := by decide
  have hy : (⟨-2⟩ : Exact ℚ).val ≠ 0 := by decide
  obtain ⟨hinverse, -, -, hcells⟩ :=
    Exact.placed_of_turn ⟨⟨10⟩, ⟨20⟩⟩ ⟨⟨5⟩, ⟨-2⟩⟩ hturn hx hy
  refine ⟨hturn, hx, hy, hinverse.trans (congrArg Except.ok ?_),
    (hcells _ rfl).2 (by decide) (by decide)⟩
  ext <;> decide +kernel

end Seismic
