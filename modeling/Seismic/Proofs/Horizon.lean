import Seismic.Horizon.Basic
import Seismic.Proofs.Result

/-!
# Reading and writing horizons

A cell named by its number has a value and a world position if the number is below the
number of cells, and if that fits 64 bits.  Row and column of the number lead back to it.
A cell that is written keeps the others as they are.
-/

namespace Seismic

variable {α σ : Type}

namespace BoundedGrid

theorem cellOf_eq_ok {g : BoundedGrid α} {index row col : Nat} :
    g.cellOf index = .ok (row, col) ↔ g.nrows * g.ncols < countBound ∧
      index < g.nrows * g.ncols ∧ row = index / g.ncols ∧ col = index % g.ncols := by
  unfold cellOf size
  rw [bind_eq_ok]
  constructor
  · rintro ⟨n, hn, h⟩
    obtain ⟨hb, rfl⟩ := mulCounts_eq_ok.mp hn
    split_ifs at h with hi
    cases h
    exact ⟨hb, hi, rfl, rfl⟩
  · rintro ⟨hb, hi, rfl, rfl⟩
    exact ⟨_, mulCounts_eq_ok.mpr ⟨hb, rfl⟩, if_pos hi⟩

theorem cell_lt {nrows ncols index : Nat} (h : index < nrows * ncols) :
    index / ncols < nrows ∧ index % ncols < ncols := by
  have hc : 0 < ncols := Nat.pos_of_ne_zero fun h0 => by
    rw [h0, Nat.mul_zero] at h
    exact Nat.not_lt_zero _ h
  exact ⟨Nat.div_lt_of_lt_mul (by rwa [Nat.mul_comm]), Nat.mod_lt _ hc⟩

theorem cellToWorld_eq_ok [Scalar α] {g : BoundedGrid α} {index : Nat} {world : Point α} :
    g.cellToWorld index = .ok world ↔ g.nrows * g.ncols < countBound ∧
      index < g.nrows * g.ncols ∧
      world = g.grid.toWorld
        ⟨Scalar.ofNat (index / g.ncols), Scalar.ofNat (index % g.ncols)⟩ := by
  unfold cellToWorld
  rw [bind_eq_ok]
  constructor
  · rintro ⟨⟨row, col⟩, hrc, h⟩
    obtain ⟨hb, hi, rfl, rfl⟩ := cellOf_eq_ok.mp hrc
    dsimp only at h
    unfold toWorld at h
    rw [if_pos (cell_lt hi)] at h
    exact ⟨hb, hi, (Except.ok.inj h).symm⟩
  · rintro ⟨hb, hi, rfl⟩
    refine ⟨(index / g.ncols, index % g.ncols), cellOf_eq_ok.mpr ⟨hb, hi, rfl, rfl⟩, ?_⟩
    dsimp only
    unfold toWorld
    rw [if_pos (cell_lt hi)]

end BoundedGrid

namespace Horizon

theorem cell_div_mod (h : Horizon α σ) (index : Nat) :
    h.cell (index / h.grid.ncols) (index % h.grid.ncols) = index :=
  Nat.div_add_mod' index h.grid.ncols

theorem value_eq_ok {h : Horizon α σ} {row col : Nat} {v : σ} :
    h.value row col = .ok v ↔ h.Holds row col ∧ h.values[h.cell row col]? = some v := by
  unfold value
  split_ifs with held
  · rw [Array.getElem?_eq_getElem (cell_lt_size held), Except.ok.injEq, Option.some_inj]
    exact (and_iff_right held).symm
  · exact ⟨fun hv => (nomatch hv), fun hv => absurd hv.1 held⟩

theorem valueAt_eq_ok {h : Horizon α σ} {index : Nat} {v : σ} :
    h.valueAt index = .ok v ↔
      h.grid.nrows * h.grid.ncols < countBound ∧ h.values[index]? = some v := by
  unfold valueAt
  rw [bind_eq_ok]
  constructor
  · rintro ⟨⟨row, col⟩, hrc, hv⟩
    obtain ⟨hb, hi, rfl, rfl⟩ := BoundedGrid.cellOf_eq_ok.mp hrc
    obtain ⟨-, hv⟩ := value_eq_ok.mp hv
    rw [cell_div_mod] at hv
    exact ⟨hb, hv⟩
  · rintro ⟨hb, hv⟩
    have hi : index < h.grid.nrows * h.grid.ncols := by
      rw [← h.values_size]
      exact (Array.getElem?_eq_some_iff.mp hv).1
    refine ⟨(index / h.grid.ncols, index % h.grid.ncols),
      BoundedGrid.cellOf_eq_ok.mpr ⟨hb, hi, rfl, rfl⟩, ?_⟩
    exact value_eq_ok.mpr ⟨BoundedGrid.cell_lt hi, by rwa [cell_div_mod]⟩

theorem set_of_holds {h : Horizon α σ} {row col : Nat} (held : h.Holds row col) (x : σ) :
    ∃ h' : Horizon α σ, h.set row col x = .ok h' ∧ h'.grid = h.grid ∧ h'.fill = h.fill ∧
      h'.values = h.values.setIfInBounds (h.cell row col) x :=
  ⟨_, if_pos held, rfl, rfl, rfl⟩

variable [Scalar α]

theorem cellToWorld_of_valueAt {h : Horizon α σ} {index : Nat} {v : σ}
    (hv : h.valueAt index = .ok v) : ∃ world, h.cellToWorld index = .ok world := by
  obtain ⟨hb, hv⟩ := valueAt_eq_ok.mp hv
  obtain ⟨hi, -⟩ := Array.getElem?_eq_some_iff.mp hv
  rw [h.values_size] at hi
  exact ⟨_, BoundedGrid.cellToWorld_eq_ok.mpr ⟨hb, hi, rfl⟩⟩

end Horizon
end Seismic
