import Seismic.Proofs.Horizon
import Seismic.Proofs.Stores

/-!
# Storing depths

A depth is stored in a cell that is named by its row and column or by its number.  Rows, columns
and numbers are checked apart from each other, and the values stand in a single array, in which
the place of a cell is its number.  As every cell has one number and every number below their
count is that of one cell, both ways of naming a cell reach the same value.
-/

namespace Seismic

variable {α σ : Type}

/-! ## Cells and their numbers -/

namespace Horizon

variable {h : Horizon α σ} {index row col : Nat}

theorem cell_lt_count (held : h.Holds row col) :
    h.cell row col < h.grid.nrows * h.grid.ncols := by
  rw [← h.values_size]
  exact cell_lt_size held

/-- Row and column of a cell are the quotient and the remainder of its number. -/
theorem div_mod_cell (held : h.Holds row col) :
    h.cell row col / h.grid.ncols = row ∧ h.cell row col % h.grid.ncols = col := by
  obtain ⟨-, hcol⟩ := held
  unfold cell
  constructor
  · rw [Nat.mul_comm, Nat.mul_add_div (by omega), Nat.div_eq_of_lt hcol, Nat.add_zero]
  · exact Nat.mul_add_mod_of_lt hcol

theorem cell_inj {row' col' : Nat} (held : h.Holds row col) (held' : h.Holds row' col')
    (hcell : h.cell row col = h.cell row' col') : row = row' ∧ col = col' := by
  obtain ⟨hrow, hcol⟩ := div_mod_cell held
  obtain ⟨hrow', hcol'⟩ := div_mod_cell held'
  rw [hcell] at hrow hcol
  exact ⟨hrow.symm.trans hrow', hcol.symm.trans hcol'⟩

section Counted

variable (hcount : h.grid.nrows * h.grid.ncols < countBound)
include hcount

theorem cellOf_eq_ok_iff :
    h.grid.cellOf index = .ok (row, col) ↔ h.Holds row col ∧ index = h.cell row col := by
  rw [BoundedGrid.cellOf_eq_ok]
  constructor
  · rintro ⟨-, hi, rfl, rfl⟩
    exact ⟨BoundedGrid.cell_lt hi, (h.cell_div_mod index).symm⟩
  · rintro ⟨held, rfl⟩
    obtain ⟨hrow, hcol⟩ := div_mod_cell held
    exact ⟨hcount, cell_lt_count held, hrow.symm, hcol.symm⟩

theorem cellOf_of_lt (hi : index < h.grid.nrows * h.grid.ncols) :
    h.grid.cellOf index = .ok (index / h.grid.ncols, index % h.grid.ncols) :=
  BoundedGrid.cellOf_eq_ok.mpr ⟨hcount, hi, rfl, rfl⟩

/-- Nothing is divided if there are no cells. -/
theorem cellOf_of_ge (hi : h.grid.nrows * h.grid.ncols ≤ index) :
    h.grid.cellOf index = .error (.pastGrid index (h.grid.nrows * h.grid.ncols)) := by
  unfold BoundedGrid.cellOf BoundedGrid.size
  rw [mulCounts_eq_ok.mpr ⟨hcount, rfl⟩, ok_bind, if_neg (Nat.not_lt.mpr hi)]

end Counted

theorem set_of_not_holds (held : ¬ h.Holds row col) (x : σ) :
    h.set row col x = .error (.offSurface row col h.grid.nrows h.grid.ncols) :=
  if_neg held

/-! ## New horizons -/

/-- The ways to make a horizon, and what its cells hold at first: a row of an array after the
other, or the same value everywhere. -/
inductive Made : Horizon α σ → (Nat → Nat → Option σ) → Prop
  | ofArray {values : Array σ} {grid : BoundedGrid α} {fill : σ} {h : Horizon α σ}
    (made : ofArray values grid fill = .ok h) : Made h fun row col => values[row * grid.ncols + col]?
  | filled {grid : BoundedGrid α} {value fill : σ} {h : Horizon α σ}
    (made : filled grid value fill = .ok h) : Made h fun _ _ => some value

theorem count_le_reach (m n : Nat) : m * n ≤ Shape.reach [m, n] := by
  show m * n ≤ 1 * Max.max m 1 * Max.max n 1
  rw [Nat.one_mul]
  exact Nat.mul_le_mul (Nat.le_max_left m 1) (Nat.le_max_left n 1)

theorem count_lt_of_isAddressable {m n : Nat} (h : Shape.isAddressable [m, n] = true) :
    m * n < countBound := by
  have hreach := of_decide_eq_true h
  have hle := count_le_reach m n
  unfold signedBound at hreach
  unfold countBound
  omega

theorem ofArray_eq_ok {values : Array σ} {grid : BoundedGrid α} {fill : σ}
    (hok : ofArray values grid fill = .ok h) :
    grid.nrows * grid.ncols < countBound ∧ h.grid = grid ∧ h.values = values := by
  unfold ofArray at hok
  obtain ⟨n, hn, hok⟩ := bind_eq_ok.mp hok
  split_ifs at hok with hsize hshape
  · cases hok
  · cases hok
    exact ⟨(mulCounts_eq_ok.mp hn).1, rfl, rfl⟩

theorem filled_eq_ok {grid : BoundedGrid α} {value fill : σ}
    (hok : filled grid value fill = .ok h) : grid.nrows * grid.ncols < countBound ∧
      h.grid = grid ∧ h.values = Array.replicate (grid.nrows * grid.ncols) value := by
  unfold filled at hok
  obtain ⟨hcheck, hok⟩ := check_eq_ok.mp hok
  rw [Bool.or_eq_true, not_or, Bool.not_eq_true, Bool.not_eq_false'] at hcheck
  cases hok
  exact ⟨count_lt_of_isAddressable hcheck.1, rfl, rfl⟩

theorem Made.count_lt {initial : Nat → Nat → Option σ} (made : Made h initial) :
    h.grid.nrows * h.grid.ncols < countBound := by
  cases made with
  | ofArray made =>
    obtain ⟨hcount, hgrid, -⟩ := ofArray_eq_ok made
    rwa [hgrid]
  | filled made =>
    obtain ⟨hcount, hgrid, -⟩ := filled_eq_ok made
    rwa [hgrid]

theorem Made.place {initial : Nat → Nat → Option σ} (made : Made h initial)
    (held : h.Holds row col) : h.values[h.cell row col]? = initial row col := by
  have hlt := cell_lt_size held
  cases made with
  | ofArray made =>
    obtain ⟨-, hgrid, hvalues⟩ := ofArray_eq_ok made
    rw [hvalues, cell, hgrid]
  | filled made =>
    obtain ⟨-, hgrid, hvalues⟩ := filled_eq_ok made
    rw [hvalues, Array.size_replicate] at hlt
    rw [hvalues, Array.getElem?_replicate, if_pos hlt]

/-! ## Storing in place -/

theorem setInPlace_eq (h : Horizon α σ) (row col : Nat) (x : σ) :
    h.setInPlace row col x = settle h (h.set row col x) := by
  unfold setInPlace set
  by_cases held : h.Holds row col
  · rw [if_pos held, if_pos held]
    rfl
  · rw [if_neg held, if_neg held]
    rfl

theorem setAtInPlace_eq (h : Horizon α σ) (index : Nat) (x : σ) :
    h.setAtInPlace index x = settle h (h.setAt index x) := by
  unfold setAtInPlace setAt
  cases h.grid.cellOf index with
  | ok cell => exact setInPlace_eq h cell.1 cell.2 x
  | error e => rfl

end Horizon

/-- A value that is to be stored in a cell, named by its row and column or by its number. -/
inductive Store (σ : Type) where
  | inCell (row col : Nat) (value : σ)
  | atIndex (index : Nat) (value : σ)

namespace Store

def value : Store σ → σ
  | inCell _ _ x => x
  | atIndex _ x => x

def perform (h : Horizon α σ) : Store σ → Result α Unit × Horizon α σ
  | inCell row col x => h.setInPlace row col x
  | atIndex index x => h.setAtInPlace index x

variable (g : BoundedGrid α) (row col : Nat) (c : Store σ)

/-- Whether a grid has the cell that is named. -/
def Fits : Store σ → Prop
  | inCell row col _ => row < g.nrows ∧ col < g.ncols
  | atIndex index _ => index < g.nrows * g.ncols

/-- Whether the cell in a row and a column of a grid is the one that is named. -/
def Names : Store σ → Prop
  | inCell row' col' _ => row' = row ∧ col' = col
  | atIndex index _ => index = row * g.ncols + col

/-- The failure if there is no such cell. -/
def refusal : Store σ → Failure α
  | inCell row col _ => .offSurface row col g.nrows g.ncols
  | atIndex index _ => .pastGrid index (g.nrows * g.ncols)

/-- The number of the cell that is named. -/
def number : Store σ → Nat
  | inCell row col _ => row * g.ncols + col
  | atIndex index _ => index

instance : Decidable (c.Fits g) :=
  match c with
  | inCell .. => inferInstanceAs (Decidable (_ ∧ _))
  | atIndex .. => inferInstanceAs (Decidable (_ < _))

instance : Decidable (c.Names g row col) :=
  match c with
  | inCell .. => inferInstanceAs (Decidable (_ ∧ _))
  | atIndex .. => inferInstanceAs (Decidable (_ = _))

/-- The number of the cell that is named, if there is one. -/
def place : Option Nat := if c.Fits g then some (c.number g) else none

def answer : Result α Unit := if c.Fits g then .ok () else .error (c.refusal g)

theorem category_refusal : (c.refusal g).category? = some .outOfRange := by
  cases c <;> rfl

variable {g row col c} {h : Horizon α σ}

/-- A cell of the grid is named by the stores that fit and have its number. -/
theorem place_eq_some_iff (held : h.Holds row col) :
    c.place h.grid = some (h.cell row col) ↔ c.Names h.grid row col := by
  have hlt := Horizon.cell_lt_count held
  unfold place
  rw [Option.ite_none_right_eq_some, Option.some_inj]
  cases c with
  | inCell row' col' x =>
    constructor
    · rintro ⟨held', hcell⟩
      exact Horizon.cell_inj held' held hcell
    · rintro ⟨rfl, rfl⟩
      exact ⟨held, rfl⟩
  | atIndex index x =>
    refine and_iff_right_of_imp fun hindex => ?_
    rw [show index = h.cell row col from hindex]
    exact hlt

section Counted

variable (hcount : h.grid.nrows * h.grid.ncols < countBound)
include hcount

theorem perform_of_fits (hfits : c.Fits h.grid) : ∃ h', c.perform h = (.ok (), h') ∧
    h'.grid = h.grid ∧ h'.fill = h.fill ∧
    h'.values = h.values.setIfInBounds (c.number h.grid) c.value := by
  cases c with
  | inCell row col x =>
    obtain ⟨h', hset, hrest⟩ := Horizon.set_of_holds hfits x
    refine ⟨h', ?_, hrest⟩
    rw [perform, Horizon.setInPlace_eq, hset]
    rfl
  | atIndex index x =>
    obtain ⟨h', hset, hgrid, hfill, hvalues⟩ := Horizon.set_of_holds (BoundedGrid.cell_lt hfits) x
    rw [Horizon.cell_div_mod] at hvalues
    refine ⟨h', ?_, hgrid, hfill, hvalues⟩
    rw [perform, Horizon.setAtInPlace_eq, Horizon.setAt, Horizon.cellOf_of_lt hcount hfits]
    show settle h (h.set _ _ x) = _
    rw [hset]
    rfl

theorem perform_of_not_fits (hfits : ¬ c.Fits h.grid) :
    c.perform h = (.error (c.refusal h.grid), h) := by
  cases c with
  | inCell row col x =>
    rw [perform, Horizon.setInPlace_eq, Horizon.set_of_not_holds hfits]
    rfl
  | atIndex index x =>
    rw [perform, Horizon.setAtInPlace_eq, Horizon.setAt,
      Horizon.cellOf_of_ge hcount (Nat.not_lt.mp hfits)]
    rfl

end Counted

/-- One store, as far as the next one is concerned. -/
theorem perform_stored (fill : σ) (hcount : g.nrows * g.ncols < countBound) (h : Horizon α σ)
    (c : Store σ) (hkept : h.grid = g ∧ h.fill = fill) :
    (c.perform h).1 = c.answer g ∧ ((c.perform h).2.grid = g ∧ (c.perform h).2.fill = fill) ∧
      (c.perform h).2.values = stored (·.place g) value h.values c := by
  obtain ⟨rfl, rfl⟩ := hkept
  unfold answer
  by_cases hfits : c.Fits h.grid
  · obtain ⟨h', hperform, hgrid, hfill, hvalues⟩ := perform_of_fits hcount hfits
    have hplace : c.place h.grid = some (c.number h.grid) := if_pos hfits
    rw [hperform, if_pos hfits, stored_of_some hplace]
    exact ⟨rfl, ⟨hgrid, hfill⟩, hvalues⟩
  · have hplace : c.place h.grid = none := if_neg hfits
    rw [perform_of_not_fits hcount hfits, if_neg hfits, stored_of_none hplace]
    exact ⟨rfl, ⟨rfl, rfl⟩, rfl⟩

end Store

namespace Horizon

variable {h : Horizon α σ} {initial : Nat → Nat → Option σ}

/-- Any depths stored in a new horizon, one after the other.  Cells and numbers below their count
correspond to each other, and if there are none, no number has a row and a column.  A store is
refused if its cell is not there, which leaves the horizon as it was.  In the end every cell has
the value that was stored in it last, or the one that it had at first, and so it is read by row
and column, by number, and in the order of rows. -/
theorem stores_of_made (made : Made h initial) (stores : List (Store σ)) :
    ((∀ index row col, h.grid.cellOf index = .ok (row, col) ↔
        row < h.grid.nrows ∧ col < h.grid.ncols ∧ index = row * h.grid.ncols + col) ∧
      ∀ index, if index < h.grid.nrows * h.grid.ncols then
        0 < h.grid.ncols ∧ ∃ cell, h.grid.cellOf index = .ok cell
      else h.grid.cellOf index = .error (.pastGrid index (h.grid.nrows * h.grid.ncols))) ∧
    (∀ (h' : Horizon α σ) (c : Store σ), h'.grid = h.grid → ¬ c.Fits h.grid →
      c.perform h' = (.error (c.refusal h.grid), h')) ∧
    (∀ c : Store σ, (c.refusal h.grid).category? = some .outOfRange) ∧
    ∃ h', inTurn Store.perform h stores =
        (stores.map fun c => if c.Fits h.grid then .ok () else .error (c.refusal h.grid), h') ∧
      h'.grid = h.grid ∧ h'.fill = h.fill ∧ h'.values.size = h.grid.nrows * h.grid.ncols ∧
      ∀ row col, row < h.grid.nrows → col < h.grid.ncols → ∃ x y, initial row col = some x ∧
        y = lastValue Store.value (·.Names h.grid row col) stores x ∧
        h'.value row col = .ok y ∧ h'.valueAt (row * h.grid.ncols + col) = .ok y ∧
        h'.values[row * h.grid.ncols + col]? = some y := by
  have hcount := made.count_lt
  refine ⟨⟨fun index row col => ?_, fun index => ?_⟩, ?_, fun c => c.category_refusal h.grid, ?_⟩
  · rw [cellOf_eq_ok_iff hcount]
    exact and_assoc
  · split_ifs with hi
    · exact ⟨Nat.pos_of_lt_mul_left hi, _, cellOf_of_lt hcount hi⟩
    · exact cellOf_of_ge hcount (Nat.not_lt.mp hi)
  · intro h' c hgrid hfits
    rw [← hgrid] at hcount hfits ⊢
    exact Store.perform_of_not_fits hcount hfits
  have hrun := inTurn_stored (Store.perform_stored h.fill hcount) ⟨rfl, rfl⟩ stores
  generalize inTurn Store.perform h stores = run at hrun ⊢
  obtain ⟨answers, h'⟩ := run
  obtain ⟨rfl, ⟨hgrid, hfill⟩, hvalues⟩ := hrun
  dsimp only at hgrid hfill hvalues
  refine ⟨h', rfl, hgrid, hfill, by rw [values_size, hgrid], fun row col hrow hcol => ?_⟩
  have held : h.Holds row col := ⟨hrow, hcol⟩
  have hx := Array.getElem?_eq_getElem (cell_lt_size held)
  have hy := getElem?_foldl_stored (·.place h.grid) Store.value stores hx
  rw [← hvalues, lastValue_congr fun c => Store.place_eq_some_iff held] at hy
  refine ⟨_, _, (made.place held).symm.trans hx, rfl, ?_, ?_, hy⟩
  · have held' : h'.Holds row col := by rwa [Holds, hgrid]
    exact value_eq_ok.mpr ⟨held', by rwa [cell, hgrid]⟩
  · exact valueAt_eq_ok.mpr ⟨by rwa [hgrid], hy⟩

/-- Two rows of three cells at integral points, with six samples that are not zero. -/
def sixCells : Result Float (Horizon Float Single) :=
  ofArray #[⟨1⟩, ⟨2⟩, ⟨3⟩, ⟨4⟩, ⟨5⟩, ⟨6⟩] ⟨⟨⟨1, 0, 0, 0, 1, 0⟩, ⟨1, 0, 0, 0, 1, 0⟩⟩, 2, 3⟩ ⟨0⟩

/-- Two of four stores name the same cell, each in its own way, and the others name no cell. -/
theorem stores_of_made_of_six : ∃ h h', sixCells = .ok h ∧
    inTurn Store.perform h [.inCell 1 0 ⟨7⟩, .atIndex 6 ⟨8⟩, .atIndex 3 ⟨9⟩, .inCell 0 3 ⟨8⟩] =
      ([.ok (), .error (.pastGrid 6 6), .ok (), .error (.offSurface 0 3 2 3)], h') ∧
    h'.value 1 0 = .ok ⟨9⟩ ∧ h'.valueAt 3 = .ok ⟨9⟩ ∧ h'.value 0 2 = .ok ⟨3⟩ := by
  obtain ⟨h, made, hgrid⟩ : ∃ h, sixCells = .ok h ∧ h.grid.nrows = 2 ∧ h.grid.ncols = 3 :=
    ⟨_, rfl, rfl, rfl⟩
  obtain ⟨-, -, -, h', hrun, -, -, -, hcells⟩ := stores_of_made (.ofArray made)
    [.inCell 1 0 ⟨7⟩, .atIndex 6 ⟨8⟩, .atIndex 3 ⟨9⟩, .inCell 0 3 ⟨8⟩]
  obtain ⟨x, y, hx, rfl, hvalue, hvalueAt, -⟩ := hcells 1 0 (by omega) (by omega)
  obtain ⟨x', y', hx', rfl, hvalue', -, -⟩ := hcells 0 2 (by omega) (by omega)
  cases made
  cases hx
  cases hx'
  exact ⟨_, h', rfl, hrun, hvalue, hvalueAt, hvalue'⟩

end Horizon
end Seismic
