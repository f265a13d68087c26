import Seismic.Horizon.Align
import Seismic.Proofs.Horizon

/-!
# Aligning horizons on one grid

Where rounding leads from the world position of every cell back to the cell, a horizon is
aligned with another on the same grid cell by cell: each depth stays where it is, and is left
out where the other horizon has none.  Which horizon lies above is found from the first cell
whose depths differ, and every later one has to agree.
-/

namespace Seismic

variable {α σ : Type} [Scalar α] [Sampled σ α]

namespace BoundedGrid

/-- The cell nearest to a world point, unless that is off the grid. -/
def nearestCell (g : BoundedGrid α) (point : Point α) : Option (Nat × Nat) :=
  let position := g.grid.ofWorld point
  let row := Scalar.nearest position.x
  let col := Scalar.nearest position.y
  if 0 ≤ row ∧ 0 ≤ col ∧ row < Scalar.ofNat g.nrows ∧ col < Scalar.ofNat g.ncols then
    some (Scalar.toCount row, Scalar.toCount col)
  else none

/-- Rounding leads from the world position of every cell back to the cell. -/
def RoundTrips (g : BoundedGrid α) : Prop :=
  ∀ row < g.nrows, ∀ col < g.ncols,
    g.nearestCell (g.grid.toWorld ⟨Scalar.ofNat row, Scalar.ofNat col⟩) = some (row, col)

instance (g : BoundedGrid α) : Decidable g.RoundTrips :=
  inferInstanceAs (Decidable (∀ row < _, ∀ col < _, _))

end BoundedGrid

namespace Horizon

/-! ## One cell -/

section Cells

omit [Scalar α] [Sampled σ α]

theorem exists_set {h : Horizon α σ} {index row col : Nat}
    (hrc : h.grid.cellOf index = .ok (row, col)) (x : σ) :
    ∃ h' : Horizon α σ, h.set row col x = .ok h' ∧ h'.grid = h.grid ∧ h'.fill = h.fill ∧
      h'.values = h.values.setIfInBounds index x := by
  obtain ⟨-, hi, rfl, rfl⟩ := BoundedGrid.cellOf_eq_ok.mp hrc
  have hset := set_of_holds (BoundedGrid.cell_lt hi) x
  rwa [cell_div_mod] at hset

theorem holds_of_value {h : Horizon α σ} {row col : Nat} {x : σ}
    (hx : h.value row col = .ok x) : h.Holds row col :=
  (value_eq_ok.mp hx).1

end Cells

variable {primary secondary : Horizon α σ} {row col : Nat} {p q : σ}

theorem depthAt_of_some {point : Point α}
    (hcell : secondary.grid.nearestCell point = some (row, col)) :
    secondary.depthAt point = do
      let value ← secondary.value row col
      return if secondary.isFill value then none else some value := by
  unfold BoundedGrid.nearestCell at hcell
  dsimp only at hcell
  split_ifs at hcell with hinside
  simp only [Option.some.injEq, Prod.mk.injEq] at hcell
  obtain ⟨hrow, hcol⟩ := hcell
  rw [← hrow, ← hcol]
  unfold depthAt ofWorld
  exact if_pos hinside

theorem depthAt_of_none {point : Point α} (hcell : secondary.grid.nearestCell point = none) :
    secondary.depthAt point = .ok none := by
  unfold BoundedGrid.nearestCell at hcell
  dsimp only at hcell
  split_ifs at hcell with hinside
  unfold depthAt
  exact if_neg hinside

theorem depthAt_eq {point : Point α} (hcell : secondary.grid.nearestCell point = some (row, col))
    (hq : secondary.value row col = .ok q) :
    secondary.depthAt point = .ok (if secondary.isFill q then none else some q) := by
  rw [depthAt_of_some hcell, hq]
  rfl

theorem depths_eq (hgrid : secondary.grid = primary.grid) (hr : primary.grid.RoundTrips)
    (hp : primary.value row col = .ok p) (hq : secondary.value row col = .ok q) :
    primary.depths secondary row col =
      .ok (if primary.isFill p || secondary.isFill q then none else some (p, q)) := by
  obtain ⟨hrow, hcol⟩ := holds_of_value hp
  unfold depths
  rw [hp, ok_bind]
  cases hfill : primary.isFill p with
  | true => rfl
  | false =>
    have hworld : primary.toWorld row col =
        .ok (primary.grid.grid.toWorld ⟨Scalar.ofNat row, Scalar.ofNat col⟩) :=
      if_pos ⟨hrow, hcol⟩
    rw [if_neg Bool.false_ne_true, hworld, ok_bind,
      depthAt_eq (hgrid ▸ hr row hrow col hcol) hq, Bool.false_or]
    cases secondary.isFill q <;> rfl

/-- Wherever both horizons have a depth and the depths differ, `primary` lies above if
`above`, and below if not. -/
def Oriented (primary secondary : Horizon α σ) (above : Bool) : Prop :=
  ∀ (i : Nat) p q, primary.values[i]? = some p → secondary.values[i]? = some q →
    primary.isFill p = false → secondary.isFill q = false →
      Sampled.same q p = true ∨ decide (Sampled.widen p < Sampled.widen q) = above

theorem exists_orient (row col : Nat) {above : Bool} {found : Option Bool}
    (ho : Sampled.same q p = true ∨ decide (Sampled.widen p < Sampled.widen q) = above)
    (hf : found = none ∨ found = some above) :
    ∃ found', (orient found p q row col : Result α _) = .ok found' ∧
      (found' = none ∨ found' = some above) ∧
      (found' = none → found = none ∧ Sampled.same q p = true) := by
  unfold orient
  by_cases hs : Sampled.same q p = true
  · exact ⟨found, if_pos hs, hf, fun h => ⟨h, hs⟩⟩
  · have hhere := ho.resolve_left hs
    refine ⟨some above, ?_, .inr rfl, fun h => nomatch h⟩
    rw [if_neg hs, hhere]
    rcases hf with rfl | rfl
    · rfl
    · exact if_pos rfl

/-! ## All cells -/

/-- What aligning has done after the cells below `n`. -/
structure Aligning (primary secondary : Horizon α σ) (blank : σ) (above : Bool) (n : Nat)
    (aligned : Horizon α σ) (found : Option Bool) : Prop where
  grid : aligned.grid = primary.grid
  fill : aligned.fill = blank
  value : ∀ i < n, ∀ p q, primary.values[i]? = some p → secondary.values[i]? = some q →
    aligned.values[i]? = some (if primary.isFill p || secondary.isFill q then blank else q)
  side : found = none ∨ found = some above
  same : found = none → ∀ i < n, ∀ p q, primary.values[i]? = some p →
    secondary.values[i]? = some q → primary.isFill p = false → secondary.isFill q = false →
      Sampled.same q p = true

variable {blank : σ} {above : Bool} {n : Nat} {aligned : Horizon α σ} {found : Option Bool}

/-- The next cell is written. -/
theorem Aligning.next (h : Aligning primary secondary blank above n aligned found)
    {aligned' : Horizon α σ} {found' : Option Bool} (hg : aligned'.grid = aligned.grid)
    (hfill : aligned'.fill = aligned.fill) (hp : primary.values[n]? = some p)
    (hq : secondary.values[n]? = some q)
    (hvalues : aligned'.values = aligned.values.setIfInBounds n
      (if primary.isFill p || secondary.isFill q then blank else q))
    (hf : found' = none ∨ found' = some above)
    (hs : found' = none → found = none ∧ (primary.isFill p = false →
      secondary.isFill q = false → Sampled.same q p = true)) :
    Aligning primary secondary blank above (n + 1) aligned' found' := by
  refine ⟨hg.trans h.grid, hfill.trans h.fill, fun i hi p' q' hp' hq' => ?_, hf,
    fun hn i hi p' q' hp' hq' => ?_⟩
  · rw [hvalues, Array.getElem?_setIfInBounds]
    by_cases hni : n = i
    · subst hni
      cases hp.symm.trans hp'
      cases hq.symm.trans hq'
      obtain ⟨hsize, -⟩ := Array.getElem?_eq_some_iff.mp hp
      rw [if_pos rfl, if_pos]
      rwa [aligned.values_size, h.grid, ← primary.values_size]
    · rw [if_neg hni]
      exact h.value i (by omega) p' q' hp' hq'
  · obtain ⟨hfound, hsame⟩ := hs hn
    by_cases hni : n = i
    · subst hni
      cases hp.symm.trans hp'
      cases hq.symm.trans hq'
      exact hsame
    · exact h.same hfound i (by omega) p' q' hp' hq'

theorem Aligning.step (h : Aligning primary secondary blank above n aligned found)
    (hgrid : secondary.grid = primary.grid) (hr : primary.grid.RoundTrips)
    (ho : primary.Oriented secondary above) (hp : primary.valueAt n = .ok p)
    (hq : secondary.valueAt n = .ok q) :
    ∃ aligned' found', alignCell primary secondary (aligned, found) n = .ok (aligned', found') ∧
      Aligning primary secondary blank above (n + 1) aligned' found' := by
  have hp' := (valueAt_eq_ok.mp hp).2
  have hq' := (valueAt_eq_ok.mp hq).2
  obtain ⟨⟨row, col⟩, hrc, hp⟩ := bind_eq_ok.mp hp
  obtain ⟨⟨row', col'⟩, hrc', hq⟩ := bind_eq_ok.mp hq
  cases (hgrid ▸ hrc').symm.trans hrc
  have hset := exists_set (h := aligned) (h.grid ▸ hrc)
  unfold alignCell
  rw [hrc]
  simp only [ok_bind]
  rw [depths_eq hgrid hr hp hq, ok_bind]
  cases hlacks : primary.isFill p || secondary.isFill q with
  | true =>
    obtain ⟨aligned', hok, hg, hfill, hvalues⟩ := hset aligned.fill
    refine ⟨aligned', found, by rw [if_pos rfl]; dsimp only; rw [hok]; rfl, ?_⟩
    refine h.next hg hfill hp' hq' ?_ h.side fun hn => ⟨hn, fun hfp hfq => ?_⟩
    · rw [hvalues, hlacks, if_pos rfl, h.fill]
    · rw [hfp, hfq] at hlacks
      cases hlacks
  | false =>
    obtain ⟨hfp, hfq⟩ := Bool.or_eq_false_iff.mp hlacks
    obtain ⟨found', horient, hf, hsame⟩ :=
      exists_orient row col (ho n p q hp' hq' hfp hfq) h.side
    obtain ⟨aligned', hok, hg, hfill, hvalues⟩ := hset q
    refine ⟨aligned', found', ?_, h.next hg hfill hp' hq' ?_ hf fun hn => ?_⟩
    · rw [if_neg Bool.false_ne_true]
      dsimp only
      rw [horient, ok_bind, hok]
      rfl
    · rw [hvalues, hlacks, if_neg Bool.false_ne_true]
    · exact ⟨(hsame hn).1, fun _ _ => (hsame hn).2⟩

theorem exists_aligning {start : Horizon α σ} (hgrid : secondary.grid = primary.grid)
    (hstart : start.grid = primary.grid) (hsize : primary.size < countBound)
    (hr : primary.grid.RoundTrips) (ho : primary.Oriented secondary above)
    (hn : n ≤ primary.size) : ∃ aligned found,
      (List.range n).foldlM (alignCell primary secondary) (start, none) = .ok (aligned, found) ∧
        Aligning primary secondary start.fill above n aligned found := by
  induction n with
  | zero =>
    refine ⟨start, none, rfl, hstart, rfl, fun i hi => ?_, .inl rfl, fun _ i hi => ?_⟩
    · exact absurd hi i.not_lt_zero
    · exact absurd hi i.not_lt_zero
  | succ n ih =>
    obtain ⟨aligned, found, hfold, h⟩ := ih (by omega)
    have hcount : primary.grid.nrows * primary.grid.ncols < countBound := by
      rwa [← primary.values_size]
    have hn' : n < secondary.values.size := by
      rw [secondary.values_size, hgrid, ← primary.values_size]
      exact hn
    obtain ⟨aligned', found', hstep, h'⟩ := h.step hgrid hr ho
      (valueAt_eq_ok.mpr ⟨hcount, Array.getElem?_eq_getElem hn⟩)
      (valueAt_eq_ok.mpr ⟨hgrid ▸ hcount, Array.getElem?_eq_getElem hn'⟩)
    refine ⟨aligned', found', ?_, h'⟩
    rw [List.range_succ, List.foldlM_append, hfold, ok_bind, List.foldlM_cons, hstep]
    rfl

theorem align_of_planes (start : Horizon α σ) (hne : (primary.grid != start.grid) = true) :
    primary.align secondary start = .error .alignedPlane := by
  unfold align
  rw [hne, if_pos rfl]
  rfl

/-- Where the planes compare equal, aligning goes through the cells. -/
theorem align_eq {start : Horizon α σ} (hsame : (primary.grid != start.grid) = false) :
    primary.align secondary start =
      (do
        let (aligned, above) ←
          (List.range primary.size).foldlM (alignCell primary secondary) (start, none)
        return (aligned, above.getD true)) := by
  unfold align
  rw [hsame]
  rfl

/-- Horizons on one grid that do not cross are aligned.  The grid has to equal itself, which
it does unless it has an undefined number. -/
theorem exists_align (start : Horizon α σ) (hgrid : secondary.grid = primary.grid)
    (hstart : start.grid = primary.grid) (hsame : (primary.grid != start.grid) = false)
    (hsize : primary.size < countBound) (hr : primary.grid.RoundTrips)
    (ho : primary.Oriented secondary above) :
    ∃ aligned found, primary.align secondary start = .ok (aligned, found.getD true) ∧
      Aligning primary secondary start.fill above primary.size aligned found := by
  obtain ⟨aligned, found, hfold, h⟩ :=
    exists_aligning hgrid hstart hsize hr ho (Nat.le_refl primary.size)
  refine ⟨aligned, found, ?_, h⟩
  rw [align_eq hsame, hfold]
  rfl

end Horizon
end Seismic
