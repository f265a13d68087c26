import Seismic.Proofs.Align

/-!
# Aligning horizons on any grids

On whatever grids two horizons are, aligning compares two depths at some of the cells: those
of the horizon and of the other one at its nearest cell.  The second of them is written to
the cell, and every other cell gets the fill value.  The first two depths that differ say
which horizon lies above, and if aligning succeeds, no later ones say otherwise.
-/

namespace Seismic
namespace Horizon

variable {α σ : Type} [Scalar α] [Sampled σ α]

/-- The depths that are compared at a cell of `primary`. -/
def Paired (primary secondary : Horizon α σ) (index : Nat) (p q : σ) : Prop :=
  ∃ row col, primary.grid.cellOf index = .ok (row, col) ∧
    primary.depths secondary row col = .ok (some (p, q))

variable {primary secondary aligned aligned' start : Horizon α σ} {found found' : Option Bool}
variable {above : Bool} {index row col n : Nat} {p q x blank : σ}

/-! ## One cell -/

theorem depthAt_eq_some {point : Point α} (h : secondary.depthAt point = .ok (some q)) :
    q ∈ secondary.values ∧ secondary.isFill q = false := by
  unfold depthAt at h
  dsimp only at h
  split_ifs at h
  · obtain ⟨value, hv, h⟩ := bind_eq_ok.mp h
    have h := pure_eq_ok.mp h
    split_ifs at h with hfill
    cases h
    refine ⟨?_, eq_false_of_ne_true hfill⟩
    unfold Horizon.value at hv
    split_ifs at hv
    cases hv
    exact Array.getElem_mem _
  · cases pure_eq_ok.mp h

theorem Paired.depths (h : Paired primary secondary index p q) :
    primary.values[index]? = some p ∧ primary.isFill p = false ∧ q ∈ secondary.values ∧
      secondary.isFill q = false := by
  obtain ⟨row, col, hrc, hd⟩ := h
  unfold Horizon.depths at hd
  obtain ⟨value, hv, hd⟩ := bind_eq_ok.mp hd
  split_ifs at hd with hfill
  · cases pure_eq_ok.mp hd
  · obtain ⟨point, -, hd⟩ := bind_eq_ok.mp hd
    obtain ⟨other, ho, hd⟩ := bind_eq_ok.mp hd
    cases other with
    | none => cases pure_eq_ok.mp hd
    | some other =>
      cases pure_eq_ok.mp hd
      have hat : primary.valueAt index = .ok p := bind_eq_ok.mpr ⟨(row, col), hrc, hv⟩
      exact ⟨(valueAt_eq_ok.mp hat).2, eq_false_of_ne_true hfill, depthAt_eq_some ho⟩

/-- Two depths are equal, or they differ the way that is known from then on. -/
theorem orient_eq_ok (h : orient found p q row col = .ok found') :
    (Sampled.same q p = true ∨ found' = some (decide (Sampled.widen p < Sampled.widen q))) ∧
      ∀ b, found = some b → found' = some b := by
  unfold orient at h
  by_cases hs : Sampled.same q p = true
  · rw [if_pos hs] at h
    cases h
    exact ⟨Or.inl hs, fun _ hb => hb⟩
  · rw [if_neg hs] at h
    dsimp only at h
    cases found with
    | none =>
      cases h
      exact ⟨Or.inr rfl, fun _ hb => nomatch hb⟩
    | some there =>
      dsimp only at h
      split_ifs at h with hhere
      cases h
      exact ⟨Or.inr (by rw [hhere]), fun _ hb => hb⟩

/-! ## All cells -/

/-- What aligning has done after the cells below `n`. -/
structure Scanned (primary secondary : Horizon α σ) (blank : σ) (n : Nat) (aligned : Horizon α σ)
    (found : Option Bool) : Prop where
  cells : ∀ i, aligned.grid.cellOf i = primary.grid.cellOf i
  fill : aligned.fill = blank
  unpaired : ∀ i < n, (∀ p q, ¬ Paired primary secondary i p q) → aligned.values[i]? = some blank
  paired : ∀ i < n, ∀ p q, Paired primary secondary i p q → aligned.values[i]? = some q ∧
    (Sampled.same q p = true ∨ found = some (decide (Sampled.widen p < Sampled.widen q)))

/-- The next cell is written. -/
theorem Scanned.next (h : Scanned primary secondary blank n aligned found)
    (hg : aligned'.grid = aligned.grid) (hf : aligned'.fill = aligned.fill)
    (hn : n < aligned.values.size) (hvalues : aligned'.values = aligned.values.setIfInBounds n x)
    (hkeep : ∀ b, found = some b → found' = some b)
    (hun : (∀ p q, ¬ Paired primary secondary n p q) → x = blank)
    (hpair : ∀ p q, Paired primary secondary n p q → x = q ∧
      (Sampled.same q p = true ∨ found' = some (decide (Sampled.widen p < Sampled.widen q)))) :
    Scanned primary secondary blank (n + 1) aligned' found' := by
  have hat : aligned'.values[n]? = some x := by
    rw [hvalues, Array.getElem?_setIfInBounds_self, if_pos hn]
  have hold : ∀ i < n, aligned'.values[i]? = aligned.values[i]? := fun i hi => by
    rw [hvalues, Array.getElem?_setIfInBounds_ne (by omega)]
  refine ⟨fun i => by rw [hg, h.cells i], hf.trans h.fill, fun i hi hne => ?_,
    fun i hi p q hp => ?_⟩
  · rcases Nat.lt_succ_iff_lt_or_eq.mp hi with hlt | rfl
    · rw [hold i hlt, h.unpaired i hlt hne]
    · rw [hat, hun hne]
  · rcases Nat.lt_succ_iff_lt_or_eq.mp hi with hlt | rfl
    · obtain ⟨hq, hcases⟩ := h.paired i hlt p q hp
      exact ⟨(hold i hlt).trans hq, hcases.imp_right (hkeep _)⟩
    · obtain ⟨rfl, hcases⟩ := hpair p q hp
      exact ⟨hat, hcases⟩

theorem Scanned.step (h : Scanned primary secondary blank n aligned found)
    (hs : alignCell primary secondary (aligned, found) n = .ok (aligned', found')) :
    Scanned primary secondary blank (n + 1) aligned' found' := by
  unfold alignCell at hs
  obtain ⟨⟨row, col⟩, hrc, hs⟩ := bind_eq_ok.mp hs
  obtain ⟨d, hd, hs⟩ := bind_eq_ok.mp hs
  have hcell := (h.cells n).trans hrc
  have hn : n < aligned.values.size := by
    rw [aligned.values_size]
    exact (BoundedGrid.cellOf_eq_ok.mp hcell).2.1
  have hset := fun y => exists_set (h := aligned) hcell y
  -- What is paired at the cell is what was found there.
  have hpaired : ∀ p q, Paired primary secondary n p q → d = some (p, q) := by
    rintro p q ⟨row', col', hrc', hd'⟩
    cases hrc.symm.trans hrc'
    cases hd.symm.trans hd'
    rfl
  cases d with
  | none =>
    obtain ⟨written, hw, hs⟩ := bind_eq_ok.mp hs
    cases pure_eq_ok.mp hs
    obtain ⟨_, hok, hg, hf, hvalues⟩ := hset aligned.fill
    cases hw.symm.trans hok
    exact h.next hg hf hn hvalues (fun _ hb => hb) (fun _ => h.fill)
      fun p q hp => nomatch hpaired p q hp
  | some d =>
    obtain ⟨p, q⟩ := d
    obtain ⟨found₁, ho, hs⟩ := bind_eq_ok.mp hs
    obtain ⟨written, hw, hs⟩ := bind_eq_ok.mp hs
    cases pure_eq_ok.mp hs
    obtain ⟨_, hok, hg, hf, hvalues⟩ := hset q
    cases hw.symm.trans hok
    obtain ⟨hcases, hkeep⟩ := orient_eq_ok ho
    refine h.next hg hf hn hvalues hkeep (fun hne => ?_) fun p' q' hp => ?_
    · exact absurd ⟨row, col, hrc, hd⟩ (hne p q)
    · cases hpaired p' q' hp
      exact ⟨rfl, hcases⟩

theorem scanned_of_foldlM (hstart : ∀ i, start.grid.cellOf i = primary.grid.cellOf i)
    (h : (List.range n).foldlM (alignCell primary secondary) (start, none) =
      .ok (aligned, found)) : Scanned primary secondary start.fill n aligned found := by
  induction n generalizing aligned found with
  | zero =>
    cases pure_eq_ok.mp h
    exact ⟨hstart, rfl, fun i hi => absurd hi i.not_lt_zero, fun i hi => absurd hi i.not_lt_zero⟩
  | succ n ih =>
    rw [List.range_succ, List.foldlM_append] at h
    obtain ⟨⟨before, seen⟩, hb, h⟩ := bind_eq_ok.mp h
    rw [List.foldlM_cons] at h
    obtain ⟨⟨after, told⟩, ha, h⟩ := bind_eq_ok.mp h
    cases pure_eq_ok.mp h
    exact (ih hb).step ha

theorem align_eq_ok (hstart : start.grid = primary.grid)
    (h : primary.align secondary start = .ok (aligned, above)) :
    ∃ found, above = found.getD true ∧
      Scanned primary secondary start.fill primary.size aligned found := by
  unfold align at h
  obtain ⟨-, h⟩ := check_eq_ok.mp h
  obtain ⟨⟨aligned', found⟩, hfold, h⟩ := bind_eq_ok.mp h
  cases pure_eq_ok.mp h
  exact ⟨found, rfl, scanned_of_foldlM (fun i => by rw [hstart]) hfold⟩

end Horizon
end Seismic
