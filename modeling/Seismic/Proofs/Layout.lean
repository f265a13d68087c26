import Seismic.Proofs.Horizon
import Seismic.Subvolume.Basic

/-!
# Layouts

The offset table of a layout is the running sum of the sizes of the windows.  The window of a
cell is empty if the cell has no data.  Otherwise the horizons are ordered there, the window
lies within the survey, and its size is the number of samples between its boundaries.
-/

namespace Seismic

variable {α σ : Type}

/-- The offsets of the windows of the first `n` cells, whose sizes are given. -/
structure Covers (sizeOf : Nat → Result α Nat) (n : Nat) (offsets : Array Nat) : Prop where
  size : offsets.size = n + 1
  first : offsets[0]? = some 0
  step : ∀ i < n, ∃ a k, sizeOf i = .ok k ∧ offsets[i]? = some a ∧ offsets[i + 1]? = some (a + k)

namespace Covers

variable {sizeOf : Nat → Result α Nat} {n : Nat} {offsets : Array Nat}

theorem start : Covers sizeOf 0 #[0] where
  size := rfl
  first := rfl
  step i hi := absurd hi (Nat.not_lt_zero i)

theorem extend {offsets' : Array Nat} {k : Nat} (h : Covers sizeOf n offsets)
    (hk : sizeOf n = .ok k) (he : (Layout.extend offsets k : Result α _) = .ok offsets') :
    Covers sizeOf (n + 1) offsets' := by
  obtain ⟨last, hlast⟩ : ∃ last, offsets[n]? = some last :=
    ⟨_, Array.getElem?_eq_getElem (by rw [h.size]; exact Nat.lt_succ_self n)⟩
  have hback : offsets.back?.getD 0 = last := by
    rw [Array.back?, h.size, Nat.add_sub_cancel, hlast]
    rfl
  unfold Layout.extend at he
  obtain ⟨sum, hs, he⟩ := bind_eq_ok.mp he
  obtain ⟨-, rfl⟩ := addCounts_eq_ok.mp hs
  cases pure_eq_ok.mp he
  rw [hback]
  have hold : ∀ i < n + 1, (offsets.push (last + k))[i]? = offsets[i]? := by
    intro i hi
    rw [Array.getElem?_push, if_neg (by rw [h.size]; omega)]
  refine ⟨by rw [Array.size_push, h.size], ?_, ?_⟩
  · rw [hold 0 (Nat.succ_pos n)]
    exact h.first
  · intro i hi
    rcases Nat.lt_succ_iff_lt_or_eq.mp hi with hlt | rfl
    · obtain ⟨a, m, hm, ha, ha'⟩ := h.step i hlt
      exact ⟨a, m, hm, by rw [hold i (by omega), ha], by rw [hold (i + 1) (by omega), ha']⟩
    · refine ⟨last, k, hk, by rw [hold i (Nat.lt_succ_self i), hlast], ?_⟩
      rw [Array.getElem?_push, if_pos h.size.symm]

theorem of_foldlM (h : (List.range n).foldlM (fun offsets index => do
    Layout.extend offsets (← sizeOf index)) #[0] = .ok offsets) :
    Covers sizeOf n offsets := by
  induction n generalizing offsets with
  | zero =>
    cases pure_eq_ok.mp h
    exact start
  | succ n ih =>
    rw [List.range_succ, List.foldlM_append] at h
    obtain ⟨before, hb, h⟩ := bind_eq_ok.mp h
    rw [List.foldlM_cons] at h
    obtain ⟨after, ha, h⟩ := bind_eq_ok.mp h
    obtain ⟨k, hk, he⟩ := bind_eq_ok.mp ha
    cases pure_eq_ok.mp h
    exact (ih hb).extend hk he

theorem mono (h : Covers sizeOf n offsets) {i j : Nat} (hij : i ≤ j) (hj : j ≤ n) :
    offsets.getD i 0 ≤ offsets.getD j 0 := by
  induction j with
  | zero =>
    obtain rfl := Nat.le_zero.mp hij
    exact Nat.le_refl _
  | succ j ih =>
    rcases Nat.le_succ_iff.mp hij with hle | rfl
    · obtain ⟨a, k, -, ha, ha'⟩ := h.step j (Nat.lt_of_succ_le hj)
      have hs := ih hle (Nat.le_of_succ_le hj)
      rw [Array.getD_eq_getD_getElem?, Array.getD_eq_getD_getElem?, ha] at hs
      rw [Array.getD_eq_getD_getElem?, Array.getD_eq_getD_getElem?, ha']
      exact Nat.le_trans hs (Nat.le_add_right a k)
    · exact Nat.le_refl _

end Covers

namespace Layout

variable [Scalar α] [Sampled σ α]

/-! ## Windows of single cells -/

/-- A cell has data: every horizon has a depth there, and the survey a trace. -/
structure HasData (survey : Survey α) (reference top bottom : Horizon α σ) (index : Nat)
    (bounds : Bounds α) : Prop where
  depths : ∃ r t b, reference.valueAt index = .ok r ∧ top.valueAt index = .ok t ∧
    bottom.valueAt index = .ok b ∧ reference.isFill r = false ∧ top.isFill t = false ∧
    bottom.isFill b = false ∧ bounds = ⟨Sampled.widen r, Sampled.widen t, Sampled.widen b⟩
  trace : ∃ world, reference.cellToWorld index = .ok world ∧
    survey.holdsTrace (survey.transformer.indexOfWorld world) = true

theorem HasData.unique {survey : Survey α} {reference top bottom : Horizon α σ} {index : Nat}
    {bounds bounds' : Bounds α} (h : HasData survey reference top bottom index bounds)
    (h' : HasData survey reference top bottom index bounds') : bounds = bounds' := by
  obtain ⟨r, t, b, hr, ht, hb, -, -, -, rfl⟩ := h.depths
  obtain ⟨r', t', b', hr', ht', hb', -, -, -, rfl⟩ := h'.depths
  cases hr.symm.trans hr'
  cases ht.symm.trans ht'
  cases hb.symm.trans hb'
  rfl

/-- A cell without data: it lies on all horizons, but one of them has no depth there, or the
survey has no trace. -/
def LacksData (survey : Survey α) (reference top bottom : Horizon α σ) (index : Nat) : Prop :=
  ∃ r t b world, reference.valueAt index = .ok r ∧ top.valueAt index = .ok t ∧
    bottom.valueAt index = .ok b ∧ reference.cellToWorld index = .ok world ∧
    (reference.isFill r = true ∨ top.isFill t = true ∨ bottom.isFill b = true ∨
      survey.holdsTrace (survey.transformer.indexOfWorld world) = false)

/-- The boundaries of a window are ordered, and the window lies within the survey. -/
structure FitsSurvey (survey : Survey α) (spacing : RawSpacing α) (bounds : Bounds α) : Prop where
  top_le : bounds.top ≤ bounds.reference
  le_bottom : bounds.reference ≤ bounds.bottom
  samples : ∃ first last, spacing.topSample bounds.top = .ok first ∧
    spacing.bottomSample bounds.bottom = .ok last ∧
    ¬ first < survey.sample.first - Tolerance.width ∧
    ¬ survey.sample.last + Tolerance.width < last

theorem windowSize_eq_ok {survey : Survey α} {reference top bottom : Horizon α σ}
    {spacing : RawSpacing α} {index n : Nat}
    (h : windowSize survey reference top bottom spacing index = .ok n) :
    (LacksData survey reference top bottom index ∧ n = 0) ∨
      ∃ bounds, HasData survey reference top bottom index bounds ∧
        FitsSurvey survey spacing bounds ∧ spacing.count bounds.top bounds.bottom = .ok n := by
  unfold windowSize at h
  obtain ⟨r, hr, h⟩ := bind_eq_ok.mp h
  obtain ⟨t, ht, h⟩ := bind_eq_ok.mp h
  obtain ⟨b, hb, h⟩ := bind_eq_ok.mp h
  obtain ⟨world, hw⟩ := Horizon.cellToWorld_of_valueAt hr
  by_cases hfill : (reference.isFill r || top.isFill t || bottom.isFill b) = true
  · rw [if_pos hfill] at h
    refine Or.inl ⟨⟨r, t, b, world, hr, ht, hb, hw, ?_⟩, (pure_eq_ok.mp h).symm⟩
    simp only [Bool.or_eq_true, or_assoc] at hfill
    rcases hfill with hf | hf | hf <;> simp [hf]
  · rw [if_neg hfill] at h
    obtain ⟨⟨row, col⟩, -, h⟩ := bind_eq_ok.mp h
    dsimp only at h
    obtain ⟨hord, h⟩ := check_eq_ok.mp h
    obtain ⟨world', hw', h⟩ := bind_eq_ok.mp h
    cases hw.symm.trans hw'
    simp only [Bool.or_eq_true, not_or, Bool.not_eq_true] at hfill
    obtain ⟨⟨hfr, hft⟩, hfb⟩ := hfill
    by_cases htrace : survey.holdsTrace (survey.transformer.indexOfWorld world) = true
    · rw [htrace, Bool.not_true, if_neg Bool.false_ne_true] at h
      obtain ⟨first, hf, h⟩ := bind_eq_ok.mp h
      obtain ⟨last, hl, h⟩ := bind_eq_ok.mp h
      obtain ⟨hin, h⟩ := check_eq_ok.mp h
      rw [not_or] at hin
      rw [Classical.not_not] at hord
      exact Or.inr ⟨⟨Sampled.widen r, Sampled.widen t, Sampled.widen b⟩,
        ⟨⟨r, t, b, hr, ht, hb, hfr, hft, hfb, rfl⟩, world, hw, htrace⟩,
        ⟨hord.1, hord.2, first, last, hf, hl, hin.1, hin.2⟩, h⟩
    · rw [Bool.not_eq_true] at htrace
      rw [htrace, Bool.not_false, if_pos rfl] at h
      refine Or.inl ⟨⟨r, t, b, world, hr, ht, hb, hw, ?_⟩, (pure_eq_ok.mp h).symm⟩
      exact Or.inr (Or.inr (Or.inr htrace))

/-! ## All windows -/

theorem between_eq_ok {survey : Survey α} {reference top bottom : Horizon α σ} {l : Layout α σ}
    (h : between survey reference top bottom = .ok l) :
    l.reference = reference ∧ l.top = top ∧ l.bottom = bottom ∧
      RawSpacing.through survey.sample.step survey.sample.first = .ok l.spacing ∧
      Covers (windowSize survey reference top bottom l.spacing) reference.size l.offsets := by
  unfold between at h
  dsimp only at h
  obtain ⟨-, h⟩ := check_eq_ok.mp h
  obtain ⟨-, h⟩ := check_eq_ok.mp h
  obtain ⟨spacing, hs, h⟩ := bind_eq_ok.mp h
  obtain ⟨offsets, ho, h⟩ := bind_eq_ok.mp h
  cases pure_eq_ok.mp h
  exact ⟨rfl, rfl, rfl, hs, Covers.of_foldlM ho⟩

end Layout
end Seismic
