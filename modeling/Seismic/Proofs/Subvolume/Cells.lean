import Seismic.Proofs.Layout

/-!
# Cells of a laid-out subvolume

A laid-out subvolume has a window for each cell of its horizons.  A cell whose window is not
empty has data, and the window is the one that the spacing counts between its depths.
-/

namespace Seismic

namespace Layout

variable {α σ : Type} {l : Layout α σ} {index a b : Nat}

theorem isEmpty_of_offsets (ha : l.offsets[index]? = some a)
    (hb : l.offsets[index + 1]? = some b) : l.isEmpty index = .ok (a == b) := by
  obtain ⟨hi, rfl⟩ := Array.getElem?_eq_some_iff.mp hb
  obtain ⟨-, rfl⟩ := Array.getElem?_eq_some_iff.mp ha
  exact dif_pos hi

theorem range_of_offsets (ha : l.offsets[index]? = some a)
    (hb : l.offsets[index + 1]? = some b) : l.range index = .ok (a, b) := by
  obtain ⟨hi, rfl⟩ := Array.getElem?_eq_some_iff.mp hb
  obtain ⟨-, rfl⟩ := Array.getElem?_eq_some_iff.mp ha
  exact dif_pos hi

theorem exists_isEmpty (h : index < l.cells) : ∃ e, l.isEmpty index = .ok e := by
  unfold cells at h
  exact ⟨_, dif_pos (by omega)⟩

theorem lt_cells_of_isEmpty {e : Bool} (h : l.isEmpty index = .ok e) : index < l.cells := by
  unfold isEmpty at h
  unfold cells
  split_ifs at h
  omega

end Layout

namespace Covers

variable {α : Type} {sizeOf : Nat → Result α Nat} {n : Nat} {offsets : Array Nat}

theorem getElem?_last (h : Covers sizeOf n offsets) :
    offsets[n]? = some (offsets.back?.getD 0) := by
  have hn : n < offsets.size := by
    rw [h.size]
    exact Nat.lt_succ_self n
  rw [Array.back?, h.size, Nat.add_sub_cancel, Array.getElem?_eq_getElem hn]
  rfl

end Covers

variable {α σ : Type} [Scalar α] [Sampled σ α]

theorem Subvolume.between_eq_ok {survey : Survey α} {reference top bottom : Horizon α σ}
    {s : Subvolume α σ} (h : between survey reference top bottom = .ok s) :
    Layout.between survey reference top bottom = .ok s.layout ∧
      s.data.size = s.layout.total := by
  unfold between at h
  obtain ⟨l, hl, h⟩ := bind_eq_ok.mp h
  unfold ofLayout at h
  split_ifs at h
  cases h
  exact ⟨hl, Array.size_replicate⟩

namespace Layout

variable {survey : Survey α} {reference top bottom : Horizon α σ} {l : Layout α σ} {index : Nat}

theorem cells_eq (h : between survey reference top bottom = .ok l) : l.cells = reference.size := by
  obtain ⟨-, -, -, -, hc⟩ := between_eq_ok h
  rw [cells, hc.size, Nat.add_sub_cancel]

theorem bounds_of_hasData (h : between survey reference top bottom = .ok l) {bounds : Bounds α}
    (hdata : HasData survey reference top bottom index bounds) : l.bounds index = .ok bounds := by
  obtain ⟨hr, ht, hb, -, -⟩ := between_eq_ok h
  obtain ⟨r, t, b, hr', ht', hb', -, -, -, rfl⟩ := hdata.depths
  unfold Layout.bounds
  rw [hr, ht, hb, hr', ht', hb']
  rfl

/-- The window of a cell that is not empty, with the data it was laid out from. -/
theorem window_of_not_isEmpty (h : between survey reference top bottom = .ok l)
    (hi : index < l.cells) (he : l.isEmpty index = .ok false) :
    ∃ bounds first n, l.bounds index = .ok bounds ∧
      HasData survey reference top bottom index bounds ∧ FitsSurvey survey l.spacing bounds ∧
      l.spacing.count bounds.top bounds.bottom = .ok n ∧
      l.range index = .ok (first, first + n) := by
  obtain ⟨-, -, -, -, hc⟩ := between_eq_ok h
  obtain ⟨first, n, hn, ha, hb⟩ := hc.step index (cells_eq h ▸ hi)
  rcases windowSize_eq_ok hn with ⟨-, rfl⟩ | ⟨bounds, hdata, hfit, hcount⟩
  · rw [isEmpty_of_offsets ha hb, Nat.add_zero, beq_self_eq_true] at he
    cases he
  · exact ⟨bounds, first, n, bounds_of_hasData h hdata, hdata, hfit, hcount,
      range_of_offsets ha hb⟩

theorem fitsSurvey_of_not_isEmpty (h : between survey reference top bottom = .ok l)
    (hi : index < l.cells) (he : l.isEmpty index = .ok false) :
    ∃ bounds, l.bounds index = .ok bounds ∧ HasData survey reference top bottom index bounds ∧
      FitsSurvey survey l.spacing bounds := by
  obtain ⟨bounds, -, -, hb, hdata, hfit, -, -⟩ := window_of_not_isEmpty h hi he
  exact ⟨bounds, hb, hdata, hfit⟩

end Layout

namespace Subvolume

variable {s : Subvolume α σ} {index : Nat}

theorem exists_segment {survey : Survey α} {reference top bottom : Horizon α σ} {first n : Nat}
    (hl : Layout.between survey reference top bottom = .ok s.layout)
    (hdata : s.data.size = s.layout.total) (hi : index < s.layout.cells)
    (hr : s.layout.range index = .ok (first, first + n)) :
    ∃ xs, s.segment index = .ok xs ∧ xs.size = n := by
  obtain ⟨-, -, -, -, hc⟩ := Layout.between_eq_ok hl
  have hcells := Layout.cells_eq hl
  obtain ⟨a, k, -, ha, hb⟩ := hc.step index (hcells ▸ hi)
  have hrange := Except.ok.inj ((Layout.range_of_offsets ha hb).symm.trans hr)
  rw [Prod.mk.injEq] at hrange
  rw [hrange.2] at hb
  have hle := hc.mono (Nat.succ_le_of_lt (hcells ▸ hi)) (Nat.le_refl _)
  rw [Array.getD_eq_getD_getElem?, hb, Array.getD_eq_getD_getElem?, hc.getElem?_last] at hle
  have htotal : first + n ≤ s.data.size := by
    rw [hdata]
    exact hle
  refine ⟨_, bind_eq_ok.mpr ⟨_, hr, rfl⟩, ?_⟩
  rw [Array.size_extract]
  omega

omit [Scalar α] in
theorem size_rawSegment_le {raw : RawSegment α σ} (h : s.rawSegment index = .ok raw) :
    raw.values.size ≤ s.data.size := by
  unfold rawSegment segment at h
  obtain ⟨xs, hxs, h⟩ := bind_eq_ok.mp h
  obtain ⟨⟨a, b⟩, -, hxs⟩ := bind_eq_ok.mp hxs
  cases pure_eq_ok.mp hxs
  obtain ⟨bounds, -, h⟩ := bind_eq_ok.mp h
  cases pure_eq_ok.mp h
  rw [Array.size_extract]
  omega

end Subvolume
end Seismic
