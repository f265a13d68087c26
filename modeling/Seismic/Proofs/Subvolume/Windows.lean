import Seismic.Proofs.Subvolume.Cells
import Seismic.Proofs.Subvolume.Overwrite

/-!
# Windows of a subvolume

The windows of a laid-out subvolume follow one another from its first sample to its last.  So
they do not overlap, a write to one cell leaves the samples of every other cell as they are,
and the samples of the cells together are all samples.
-/

namespace Seismic

variable {α σ : Type}

namespace Layout

/-- Where the window of a cell begins, which is where that of the cell before it ends. -/
def start (l : Layout α σ) (index : Nat) : Nat := l.offsets.getD index 0

/-- Windows do not begin before earlier ones. -/
def Ordered (l : Layout α σ) : Prop :=
  ∀ i j, i ≤ j → j ≤ l.cells → l.offsets.getD i 0 ≤ l.offsets.getD j 0

/-- Windows follow one another, and the first one begins with the first sample. -/
structure Contiguous (l : Layout α σ) : Prop where
  first : l.start 0 = 0
  ordered : l.Ordered

variable {l : Layout α σ} {index i j : Nat}

theorem Ordered.start_le (h : l.Ordered) (hij : i ≤ j) (hj : j ≤ l.cells) :
    l.start i ≤ l.start j := h i j hij hj

theorem getElem?_offsets (h : index < l.offsets.size) : l.offsets[index]? = some (l.start index) := by
  rw [start, Array.getD_eq_getD_getElem?, Array.getElem?_eq_getElem h]
  rfl

theorem range_eq (h : index < l.cells) :
    l.range index = .ok (l.start index, l.start (index + 1)) := by
  unfold cells at h
  exact range_of_offsets (getElem?_offsets (by omega)) (getElem?_offsets (by omega))

theorem isEmpty_eq (h : index < l.cells) :
    l.isEmpty index = .ok (l.start index == l.start (index + 1)) := by
  unfold cells at h
  exact isEmpty_of_offsets (getElem?_offsets (by omega)) (getElem?_offsets (by omega))

theorem range_eq_ok {a b : Nat} : l.range index = .ok (a, b) ↔
    index < l.cells ∧ a = l.start index ∧ b = l.start (index + 1) := by
  constructor
  · intro h
    have hi : index < l.cells := by
      unfold range at h
      unfold cells
      split_ifs at h
      omega
    rw [range_eq hi] at h
    cases h
    exact ⟨hi, rfl, rfl⟩
  · rintro ⟨hi, rfl, rfl⟩
    exact range_eq hi

/-- The windows of different cells do not overlap. -/
theorem Ordered.disjoint (h : l.Ordered) (hne : i ≠ j) (hi : i < l.cells) (hj : j < l.cells) :
    l.start (i + 1) ≤ l.start j ∨ l.start (j + 1) ≤ l.start i := by
  rcases Nat.lt_or_gt_of_ne hne with hlt | hgt
  · exact Or.inl (h.start_le hlt (Nat.le_of_lt hj))
  · exact Or.inr (h.start_le hgt (Nat.le_of_lt hi))

/-- Every sample before the end of a window is in that window or in an earlier one. -/
theorem Contiguous.exists_window (h : l.Contiguous) {n x : Nat} (hx : x < l.start n) :
    ∃ i < n, l.start i ≤ x ∧ x < l.start (i + 1) := by
  induction n with
  | zero =>
    rw [h.first] at hx
    exact absurd hx (Nat.not_lt_zero x)
  | succ n ih =>
    rcases Nat.lt_or_ge x (l.start n) with hlt | hge
    · obtain ⟨i, hi, hx⟩ := ih hlt
      exact ⟨i, Nat.lt_succ_of_lt hi, hx⟩
    · exact ⟨n, Nat.lt_succ_self n, hge, hx⟩

section Between

variable [Scalar α] [Sampled σ α] {survey : Survey α} {reference top bottom : Horizon α σ}

theorem ordered_of_between (h : between survey reference top bottom = .ok l) : l.Ordered := by
  have hcells := cells_eq h
  obtain ⟨-, -, -, -, hc⟩ := between_eq_ok h
  intro i j hij hj
  exact hc.mono hij (hcells ▸ hj)

theorem total_eq (h : between survey reference top bottom = .ok l) :
    l.total = l.offsets.getD l.cells 0 := by
  have hcells := cells_eq h
  obtain ⟨-, -, -, -, hc⟩ := between_eq_ok h
  have hlast : l.offsets[reference.size]? = some l.total := hc.getElem?_last
  rw [hcells, Array.getD_eq_getD_getElem?, hlast]
  rfl

theorem contiguous_of_between (h : between survey reference top bottom = .ok l) :
    l.Contiguous := by
  obtain ⟨-, -, -, -, hc⟩ := between_eq_ok h
  refine ⟨?_, ordered_of_between h⟩
  rw [start, Array.getD_eq_getD_getElem?, hc.first]
  rfl

end Between
end Layout

/-! ## The samples of cells -/

namespace Subvolume

variable {s s' : Subvolume α σ} {index i j : Nat} {zs : List σ}

/-- The samples of a subvolume are those of its windows. -/
structure LaidOut (s : Subvolume α σ) : Prop where
  contiguous : s.layout.Contiguous
  size : s.data.size = s.layout.start s.layout.cells

theorem laidOut_of_between [Scalar α] [Sampled σ α] {survey : Survey α}
    {reference top bottom : Horizon α σ}
    (hl : Layout.between survey reference top bottom = .ok s.layout)
    (hdata : s.data.size = s.layout.total) : s.LaidOut :=
  ⟨Layout.contiguous_of_between hl, hdata.trans (Layout.total_eq hl)⟩

theorem LaidOut.start_le_size (h : s.LaidOut) (hi : i ≤ s.layout.cells) :
    s.layout.start i ≤ s.data.size := by
  rw [h.size]
  exact h.contiguous.ordered.start_le hi (Nat.le_refl _)

theorem segment_eq (h : index < s.layout.cells) :
    s.segment index =
      .ok (s.data.extract (s.layout.start index) (s.layout.start (index + 1))) := by
  unfold segment
  rw [Layout.range_eq h]
  rfl

theorem LaidOut.size_segment (h : s.LaidOut) (hi : index < s.layout.cells) {xs : Array σ}
    (hx : s.segment index = .ok xs) :
    xs.size = s.layout.start (index + 1) - s.layout.start index := by
  rw [segment_eq hi] at hx
  cases hx
  rw [Array.size_extract, Nat.min_eq_left (h.start_le_size hi)]

theorem write_eq (h : index < s.layout.cells) :
    s.write index zs = .ok { s with
      data := overwrite s.data (s.layout.start index)
        (zs.take (s.layout.start (index + 1) - s.layout.start index)) } := by
  unfold write
  rw [Layout.range_eq h]
  rfl

/-- Subvolumes with the same samples in every cell have the same samples. -/
theorem LaidOut.data_eq (h : s.LaidOut) (h' : s'.LaidOut) (hl : s'.layout = s.layout)
    (hs : ∀ i < s.layout.cells, s'.segment i = s.segment i) : s'.data = s.data := by
  have hsize : s'.data.size = s.data.size := by rw [h'.size, h.size, hl]
  apply Array.ext_getElem?
  intro x
  rcases Nat.lt_or_ge x s.data.size with hx | hx
  · obtain ⟨i, hi, hle, hlt⟩ := h.contiguous.exists_window (h.size ▸ hx)
    have heq := hs i hi
    rw [segment_eq (hl ▸ hi), segment_eq hi, hl] at heq
    have hend := h.start_le_size (Nat.succ_le_of_lt hi)
    have hx' := congrArg (fun xs : Array σ => xs[x - s.layout.start i]?) (Except.ok.inj heq)
    simp only [Array.getElem?_extract, hsize] at hx'
    rwa [if_pos (by omega), if_pos (by omega), Nat.add_sub_cancel' hle] at hx'
  · rw [Array.getElem?_eq_none hx, Array.getElem?_eq_none (by omega)]

end Subvolume

end Seismic
