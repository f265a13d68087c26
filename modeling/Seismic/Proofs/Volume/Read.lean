import Seismic.Proofs.Result
import Seismic.Volume.Fetch

/-!
# Reading boxes

A box can be read if it lies within the volume and if the buffer is as large as the box.  So
a run of samples of a trace can be read just where the trace is in the volume and the run
ends on the sample axis.
-/

namespace Seismic

variable {α σ : Type}

/-- A survey whose numbers of lines and samples are 64-bit counts. -/
structure Survey.Counted (s : Survey α) : Prop where
  iline : s.iline.nsamples < countBound
  xline : s.xline.nsamples < countBound
  sample : s.sample.nsamples < countBound

theorem Box.between_eq_ok {lower upper : Extent} {b : Box} :
    (Box.between lower upper : Result α Box) = .ok b ↔ b.lower = lower ∧ b.upper = upper := by
  unfold Box.between
  split_ifs with h
  · constructor
    · intro he
      cases he
      exact ⟨rfl, rfl⟩
    · rintro ⟨rfl, rfl⟩
      rfl
  · refine ⟨fun he => (nomatch he), ?_⟩
    rintro ⟨rfl, rfl⟩
    exact absurd ⟨b.inline_lt, b.crossline_lt, b.sample_lt⟩ h

theorem Box.lt_of_mem_indices {b : Box} {e : Extent} (h : e ∈ b.indices) :
    e.inline < b.upper.inline ∧ e.crossline < b.upper.crossline ∧ e.sample < b.upper.sample := by
  obtain ⟨i, hi, h⟩ := List.mem_flatMap.mp h
  obtain ⟨j, hj, h⟩ := List.mem_flatMap.mp h
  obtain ⟨k, hk, rfl⟩ := List.mem_map.mp h
  have h₁ := b.inline_lt
  have h₂ := b.crossline_lt
  have h₃ := b.sample_lt
  rw [List.mem_range'_1] at hi hj hk
  unfold Box.shape at hi hj hk
  dsimp only at hi hj hk ⊢
  omega

theorem Box.fits_iff {b : Box} {shape : Extent} : b.fits shape = true ↔
    b.upper.inline ≤ shape.inline ∧ b.upper.crossline ≤ shape.crossline ∧
      b.upper.sample ≤ shape.sample := by
  unfold Box.fits
  simp only [Bool.and_eq_true, decide_eq_true_iff, and_assoc]

/-- The number of samples of a box is found if it is a 64-bit count. -/
theorem Box.count_eq_ok {b : Box} {n : Nat} : (b.count : Result α Nat) = .ok n ↔
    b.shape.count < countBound ∧ n = b.shape.count := by
  have hpos : 0 < b.shape.sample := Nat.sub_pos_of_lt b.sample_lt
  have hle : b.shape.inline * b.shape.crossline ≤ b.shape.count := Nat.le_mul_of_pos_right _ hpos
  unfold count
  rw [bind_eq_ok]
  constructor
  · rintro ⟨m, hm, hn⟩
    obtain ⟨-, rfl⟩ := mulCounts_eq_ok.mp hm
    exact mulCounts_eq_ok.mp hn
  · rintro ⟨hlt, hn⟩
    exact ⟨_, mulCounts_eq_ok.mpr ⟨by omega, rfl⟩, mulCounts_eq_ok.mpr ⟨hlt, hn⟩⟩

namespace Volume

variable {v : Volume α σ}

/-- The samples of a trace are samples of the volume. -/
theorem traceStart_add_le {i j : Nat} (hi : i < v.shape.inline) (hj : j < v.shape.crossline) :
    v.traceStart i j + v.shape.sample ≤ v.values.size := by
  have hrow : i * v.shape.crossline + j + 1 ≤ v.shape.inline * v.shape.crossline := by
    calc i * v.shape.crossline + j + 1
        ≤ (i + 1) * v.shape.crossline := by rw [Nat.succ_mul]; omega
      _ ≤ v.shape.inline * v.shape.crossline := Nat.mul_le_mul_right _ hi
  calc v.traceStart i j + v.shape.sample
      = (i * v.shape.crossline + j + 1) * v.shape.sample := (Nat.succ_mul _ _).symm
    _ ≤ v.shape.inline * v.shape.crossline * v.shape.sample := Nat.mul_le_mul_right _ hrow
    _ = v.values.size := v.values_size.symm

theorem exists_sampleAt {e : Extent} (hi : e.inline < v.shape.inline)
    (hj : e.crossline < v.shape.crossline) (hk : e.sample < v.shape.sample) :
    ∃ s, v.sampleAt e = .ok s := by
  have hlt : v.traceStart e.inline e.crossline + e.sample < v.values.size :=
    Nat.lt_of_lt_of_le (Nat.add_lt_add_left hk _) (traceStart_add_le hi hj)
  unfold sampleAt
  rw [if_pos ⟨hi, hj, hk⟩, Array.getElem?_eq_getElem hlt]
  exact ⟨_, rfl⟩

/-- The samples of a box that fits are all there. -/
theorem exists_samples {b : Box} (h : b.fits v.shape = true) :
    ∃ samples, b.indices.mapM v.sampleAt = .ok samples := by
  obtain ⟨f₁, f₂, f₃⟩ := Box.fits_iff.mp h
  refine exists_mapM_eq_ok.mpr fun e he => ?_
  obtain ⟨h₁, h₂, h₃⟩ := Box.lt_of_mem_indices he
  exact exists_sampleAt (Nat.lt_of_lt_of_le h₁ f₁) (Nat.lt_of_lt_of_le h₂ f₂)
    (Nat.lt_of_lt_of_le h₃ f₃)

theorem exists_read {buffer : Array σ} {b : Box} : (∃ xs, v.read buffer b = .ok xs) ↔
    b.fits v.shape = true ∧ (b.count : Result α Nat) = .ok buffer.size := by
  unfold read
  constructor
  · rintro ⟨xs, h⟩
    obtain ⟨hfits, h⟩ := check_eq_ok.mp h
    obtain ⟨n, hn, h⟩ := bind_eq_ok.mp h
    obtain ⟨hsize, -⟩ := check_eq_ok.mp h
    rw [Bool.not_eq_true, Bool.not_eq_false'] at hfits
    exact ⟨hfits, by rw [hn, not_not.mp hsize]⟩
  · rintro ⟨hfits, hn⟩
    obtain ⟨samples, hs⟩ := exists_samples hfits
    refine ⟨overwrite buffer 0 samples, ?_⟩
    rw [hfits, hn, ok_bind, hs]
    simp only [Bool.not_true, Bool.false_eq_true, if_false, ne_eq, not_true]
    rfl

theorem traceBox_eq_ok {inline crossline first count : Nat} {b : Box} :
    (traceBox inline crossline first count : Result α Box) = .ok b ↔
      inline + 1 < countBound ∧ crossline + 1 < countBound ∧ first + count < countBound ∧
      b.lower = ⟨inline, crossline, first⟩ ∧
      b.upper = ⟨inline + 1, crossline + 1, first + count⟩ := by
  unfold traceBox
  simp only [bind_eq_ok, addCounts_eq_ok, Box.between_eq_ok]
  constructor
  · rintro ⟨_, ⟨h₁, rfl⟩, _, ⟨h₂, rfl⟩, _, ⟨h₃, rfl⟩, hl, hu⟩
    exact ⟨h₁, h₂, h₃, hl, hu⟩
  · rintro ⟨h₁, h₂, h₃, hl, hu⟩
    exact ⟨_, ⟨h₁, rfl⟩, _, ⟨h₂, rfl⟩, _, ⟨h₃, rfl⟩, hl, hu⟩

theorem exists_readTrace (hc : v.survey.Counted) {inline crossline first : Nat}
    {buffer : Array σ} (h0 : 0 < buffer.size) :
    (∃ xs, (do v.read buffer (← traceBox inline crossline first buffer.size)) = .ok xs) ↔
      inline < v.survey.iline.nsamples ∧ crossline < v.survey.xline.nsamples ∧
      first + buffer.size ≤ v.survey.sample.nsamples := by
  have hshape : v.shape = ⟨v.survey.iline.nsamples, v.survey.xline.nsamples,
    v.survey.sample.nsamples⟩ := rfl
  constructor
  · rintro ⟨xs, h⟩
    obtain ⟨b, hb, h⟩ := bind_eq_ok.mp h
    obtain ⟨-, -, -, -, hu⟩ := traceBox_eq_ok.mp hb
    obtain ⟨h₁, h₂, h₃⟩ := Box.fits_iff.mp (exists_read.mp ⟨xs, h⟩).1
    rw [hu, hshape] at h₁ h₂ h₃
    exact ⟨h₁, h₂, h₃⟩
  · rintro ⟨h₁, h₂, h₃⟩
    obtain ⟨hi, hj, hk⟩ := hc
    obtain ⟨b, hl, hu⟩ : ∃ b : Box, b.lower = ⟨inline, crossline, first⟩ ∧
        b.upper = ⟨inline + 1, crossline + 1, first + buffer.size⟩ :=
      ⟨⟨⟨inline, crossline, first⟩, ⟨inline + 1, crossline + 1, first + buffer.size⟩,
        Nat.lt_succ_self _, Nat.lt_succ_self _, Nat.lt_add_of_pos_right h0⟩, rfl, rfl⟩
    have hfits : b.fits v.shape = true := by
      rw [Box.fits_iff, hu, hshape]
      exact ⟨h₁, h₂, h₃⟩
    have hcount : (b.count : Result α Nat) = .ok buffer.size := by
      have hb : b.shape = ⟨1, 1, buffer.size⟩ := by
        unfold Box.shape
        rw [hl, hu]
        simp only [Nat.add_sub_cancel_left]
      have hn : b.shape.count = buffer.size := by
        rw [hb]
        exact Nat.one_mul _
      exact Box.count_eq_ok.mpr ⟨by omega, hn.symm⟩
    obtain ⟨xs, hxs⟩ := exists_read.mpr ⟨hfits, hcount⟩
    exact ⟨xs, bind_eq_ok.mpr ⟨b, traceBox_eq_ok.mpr
      ⟨by omega, by omega, by omega, hl, hu⟩, hxs⟩⟩

end Volume
end Seismic
