import Seismic.Proofs.Volume.Slice

/-!
# Reading boxes in place

A box is read into memory that belongs to the caller, sample by sample, as far as the box and the
buffer reach.  What fails between two samples would leave a buffer that is partly overwritten, but
nothing does: the box is checked before, and then all of its samples are there.  So the buffer
holds the whole box afterwards, or what it held before.  A box that is cut across its inlines is
read as the two parts, one after the other.
-/

namespace Seismic

namespace Box

variable {b : Box} {m : Nat}

/-- The part of a box with the inlines before one of them. -/
def before (b : Box) (m : Nat) (h : b.lower.inline < m) : Box :=
  { b with upper := { b.upper with inline := m }, inline_lt := h }

/-- The part of a box with an inline and those after it. -/
def after (b : Box) (m : Nat) (h : m < b.upper.inline) : Box :=
  { b with lower := { b.lower with inline := m }, inline_lt := h }

theorem fits_cut {shape : Extent} (hl : b.lower.inline < m) (hu : m < b.upper.inline) :
    b.fits shape = true ↔
      (b.before m hl).fits shape = true ∧ (b.after m hu).fits shape = true := by
  simp only [fits_iff, before, after]
  omega

/-- The inline runs slowest, so the samples of the two parts are not mixed. -/
theorem indices_cut (hl : b.lower.inline < m) (hu : m < b.upper.inline) :
    b.indices = (b.before m hl).indices ++ (b.after m hu).indices := by
  have hlength : b.shape.inline = (m - b.lower.inline) + (b.upper.inline - m) := by
    unfold shape
    dsimp only
    omega
  have hstart : b.lower.inline + 1 * (m - b.lower.inline) = m := by omega
  unfold indices
  rw [hlength, ← List.range'_append, hstart, List.flatMap_append]
  rfl

end Box

namespace Volume

variable {α σ : Type} {v : Volume α σ} {b : Box} {buffer xs : Array σ}

theorem storeSamples_of_found {es : List Extent} {ss : List σ}
    (h : List.Forall₂ (fun e s => v.sampleAt e = .ok s) es ss) {p : Nat} {buffer : Array σ}
    (hroom : p + es.length ≤ buffer.size) :
    v.storeSamples es p buffer = (.ok (), overwrite buffer p ss) := by
  induction h generalizing p buffer with
  | nil => rfl
  | cons he _ ih =>
    rw [List.length_cons] at hroom
    rw [storeSamples, if_pos (by omega), he]
    exact ih (by rw [Array.size_setIfInBounds]; omega)

/-- In place, a box is read as it is into a copy of the buffer, and a buffer is left alone if the
box is not read. -/
theorem readInto_eq (v : Volume α σ) (b : Box) (buffer : Array σ) :
    v.readInto b buffer = match v.read buffer b with
      | .ok ys => (.ok (), ys)
      | .error failure => (.error failure, buffer) := by
  unfold readInto read
  by_cases hfits : b.fits v.shape = true
  · rw [if_pos hfits, hfits]
    cases hcount : (b.count : Result α Nat) with
    | error failure => rfl
    | ok count =>
      dsimp only
      by_cases hsize : buffer.size = count
      · obtain ⟨ss, hss⟩ := exists_samples hfits
        have hroom : 0 + b.indices.length ≤ buffer.size := by
          rw [Nat.zero_add, Box.length_indices, hsize, (Box.count_eq_ok.mp hcount).2]
        rw [if_pos hsize, storeSamples_of_found (mapM_eq_ok.mp hss) hroom, hss]
        simp only [hsize, ok_bind, Bool.not_true, Bool.false_eq_true, if_false, ne_eq, not_true]
        rfl
      · rw [if_neg hsize]
        simp only [hsize, ok_bind, Bool.not_true, Bool.false_eq_true, if_false, ne_eq,
          not_false_eq_true, if_true]
        rfl
  · rw [if_neg hfits, Bool.eq_false_iff.mpr hfits]
    rfl

/-- A buffer that is not filled with the box holds what it held. -/
theorem readInto_eq_error {e : Failure α} (h : v.readInto b buffer = (.error e, xs)) :
    xs = buffer := by
  rw [readInto_eq] at h
  cases hread : v.read buffer b with
  | ok ys =>
    rw [hread] at h
    cases h
  | error failure =>
    rw [hread] at h
    cases h
    rfl

theorem readInto_eq_ok : v.readInto b buffer = (.ok (), xs) ↔ v.read buffer b = .ok xs := by
  rw [readInto_eq]
  cases v.read buffer b with
  | ok ys => simp
  | error failure => simp

section

variable (hmem : v.values.size < countBound)
include hmem

/-- A box that fits has no more samples than the volume, so their number is a 64-bit count. -/
theorem exists_read_iff : (∃ ys, v.read buffer b = .ok ys) ↔
    b.fits v.shape = true ∧ buffer.size = b.shape.count := by
  rw [exists_read, Box.count_eq_ok]
  refine and_congr_right fun hfits => and_iff_right ?_
  exact Nat.lt_of_le_of_lt (v.values_size ▸ Box.count_le_of_fits hfits) hmem

theorem read_eq_ok_iff : v.read buffer b = .ok xs ↔ b.fits v.shape = true ∧
    buffer.size = b.shape.count ∧ b.indices.mapM v.sampleAt = .ok xs.toList := by
  constructor
  · intro h
    obtain ⟨hfits, hsize⟩ := (exists_read_iff hmem).mp ⟨xs, h⟩
    exact ⟨hfits, hsize, mapM_eq_ok.mpr (read_eq_ok h).2⟩
  · rintro ⟨hfits, hsize, hall⟩
    obtain ⟨ys, hys⟩ := (exists_read_iff hmem).mpr ⟨hfits, hsize⟩
    have hlist := hall.symm.trans (mapM_eq_ok.mpr (read_eq_ok hys).2)
    rw [hys, Array.toList_inj.mp (Except.ok.inj hlist)]

end

/-- Reading a box into a buffer.  It is read if it lies within the volume and is as large as the
buffer, which then holds it in order, and if not the buffer is unchanged.  A box that is cut across
the inlines is read as one part after the other.  A volume in memory has fewer samples than there
are counts. -/
theorem read_in_place (hmem : v.values.size < countBound) (b : Box) (buffer : Array σ) :
    ((∃ xs, v.readInto b buffer = (.ok (), xs)) ↔
      (b.upper.inline ≤ v.shape.inline ∧ b.upper.crossline ≤ v.shape.crossline ∧
        b.upper.sample ≤ v.shape.sample) ∧ buffer.size = b.shape.count) ∧
    (∀ xs, v.readInto b buffer = (.ok (), xs) → xs.size = b.shape.count ∧
      ∀ i j k, i < b.shape.inline → j < b.shape.crossline → k < b.shape.sample →
        ∃ s, xs[(i * b.shape.crossline + j) * b.shape.sample + k]? = some s ∧
          v.sampleAt ⟨b.lower.inline + i, b.lower.crossline + j, b.lower.sample + k⟩ = .ok s) ∧
    (∀ e xs, v.readInto b buffer = (.error e, xs) → xs = buffer) ∧
    ∀ m (hl : b.lower.inline < m) (hu : m < b.upper.inline) (left right : Array σ),
      buffer.size = b.shape.count → left.size = (b.before m hl).shape.count →
      right.size = (b.after m hu).shape.count → ∀ xs, v.readInto b buffer = (.ok (), xs) ↔
        ∃ ys zs, v.readInto (b.before m hl) left = (.ok (), ys) ∧
          v.readInto (b.after m hu) right = (.ok (), zs) ∧ ys ++ zs = xs := by
  rw [← Box.fits_iff]
  simp only [readInto_eq_ok]
  refine ⟨exists_read_iff hmem, fun xs h => ⟨(read_eq_ok h).1, fun i j k hi hj hk =>
    getElem?_read h hi hj hk⟩, fun e xs => readInto_eq_error, ?_⟩
  intro m hl hu left right hbuffer hleft hright xs
  simp only [read_eq_ok_iff hmem, hbuffer, hleft, hright, true_and, Box.fits_cut hl hu,
    Box.indices_cut hl hu, mapM_append_eq_ok]
  constructor
  · rintro ⟨⟨h₁, h₂⟩, as, has, bs, hbs, h⟩
    exact ⟨as.toArray, bs.toArray, ⟨h₁, has⟩, ⟨h₂, hbs⟩, by rw [← Array.toList_inj]; simpa using h⟩
  · rintro ⟨ys, zs, ⟨h₁, hys⟩, ⟨h₂, hzs⟩, rfl⟩
    exact ⟨⟨h₁, h₂⟩, _, hys, _, hzs, Array.toList_append.symm⟩

/-- Twelve samples of four traces, up to the last one of the volume, and the halves of them.  A
buffer with eleven places is left alone. -/
theorem read_in_place_of_uneven : ∃ b : Box, b.lower = ⟨0, 1, 1⟩ ∧ b.upper = ⟨2, 3, 4⟩ ∧
    (∃ xs ys zs, (numbered .uneven).readInto b (Array.replicate 12 Sampled.zero) = (.ok (), xs) ∧
      xs[11]? = some (Single.ofInt 23) ∧ ys.size = 6 ∧ zs.size = 6 ∧ ys ++ zs = xs) ∧
    ((numbered .uneven).readInto b (Array.replicate 11 Sampled.zero)).2 =
      Array.replicate 11 Sampled.zero := by
  have hmem : (numbered .uneven).values.size < countBound := by
    rw [(numbered .uneven).values_size]
    decide
  have hlast : (numbered .uneven).sampleAt ⟨1, 2, 3⟩ = .ok (Single.ofInt 23) := by decide +kernel
  let b : Box := ⟨⟨0, 1, 1⟩, ⟨2, 3, 4⟩, by decide, by decide, by decide⟩
  obtain ⟨hread, hplaces, -, hcut⟩ := read_in_place hmem b (Array.replicate 12 Sampled.zero)
  obtain ⟨hshort, -, hleft, -⟩ := read_in_place hmem b (Array.replicate 11 Sampled.zero)
  obtain ⟨xs, hxs⟩ := hread.mpr ⟨by decide, by decide⟩
  obtain ⟨s, hs, hvalue⟩ := (hplaces xs hxs).2 1 1 2 (by decide) (by decide) (by decide)
  cases hlast.symm.trans hvalue
  obtain ⟨ys, zs, hys, hzs, happend⟩ := (hcut 1 (by decide) (by decide)
    (Array.replicate 6 Sampled.zero) (Array.replicate 6 Sampled.zero) (by decide) (by decide)
    (by decide) xs).mp hxs
  refine ⟨b, rfl, rfl, ⟨xs, ys, zs, hxs, hs, ?_, ?_, happend⟩, ?_⟩
  · exact ((read_in_place hmem _ _).2.1 ys hys).1
  · exact ((read_in_place hmem _ _).2.1 zs hzs).1
  · cases hrun : (numbered .uneven).readInto b (Array.replicate 11 Sampled.zero) with
    | mk outcome rest =>
      cases outcome with
      | error e => exact hleft e rest hrun
      | ok u => exact absurd (hshort.mp ⟨rest, hrun⟩).2 (by decide)

end Volume
end Seismic
