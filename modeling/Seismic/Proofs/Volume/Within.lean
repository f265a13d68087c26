import Seismic.Proofs.Failing
import Seismic.Proofs.Lookup
import Seismic.Proofs.Volume.Slice

/-!
# Slices stay within the volume

A request for a slice is refused as a bad request, or it reads one box.  The line has been found
on its axis by then, so the box lies within the volume and reading it cannot fail.
-/

namespace Seismic

namespace Volume

variable {α σ : Type} [Scalar α] [Sampled σ α]

/-- The box that is read for a slice. -/
def sliceBox (v : Volume α σ) (line : α) (d : Direction) : Result α Box := do
  let index ← v.lineIndex line d
  Box.between (Extent.withAxis ⟨0, 0, 0⟩ d.dimension index)
    (v.shape.withAxis d.dimension (← addCounts index 1))

/-- The slice of a box. -/
def readSlice (v : Volume α σ) (d : Direction) (box : Box) : Result α (Slice α σ) := do
  let bytes ← boxBytes box
  let values ← v.read (Array.replicate (bytes / 4) Sampled.zero) box
  return ⟨values, (v.acrossAxes d.dimension).1, (v.acrossAxes d.dimension).2⟩

theorem slice_eq (v : Volume α σ) (line : α) (d : Direction) :
    v.slice line d = v.sliceBox line d >>= v.readSlice d := by
  unfold slice sliceBox
  cases v.lineIndex line d with
  | error e => rfl
  | ok index =>
    rw [ok_bind, ok_bind]
    cases (addCounts index 1 : Result α Nat) with
    | error e => rfl
    | ok next => rfl

end Volume

theorem Survey.exists_axis {α : Type} (s : Survey α) (d : Direction) :
    ∃ a, s.axis d.dimension = .ok a := by
  cases d <;> exact ⟨_, rfl⟩

namespace Extent

/-- The number of samples on an axis. -/
def along (e : Extent) : Nat → Nat
  | 0 => e.inline
  | 1 => e.crossline
  | _ => e.sample

end Extent

theorem Box.fits_of_plane {b : Box} {shape : Extent} {dimension index : Nat}
    (hu : b.upper = shape.withAxis dimension (index + 1))
    (h : index < shape.along dimension) : b.fits shape = true := by
  rw [fits_iff, hu]
  match dimension with
  | 0 => exact ⟨h, Nat.le_refl _, Nat.le_refl _⟩
  | 1 => exact ⟨Nat.le_refl _, h, Nat.le_refl _⟩
  | _ + 2 => exact ⟨Nat.le_refl _, Nat.le_refl _, h⟩

namespace Volume

variable {v : Volume Float Single} {line : Float} {d : Direction} {index : Nat} {b : Box}

theorem along_eq {a : Axis Float} (ha : v.survey.axis d.dimension = .ok a) :
    v.shape.along d.dimension = a.nsamples := by
  cases d <;> cases ha <;> rfl

theorem nsamples_lt (hc : v.survey.Counted) {a : Axis Float}
    (ha : v.survey.axis d.dimension = .ok a) : a.nsamples < countBound := by
  cases d <;> cases ha <;> first
    | exact hc.iline
    | exact hc.xline
    | exact hc.sample

theorem lineIndex_eq_ok {a : Axis Float} (ha : v.survey.axis d.dimension = .ok a) :
    v.lineIndex line d = .ok index ↔ d.admits v.survey.sample.unit = true ∧
      (if d.isAnnotation then a.sampleAt line else a.sampleWithIndex line) = .ok index := by
  unfold lineIndex
  rw [ha, ok_bind, check_eq_ok]
  simp

/-- A line that is found is one of the volume. -/
theorem lineIndex_lt (hc : v.survey.Counted) (h : v.lineIndex line d = .ok index) :
    index < v.shape.along d.dimension ∧ index + 1 < countBound := by
  obtain ⟨a, ha⟩ := v.survey.exists_axis d
  have hn := nsamples_lt hc ha
  have hlt : index < a.nsamples := by
    have hfound := ((lineIndex_eq_ok ha).mp h).2
    split_ifs at hfound
    · exact (Axis.sampleAt_eq_ok hn hfound).1
    · exact Axis.lt_of_sampleWithIndex hn hfound
  rw [along_eq ha]
  omega

theorem failsOnly_lineIndex :
    FailsOnly (fun e => e.category? = some .badRequest) (v.lineIndex line d) := by
  obtain ⟨a, ha⟩ := v.survey.exists_axis d
  have hcat : ∀ {e : Failure Float}, e = .unknownLine line a.first a.last a.step ∨
      e = .unknownIndex line (a.nsamples - 1) ∨ e = .wrongUnit d v.survey.sample.unit →
      e.category? = some .badRequest := by
    rintro e (rfl | rfl | rfl) <;> rfl
  unfold lineIndex Axis.sampleAt Axis.sampleWithIndex
  simp [ha, hcat]

/-- The box read for a slice is one sample thick, at the line that was found, so it lies within
the volume. -/
theorem fits_of_sliceBox (hc : v.survey.Counted) (h : v.sliceBox line d = .ok b) :
    b.fits v.shape = true := by
  unfold sliceBox at h
  obtain ⟨index, hindex, h⟩ := bind_eq_ok.mp h
  obtain ⟨next, hnext, h⟩ := bind_eq_ok.mp h
  have hu := (Box.between_eq_ok.mp h).2
  rw [(addCounts_eq_ok.mp hnext).2] at hu
  exact Box.fits_of_plane hu (lineIndex_lt hc hindex).1

theorem failsOnly_sliceBox (hc : v.survey.Counted) :
    FailsOnly (fun e => e.category? = some .badRequest) (v.sliceBox line d) := by
  unfold sliceBox
  rw [failsOnly_bind]
  refine ⟨failsOnly_lineIndex, fun index hindex => ?_⟩
  have hnext := addCounts_eq_ok (α := Float).mpr ⟨(lineIndex_lt hc hindex).2, rfl⟩
  rw [hnext, ok_bind]
  -- Only an axis without samples leaves an empty box, which is refused as it is made.
  unfold Box.between
  rw [failsOnly_dite]
  exact ⟨fun _ => failsOnly_ok, fun _ => failsOnly_error.mpr rfl⟩

theorem exists_readSlice (hmem : Shape.fitsMemory 4 v.values.size = true)
    (hfits : b.fits v.shape = true) : ∃ s, v.readSlice d b = .ok s := by
  obtain ⟨hbytes, ys, hys⟩ := exists_read_of_fits hmem hfits Sampled.zero
  exact ⟨_, bind_eq_ok.mpr ⟨_, hbytes, bind_eq_ok.mpr ⟨ys, hys, rfl⟩⟩⟩

/-- Every request for a slice, whatever the line and the axes, gives a slice or is refused as a
bad request.  What is read is one box, and it lies within the volume. -/
theorem slice_within (hc : v.survey.Counted) (hmem : Shape.fitsMemory 4 v.values.size = true)
    (line : Float) (d : Direction) :
    ((∃ s, v.slice line d = .ok s) ∨
      ∃ e, v.slice line d = .error e ∧ e.category? = some .badRequest) ∧
    v.slice line d = v.sliceBox line d >>= v.readSlice d ∧
    ∀ b, v.sliceBox line d = .ok b → b.fits v.shape = true := by
  refine ⟨?_, v.slice_eq line d, fun b hb => fits_of_sliceBox hc hb⟩
  have hfails : FailsOnly (fun e => e.category? = some .badRequest) (v.slice line d) := by
    rw [slice_eq, failsOnly_bind]
    refine ⟨failsOnly_sliceBox hc, fun b hb => ?_⟩
    obtain ⟨s, hs⟩ := exists_readSlice (d := d) hmem (fits_of_sliceBox hc hb)
    rw [hs]
    exact failsOnly_ok
  cases hslice : v.slice line d with
  | ok s => exact Or.inl ⟨s, rfl⟩
  | error e => exact Or.inr ⟨e, rfl, hfails e hslice⟩

end Volume

/-- A survey with inlines, but without crosslines. -/
def Survey.hollow : Survey Float := { Survey.small with xline := .ofInts 1 1 0 }

theorem Volume.slice_within_of_hollow : (Survey.hollow : Survey Float).Counted ∧
    Shape.fitsMemory 4 (numbered .hollow).values.size = true ∧
    ∃ e, (numbered .hollow).slice (Float.ofInt 2) .inline = .error e ∧
      e.category? = some .badRequest := by
  have hc : (Survey.hollow : Survey Float).Counted := ⟨by decide, by decide, by decide⟩
  have hmem : Shape.fitsMemory 4 (numbered .hollow).values.size = true := by
    rw [(numbered .hollow).values_size]
    decide
  have hno : ((numbered .hollow).slice (Float.ofInt 2) .inline).isOk = false := by decide +kernel
  obtain ⟨⟨s, hs⟩ | hrefused, -, -⟩ :=
    slice_within (v := numbered .hollow) hc hmem (Float.ofInt 2) .inline
  · rw [hs] at hno
    cases hno
  · exact ⟨hc, hmem, hrefused⟩

end Seismic
