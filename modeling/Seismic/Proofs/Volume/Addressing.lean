import Seismic.Proofs.Annotation
import Seismic.Proofs.Volume.Within

/-!
# Slices by annotation and by index

A slice is determined by the axis it goes across and by the sample that is found on this axis.
On an axis with numbered lines, the annotation of a sample and its index find the same sample,
so they give the same slice.
-/

namespace Seismic

/-- The direction that numbers the lines of the same axis by index. -/
def Direction.byIndex : Direction → Direction
  | .inline | .i => .i
  | .crossline | .j => .j
  | .depth | .time | .sample | .k => .k

namespace Direction

variable {d : Direction}

@[simp] theorem dimension_byIndex (d : Direction) : d.byIndex.dimension = d.dimension := by
  cases d <;> rfl

@[simp] theorem isAnnotation_byIndex (d : Direction) : d.byIndex.isAnnotation = false := by
  cases d <;> rfl

@[simp] theorem admits_byIndex (d : Direction) (unit : String) : d.byIndex.admits unit = true := by
  cases d <;> rfl

/-- The directions that number lines by annotation, whatever the unit of the samples is. -/
def ByAnnotation (d : Direction) : Prop := d = .inline ∨ d = .crossline ∨ d = .sample

theorem ByAnnotation.isAnnotation (h : d.ByAnnotation) : d.isAnnotation = true := by
  rcases h with rfl | rfl | rfl <;> rfl

theorem ByAnnotation.admits (h : d.ByAnnotation) (unit : String) : d.admits unit = true := by
  rcases h with rfl | rfl | rfl <;> rfl

end Direction

namespace Extent

/-- On every axis an index across a dimension is its line or the given number there. -/
theorem across_lt {e : Extent} {dimension line x y : Nat} (hl : line < e.along dimension)
    (hx : x < (e.plane dimension).1) (hy : y < (e.plane dimension).2) :
    (across dimension line x y).inline < e.inline ∧
      (across dimension line x y).crossline < e.crossline ∧
      (across dimension line x y).sample < e.sample := by
  match dimension with
  | 0 => exact ⟨hl, hx, hy⟩
  | 1 => exact ⟨hx, hl, hy⟩
  | _ + 2 => exact ⟨hx, hy, hl⟩

theorem plane_pos {e : Extent} (h : 0 < e.inline ∧ 0 < e.crossline ∧ 0 < e.sample)
    (dimension : Nat) : 0 < (e.plane dimension).1 ∧ 0 < (e.plane dimension).2 := by
  match dimension with
  | 0 => exact ⟨h.2.1, h.2.2⟩
  | 1 => exact ⟨h.1, h.2.2⟩
  | _ + 2 => exact ⟨h.1, h.2.1⟩

end Extent

namespace Volume

variable {α σ : Type} [Scalar α] [Sampled σ α]

theorem slice_congr {v : Volume α σ} {line line' : α} {d d' : Direction}
    (hd : d'.dimension = d.dimension) (h : v.lineIndex line' d' = v.lineIndex line d) :
    v.slice line' d' = v.slice line d := by
  unfold slice
  rw [hd, h]

variable {v : Volume Float Single} {a : Axis Float} {line : Float} {d : Direction} {i : Nat}

/-- A sample of an axis is found by its index. -/
theorem lineIndex_byIndex (ha : v.survey.axis d.dimension = .ok a) (hi : i < a.nsamples)
    (hexact : i < 2 ^ 53) : v.lineIndex (Scalar.ofNat i) d.byIndex = .ok i := by
  have ha' : v.survey.axis d.byIndex.dimension = .ok a := by rwa [Direction.dimension_byIndex]
  rw [lineIndex_eq_ok ha']
  simpa using Axis.sampleWithIndex_ofNat hi hexact

theorem lineIndex_eq_ok_iff (hd : d.ByAnnotation) (ha : v.survey.axis d.dimension = .ok a) :
    v.lineIndex line d = .ok i ↔ a.sampleAt line = .ok i := by
  rw [lineIndex_eq_ok ha, if_pos hd.isAnnotation]
  exact and_iff_right (hd.admits _)

/-- The slice at a line is the one at the index of the sample that is found. -/
theorem slice_byIndex (ha : v.survey.axis d.dimension = .ok a) (hi : i < a.nsamples)
    (hexact : i < 2 ^ 53) (hline : v.lineIndex line d = .ok i) :
    v.slice (Scalar.ofNat i) d.byIndex = v.slice line d :=
  slice_congr d.dimension_byIndex ((lineIndex_byIndex ha hi hexact).trans hline.symm)

/-- There is a slice at every line of a volume that has samples. -/
theorem exists_slice_of_pos (hmem : Shape.fitsMemory 4 v.values.size = true)
    (hpos : 0 < v.shape.inline ∧ 0 < v.shape.crossline ∧ 0 < v.shape.sample)
    (hline : v.lineIndex line d = .ok i) (hi : i < v.shape.along d.dimension)
    (hnext : i + 1 < countBound) : ∃ s, v.slice line d = .ok s := by
  obtain ⟨hx, hy⟩ := Extent.plane_pos hpos d.dimension
  obtain ⟨h₁, h₂, h₃⟩ := Extent.across_lt hi hx hy
  obtain ⟨z, hz⟩ := exists_sampleAt h₁ h₂ h₃
  obtain ⟨s, hs, -⟩ := exists_slice hmem hline hnext hz
  exact ⟨s, hs⟩

/-- Across an axis with numbered lines, the slice at the annotation of a sample is the slice at
its index.  A line that is given otherwise, and is found nevertheless, is at most a hundredth of
the distance between lines away from the annotation of the sample whose slice it gives. -/
theorem slice_of_annotation (hmem : Shape.fitsMemory 4 v.values.size = true)
    (hpos : 0 < v.shape.inline ∧ 0 < v.shape.crossline ∧ 0 < v.shape.sample)
    (hd : d.ByAnnotation) (ha : v.survey.axis d.dimension = .ok a) (hn : a.Numbered) :
    (∀ i < a.nsamples, ∃ s, v.slice (a.annotationOf (Scalar.ofNat i)) d = .ok s ∧
      v.slice (Scalar.ofNat i) d.byIndex = .ok s) ∧
    ∀ line s, v.slice line d = .ok s → ∃ i < a.nsamples,
      v.slice (Scalar.ofNat i) d.byIndex = .ok s ∧ Double.IsFinite line ∧
        |Double.toReal line - Double.toReal (a.annotationOf (Scalar.ofNat i))| ≤ a.pitch / 100 := by
  have hfew := hn.few
  have hcount : a.nsamples < countBound := hfew.trans (by decide)
  refine ⟨fun i hi => ?_, fun line s hs => ?_⟩
  · have hline : v.lineIndex (a.annotationOf (Scalar.ofNat i)) d = .ok i :=
      (lineIndex_eq_ok_iff hd ha).mpr (hn.sampleAt_annotationOf hi)
    obtain ⟨s, hs⟩ := exists_slice_of_pos hmem hpos hline (by rwa [along_eq ha]) (by omega)
    exact ⟨s, hs, (slice_byIndex ha hi (by omega) hline).trans hs⟩
  · obtain ⟨i, -, -, hline, -⟩ := slice_eq_ok hs
    have hfound := (lineIndex_eq_ok_iff hd ha).mp hline
    obtain ⟨hi, hindex, -, -⟩ := Axis.sampleAt_eq_ok hcount hfound
    exact ⟨i, hi, (slice_byIndex ha hi (by omega) hline).trans hs,
      Axis.isFinite_of_indexOf hindex, hn.abs_sub_annotationOf_le hfound⟩

end Volume

/-- A survey whose inlines are numbered downwards. -/
def Survey.downwards : Survey Float := { Survey.small with iline := .ofInts 3 (-1) 3 }

theorem Survey.numbered_downwards : Survey.downwards.iline.Numbered := by
  have hfirst : Double.IsInteger (Float.ofInt 3) 3 := Double.isInteger_ofInt (by norm_num)
  have hlast : Double.IsInteger (Float.ofInt (-1)) (-1) := Double.isInteger_ofInt (by norm_num)
  have hsteps : (3 : ℤ) + (Survey.downwards.iline.nsamples - 1) * -2 = -1 := by decide
  rw [← hsteps] at hlast
  exact Or.inr ⟨3, -2, by decide, by decide, hfirst, hlast, by decide, by decide, by decide⟩

theorem Volume.slice_of_downwards : Survey.downwards.iline.Numbered ∧
    ∃ s, (numbered .downwards).slice (Float.ofInt 1) .inline = .ok s ∧
      (numbered .downwards).slice (Scalar.ofNat 1) .i = .ok s := by
  have hmem : Shape.fitsMemory 4 (numbered .downwards).values.size = true := by
    rw [(numbered .downwards).values_size]
    decide
  have hline : Survey.downwards.iline.annotationOf (Scalar.ofNat 1) = Float.ofInt 1 := by
    decide +kernel
  obtain ⟨hslice, -⟩ := slice_of_annotation (v := numbered .downwards) (d := .inline) hmem
    (by decide) (Or.inl rfl) rfl Survey.numbered_downwards
  obtain ⟨s, hs, hi⟩ := hslice 1 (by decide)
  rw [show (numbered .downwards).survey.iline = Survey.downwards.iline from rfl, hline] at hs
  exact ⟨Survey.numbered_downwards, s, hs, hi⟩

end Seismic
