import Mathlib.Data.Rat.Floor
import Seismic.Proofs.Exact.Window
import Seismic.Proofs.Subvolume.Cells

/-!
# Laid-out subvolumes in exact arithmetic

The raw samples of a cell that is not empty lie a step apart, from the first number of its
window on.
-/

namespace Seismic

theorem getElem?_samplePositions {α : Type} [Scalar α] {top stepsize x : α} {count k : Nat} :
    (samplePositions top stepsize count)[k]? = some x ↔
      k < count ∧ x = top + Scalar.ofNat k * stepsize := by
  unfold samplePositions
  rw [Array.getElem?_ofFn]
  split_ifs with hk
  · exact ⟨fun h => ⟨hk, (Option.some.inj h).symm⟩, fun h => congrArg some h.2.symm⟩
  · exact ⟨fun h => (nomatch h), fun h => absurd h.1 hk⟩

namespace Exact

variable {K : Type} [Field K] [LinearOrder K] [FloorRing K]

/-! ## Axes -/

section Axes

variable {a : Axis (Exact K)}

theorem one_lt_nsamples (h : 0 < a.step.val) : 1 < a.nsamples := by
  by_contra hle
  have h0 : a.step = 0 := if_pos (Nat.not_lt.mp hle)
  rw [h0, zero_val] at h
  exact lt_irrefl _ h

theorem annotationOf_val (index : Exact K) :
    (a.annotationOf index).val = a.first.val + index.val * a.step.val := rfl

theorem indexOf_val (h : 0 < a.step.val) (label : Exact K) :
    (a.indexOf label).val = (label.val - a.first.val) / a.step.val := by
  unfold Axis.indexOf Axis.indexOnLine
  rw [if_neg fun h0 => h.ne' ((beq_iff.mp h0).trans zero_val)]
  rfl

theorem last_val (h : 0 < a.step.val) :
    a.last.val = a.first.val + (a.nsamples - 1) * a.step.val := by
  have h1 := one_lt_nsamples h
  have hstep : a.step.val = (a.last.val - a.first.val) / ((a.nsamples - 1 : ℕ) : K) := by
    rw [Axis.step, if_neg (Nat.not_le.mpr h1), div_val, sub_val, ofNat_val]
  have hcast : ((a.nsamples - 1 : ℕ) : K) = a.nsamples - 1 := by
    rw [Nat.cast_sub h1.le, Nat.cast_one]
  have hne : (a.nsamples : K) - 1 ≠ 0 := by
    rw [← hcast]
    exact Nat.cast_ne_zero.mpr (Nat.sub_ne_zero_of_lt h1)
  rw [hstep, hcast, mul_div_cancel₀ _ hne]
  ring

end Axes

/-! ## Cells -/

variable {σ : Type} [Sampled σ (Exact K)] {survey : Survey (Exact K)}
variable {reference top bottom : Horizon (Exact K) σ} {s : Subvolume (Exact K) σ} {index : Nat}

/-- What is known of a cell that is not empty: its window and its raw samples. -/
structure Cell (survey : Survey (Exact K)) (s : Subvolume (Exact K) σ) (index : Nat)
    (bounds : Bounds (Exact K)) (raw : RawSegment (Exact K) σ) : Prop where
  stepsize : s.layout.spacing.spacing = ⟨survey.sample.step, rawMargin⟩
  pos : 0 < survey.sample.step.val
  phase : s.layout.spacing.phase = Tolerance.phase survey.sample.first survey.sample.step
  bounds_eq : s.layout.bounds index = .ok bounds
  fits : Layout.FitsSurvey survey s.layout.spacing bounds
  counted : Counted s.layout.spacing.spacing bounds.top bounds.bottom s.layout.spacing.phase
    raw.values.size
  segment : s.rawSegment index = .ok raw
  spacing : raw.spacing = s.layout.spacing
  raw_bounds : raw.bounds = bounds

namespace Cell

variable {bounds : Bounds (Exact K)} {raw : RawSegment (Exact K) σ}

theorem margin (h : Cell survey s index bounds raw) : s.layout.spacing.spacing.margin = 2 := by
  rw [h.stepsize]
  rfl

theorem step (h : Cell survey s index bounds raw) :
    s.layout.spacing.spacing.stepsize = survey.sample.step := by
  rw [h.stepsize]

/-- The number of the first raw sample. -/
def first (s : Subvolume (Exact K) σ) (bounds : Bounds (Exact K)) : ℤ :=
  ceilNumber (numberOf s.layout.spacing.spacing bounds.top s.layout.spacing.phase) - 2

theorem topSample_eq_ok (h : Cell survey s index bounds raw) :
    s.layout.spacing.topSample bounds.top =
      .ok (s.layout.spacing.spacing.position (first s bounds) s.layout.spacing.phase) := by
  refine Spacing.topSample_eq_ok.mpr ⟨_, h.counted.first, ?_⟩
  rw [h.margin]
  rfl

theorem bottomSample_eq_ok (h : Cell survey s index bounds raw) :
    s.layout.spacing.bottomSample bounds.bottom =
      .ok (s.layout.spacing.spacing.position (first s bounds + raw.values.size - 1)
        s.layout.spacing.phase) := by
  refine Spacing.bottomSample_eq_ok.mpr ⟨_, h.counted.last, congrArg (fun n =>
    s.layout.spacing.spacing.position n s.layout.spacing.phase) ?_⟩
  have := h.counted.size
  unfold first
  rw [h.margin] at this ⊢
  omega

/-- The positions of the raw samples are those of consecutive numbers. -/
theorem positions_eq_ok (h : Cell survey s index bounds raw) :
    ∃ xs, raw.positions = .ok xs ∧ xs.size = raw.values.size ∧
      ∀ k x, xs[k]? = some x → k < raw.values.size ∧
        x.val = (first s bounds + k) * survey.sample.step.val + s.layout.spacing.phase.val := by
  have htop := h.topSample_eq_ok
  rw [← h.spacing, ← h.raw_bounds] at htop
  refine ⟨_, bind_eq_ok.mpr ⟨_, htop, rfl⟩, Array.size_ofFn, fun k x hx => ?_⟩
  obtain ⟨hk, rfl⟩ := getElem?_samplePositions.mp hx
  refine ⟨hk, ?_⟩
  rw [add_val, mul_val, ofNat_val, position_val, h.spacing, h.step, h.raw_bounds]
  ring

variable [IsStrictOrderedRing K]

theorem four_le (h : Cell survey s index bounds raw) : 4 ≤ raw.values.size := by
  have hpos : 0 < s.layout.spacing.spacing.stepsize.val := by
    rw [h.step]
    exact h.pos
  have := h.counted.margins_le hpos (le_trans h.fits.top_le h.fits.le_bottom)
  rw [h.margin] at this
  exact this

end Cell

variable [IsStrictOrderedRing K]

theorem cell_of_between (hl : Layout.between survey reference top bottom = .ok s.layout)
    (hdata : s.data.size = s.layout.total) (hi : index < s.layout.cells)
    (he : s.layout.isEmpty index = .ok false) : ∃ bounds raw, Cell survey s index bounds raw := by
  obtain ⟨-, -, -, hs, -⟩ := Layout.between_eq_ok hl
  obtain ⟨hsp, hpos, hphase⟩ := through_eq_ok hs
  obtain ⟨bounds, first, n, hb, -, hfit, hcount, hr⟩ := Layout.window_of_not_isEmpty hl hi he
  obtain ⟨xs, hxs, rfl⟩ := Subvolume.exists_segment hl hdata hi hr
  have hle : bounds.top.val ≤ bounds.bottom.val := le_trans hfit.top_le hfit.le_bottom
  have hcounted := counted_of_count (by rw [hsp]; exact hpos) (by rw [hsp]; exact two_pos) hle hcount
  refine ⟨bounds, ⟨s.layout.spacing, bounds, xs⟩, hsp, hpos, hphase, hb, hfit, hcounted, ?_, rfl,
    rfl⟩
  unfold Subvolume.rawSegment
  rw [hxs, hb]
  rfl

end Exact

/-! ## A survey of one trace -/

def Axis.ofRats (first last : ℚ) (nsamples : Nat) : Axis (Exact ℚ) :=
  ⟨⟨first⟩, ⟨last⟩, nsamples, "", "", 0⟩

def Survey.ofRats (first last : ℚ) (nsamples : Nat) : Survey (Exact ℚ) where
  iline := .ofRats 1 1 1
  xline := .ofRats 1 1 1
  sample := .ofRats first last nsamples
  crs := ""
  inputFile := ""
  importedAt := none
  transformer := ⟨⟨1, 0, 0, 0, 1, 0⟩, ⟨1, 0, 0, 0, 1, 0⟩, 1, 0, 1, 0⟩

/-- A horizon over the only trace, whose samples are rational numbers. -/
def Horizon.ofRat (depth : ℚ) : Horizon (Exact ℚ) (Exact ℚ) where
  grid := ⟨⟨⟨1, 0, 0, 0, 1, 0⟩, ⟨1, 0, 0, 0, 1, 0⟩⟩, 1, 1⟩
  values := #[⟨depth⟩]
  fill := ⟨-999⟩
  values_size := rfl

end Seismic
