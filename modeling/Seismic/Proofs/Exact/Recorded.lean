import Seismic.Proofs.Exact.Layout
import Seismic.Proofs.Phase

/-!
# Where raw samples were recorded

The raw samples of a cell are placed on a lattice, and fetched by index from the sample axis.
The lattice goes through the first sample of the axis, except that a small phase is taken for
zero.  So what is fetched was recorded at a fixed distance from where it is placed, the same
for all samples of all cells.
-/

namespace Seismic

open Exact

variable {K : Type} [Field K] [LinearOrder K] [FloorRing K]

/-- The distance from the samples of an axis to the nearest points of the lattice that raw
samples are placed on. -/
def Axis.misfit (a : Axis (Exact K)) : K :=
  let number := (a.first.val - (Tolerance.phase a.first a.step).val) / a.step.val
  |number - round number| * a.step.val

/-- The number on the sample axis, with a fraction between samples, of the first raw sample of
a cell. -/
def Exact.Cell.indexOfFirst {σ : Type} (survey : Survey (Exact K)) (s : Subvolume (Exact K) σ)
    (bounds : Bounds (Exact K)) : K :=
  (first s bounds * survey.sample.step.val + s.layout.spacing.phase.val -
    survey.sample.first.val) / survey.sample.step.val

variable [IsStrictOrderedRing K]

/-- A number and its distance from an integer are equally far from the nearest integers. -/
theorem Exact.abs_sub_round_intCast_sub (m : ℤ) (x : K) :
    |(m - x) - round (m - x)| = |x - round x| := by
  have h₁ := round_le (m - x) (m - round x)
  have h₂ := round_le x (m - round (m - x))
  rw [show (m - x) - ((m - round x : ℤ) : K) = -(x - round x) by push_cast; ring, abs_neg] at h₁
  rw [show x - ((m - round (m - x) : ℤ) : K) = -((m - x) - round (m - x)) by push_cast; ring,
    abs_neg] at h₂
  exact le_antisymm h₁ h₂

namespace Axis

variable {a : Axis (Exact K)}

theorem misfit_le {e : K} {k : ℤ} (h : 0 < a.step.val)
    (hk : |a.first.val - (Tolerance.phase a.first a.step).val - k * a.step.val| ≤ e) :
    a.misfit ≤ e := by
  have hround := round_le ((a.first.val - (Tolerance.phase a.first a.step).val) / a.step.val) k
  calc a.misfit
      ≤ |(a.first.val - (Tolerance.phase a.first a.step).val) / a.step.val - k| * a.step.val :=
        mul_le_mul_of_nonneg_right hround h.le
    _ = |a.first.val - (Tolerance.phase a.first a.step).val - k * a.step.val| := by
        rw [← abs_of_pos h, ← abs_mul, abs_of_pos h, sub_mul, div_mul_cancel₀ _ h.ne']
    _ ≤ e := hk

/-- An axis whose phase is not taken for zero fits the lattice. -/
theorem misfit_of_kept (h : 0 < a.step.val)
    (hp : (Tolerance.phase a.first a.step).val = (Scalar.remainderUp a.first a.step).val) :
    a.misfit = 0 := by
  obtain ⟨k, hr, -, -⟩ := remainderUp_val (x := a.first) h
  refine le_antisymm (misfit_le (k := k) h ?_) (mul_nonneg (abs_nonneg _) h.le)
  rw [hp, hr, show a.first.val - (a.first.val - k * a.step.val) - k * a.step.val = 0 by ring,
    abs_zero]

theorem misfit_le_allowance (h : 0 < a.step.val) : a.misfit ≤ allowance a.first := by
  obtain ⟨q, hq, -⟩ := phase_near a.first h
  refine misfit_le (k := q) h ?_
  rwa [sub_sub, add_comm (Tolerance.phase a.first a.step).val]

end Axis

namespace Exact
namespace Cell

variable {σ : Type} [Sampled σ (Exact K)] {survey : Survey (Exact K)}
variable {s : Subvolume (Exact K) σ} {index : Nat}
variable {bounds : Bounds (Exact K)} {raw : RawSegment (Exact K) σ}

omit [IsStrictOrderedRing K] in
theorem indexOfFirst_mul (h : Cell survey s index bounds raw) :
    indexOfFirst survey s bounds * survey.sample.step.val =
      first s bounds * survey.sample.step.val + s.layout.spacing.phase.val -
        survey.sample.first.val :=
  div_mul_cancel₀ _ h.pos.ne'

/-- The first raw sample is as far from a sample of the axis as the lattice. -/
theorem abs_indexOfFirst (h : Cell survey s index bounds raw) :
    |indexOfFirst survey s bounds - away (indexOfFirst survey s bounds)| *
      survey.sample.step.val = survey.sample.misfit := by
  have hi : indexOfFirst survey s bounds = first s bounds -
      (survey.sample.first.val - (Tolerance.phase survey.sample.first survey.sample.step).val) /
        survey.sample.step.val := by
    rw [eq_sub_iff_add_eq, ← mul_left_inj' h.pos.ne', add_mul, h.indexOfFirst_mul,
      div_mul_cancel₀ _ h.pos.ne', h.phase]
    ring
  rw [abs_sub_away, hi, abs_sub_round_intCast_sub]
  rfl

theorem firstSample_eq_ok (h : Cell survey s index bounds raw) {n : Nat} :
    s.layout.firstSample survey index = .ok n ↔ 0 ≤ away (indexOfFirst survey s bounds) ∧
      n = (max 0 (min ((countBound : ℤ) - 1) (away (indexOfFirst survey s bounds)))).toNat := by
  have hindex : (survey.sample.indexOf (s.layout.spacing.spacing.position (first s bounds)
      s.layout.spacing.phase)).val = indexOfFirst survey s bounds := by
    rw [indexOf_val h.pos, position_val, h.step]
    rfl
  have hnearest := congrArg away hindex
  unfold Layout.firstSample
  rw [h.bounds_eq, ok_bind, h.topSample_eq_ok, ok_bind]
  dsimp only
  rw [check_eq_ok, pure_eq_ok, lt_iff, nearest_val, zero_val, hnearest, not_lt, Int.cast_nonneg_iff,
    Scalar.toCount, clampedInt_of_integer (nearest_val.trans (congrArg Int.cast hnearest)),
    @eq_comm _ n]

/-- A raw sample lies as far from what is fetched for it as the lattice from the axis. -/
theorem distance_eq_misfit (h : Cell survey s index bounds raw)
    (hn : survey.sample.nsamples < countBound) {n k : Nat} {xs : Array (Exact K)} {x : Exact K}
    (hf : s.layout.firstSample survey index = .ok n)
    (hin : n + raw.values.size ≤ survey.sample.nsamples) (hxs : raw.positions = .ok xs)
    (hx : xs[k]? = some x) :
    |x.val - (survey.sample.annotationOf (Scalar.ofNat (n + k))).val| = survey.sample.misfit := by
  obtain ⟨h0, hn'⟩ := h.firstSample_eq_ok.mp hf
  have h4 := h.four_le
  have haway : away (indexOfFirst survey s bounds) = n := by omega
  obtain ⟨ys, hys, -, hpos⟩ := h.positions_eq_ok
  cases hxs.symm.trans hys
  have heq : x.val - (survey.sample.annotationOf (Scalar.ofNat (n + k))).val =
      (indexOfFirst survey s bounds - away (indexOfFirst survey s bounds)) *
        survey.sample.step.val := by
    rw [sub_mul, h.indexOfFirst_mul, haway, (hpos k x hx).2, annotationOf_val, ofNat_val]
    push_cast
    ring
  rw [heq, abs_mul, abs_of_pos h.pos, h.abs_indexOfFirst]

/-- If the allowance is small beside the step, the window of every cell is on the axis. -/
theorem exists_firstSample (h : Cell survey s index bounds raw)
    (hsmall : 100 * allowance survey.sample.first ≤ survey.sample.step.val) :
    ∃ n, s.layout.firstSample survey index = .ok n ∧
      n + raw.values.size ≤ survey.sample.nsamples := by
  obtain ⟨first', last', hf, hl, hlow, hhigh⟩ := h.fits.samples
  cases h.topSample_eq_ok.symm.trans hf
  cases h.bottomSample_eq_ok.symm.trans hl
  rw [lt_iff, sub_val, width_val, position_val, h.step, not_lt] at hlow
  rw [lt_iff, add_val, width_val, position_val, h.step, not_lt, last_val h.pos] at hhigh
  push_cast at hhigh
  have hmul := h.indexOfFirst_mul
  have hwidth : 100 * (1 / 1000 : K) ≤ survey.sample.step.val := by
    have := noise_nonneg (x := survey.sample.first)
    rw [allowance_eq] at hsmall
    linarith
  have hpos := h.pos
  have hge : -(1 / 100) ≤ indexOfFirst survey s bounds := by
    refine le_of_mul_le_mul_right ?_ hpos
    linarith
  have hle : indexOfFirst survey s bounds + raw.values.size ≤
      survey.sample.nsamples + 1 / 100 := by
    refine le_of_mul_le_mul_right ?_ hpos
    linarith
  have hround := abs_le.mp ((abs_sub_away (indexOfFirst survey s bounds)).le.trans
    (abs_sub_round (indexOfFirst survey s bounds)))
  have h0 : 0 ≤ away (indexOfFirst survey s bounds) := by
    have : (-1 : K) < away (indexOfFirst survey s bounds) := by linarith
    have : -1 < away (indexOfFirst survey s bounds) := by exact_mod_cast this
    omega
  have hend : away (indexOfFirst survey s bounds) + raw.values.size ≤
      survey.sample.nsamples := by
    have : (away (indexOfFirst survey s bounds) + raw.values.size : K) <
        survey.sample.nsamples + 1 := by linarith
    have : away (indexOfFirst survey s bounds) + raw.values.size <
        survey.sample.nsamples + 1 := by exact_mod_cast this
    omega
  exact ⟨_, h.firstSample_eq_ok.mpr ⟨h0, rfl⟩, by omega⟩

end Cell
end Exact

variable {σ : Type} [Sampled σ (Exact K)] {survey : Survey (Exact K)}
variable {reference top bottom : Horizon (Exact K) σ} {s : Subvolume (Exact K) σ} {index : Nat}

/-- Every raw sample of a laid-out subvolume is placed at one and the same distance from where
the sample that is fetched for it was recorded.  That distance is zero unless the phase of the
axis is taken for zero, and then it is at most the tolerance.  If this is small beside the
step, every cell that is not empty is on the axis. -/
theorem Subvolume.recorded_of_between
    (hl : Layout.between survey reference top bottom = .ok s.layout)
    (hdata : s.data.size = s.layout.total) (hn : survey.sample.nsamples < countBound)
    (hi : index < s.layout.cells) (he : s.layout.isEmpty index = .ok false) :
    ∃ raw xs, s.rawSegment index = .ok raw ∧ raw.positions = .ok xs ∧
      xs.size = raw.values.size ∧ 4 ≤ raw.values.size ∧
      (∀ first, s.layout.firstSample survey index = .ok first →
        first + raw.values.size ≤ survey.sample.nsamples → ∀ k x, xs[k]? = some x →
          |x.val - (survey.sample.annotationOf (Scalar.ofNat (first + k))).val| =
            survey.sample.misfit) ∧
      ((Tolerance.phase survey.sample.first survey.sample.step).val =
          (Scalar.remainderUp survey.sample.first survey.sample.step).val →
        survey.sample.misfit = 0) ∧
      (100 * allowance survey.sample.first ≤ survey.sample.step.val →
        survey.sample.misfit ≤ survey.sample.step.val / 100 ∧
        ∃ first, s.layout.firstSample survey index = .ok first ∧
          first + raw.values.size ≤ survey.sample.nsamples) := by
  obtain ⟨bounds, raw, h⟩ := cell_of_between hl hdata hi he
  obtain ⟨xs, hxs, hsize, -⟩ := h.positions_eq_ok
  refine ⟨raw, xs, h.segment, hxs, hsize, h.four_le, ?_, ?_, ?_⟩
  · exact fun first hf hin k x hx => h.distance_eq_misfit hn hf hin hxs hx
  · exact fun hp => Axis.misfit_of_kept h.pos hp
  · intro hsmall
    refine ⟨?_, h.exists_firstSample hsmall⟩
    have := Axis.misfit_le_allowance h.pos
    linarith

theorem Subvolume.recorded_of_single : ∃ (s : Subvolume (Exact ℚ) (Exact ℚ)) (first : ℕ),
    Subvolume.between (.ofRats 4 32 8) (.ofRat 17) (.ofRat 17) (.ofRat 18) = .ok s ∧
      (100 * allowance (⟨4⟩ : Exact ℚ) ≤ 4) ∧
      s.layout.firstSample (.ofRats 4 32 8) 0 = .ok first := by
  obtain ⟨s, hs, hcells, he⟩ : ∃ s : Subvolume (Exact ℚ) (Exact ℚ),
      Subvolume.between (.ofRats 4 32 8) (.ofRat 17) (.ofRat 17) (.ofRat 18) = .ok s ∧
        0 < s.layout.cells ∧ s.layout.isEmpty 0 = .ok false := by decide +kernel
  obtain ⟨hl, hdata⟩ := Subvolume.between_eq_ok hs
  have hsmall : 100 * allowance (⟨4⟩ : Exact ℚ) ≤ 4 := by decide +kernel
  obtain ⟨_, _, -, -, -, -, -, -, h⟩ :=
    recorded_of_between hl hdata (by decide) hcells he
  obtain ⟨-, first, hf, -⟩ := h (by decide +kernel)
  exact ⟨s, first, hs, hsmall, hf⟩

/-- A first sample half a thousandth above a multiple of a step of four thousandths: the raw
samples are placed an eighth of a step away. -/
theorem Subvolume.recorded_elsewhere : ¬ ∀ (survey : Survey (Exact ℚ))
    (reference top bottom : Horizon (Exact ℚ) (Exact ℚ)) (s : Subvolume (Exact ℚ) (Exact ℚ))
    (index first : ℕ) (raw : RawSegment (Exact ℚ) (Exact ℚ)) (xs : Array (Exact ℚ)),
    Subvolume.between survey reference top bottom = .ok s → index < s.layout.cells →
      s.layout.isEmpty index = .ok false → s.rawSegment index = .ok raw →
      raw.positions = .ok xs → s.layout.firstSample survey index = .ok first →
      ∀ k < xs.size, |(xs.getD k 0).val -
        (survey.sample.annotationOf (Scalar.ofNat (first + k))).val| ≤
          survey.sample.step.val / 100 := by
  intro hall
  obtain ⟨s, hs, hcells, he, raw, hraw, xs, hxs, first, hf, hsize, hfar⟩ :
      ∃ s : Subvolume (Exact ℚ) (Exact ℚ),
        Subvolume.between (.ofRats (7 / 2000) (63 / 2000) 8) (.ofRat (31 / 2000))
            (.ofRat (31 / 2000)) (.ofRat (31 / 2000)) = .ok s ∧
          0 < s.layout.cells ∧ s.layout.isEmpty 0 = .ok false ∧
          ∃ raw, s.rawSegment 0 = .ok raw ∧ ∃ xs, raw.positions = .ok xs ∧
            ∃ first, s.layout.firstSample (.ofRats (7 / 2000) (63 / 2000) 8) 0 = .ok first ∧
              0 < xs.size ∧ ¬ |(xs.getD 0 0).val -
                (Axis.annotationOf (.ofRats (7 / 2000) (63 / 2000) 8)
                  (Scalar.ofNat (first + 0))).val| ≤
                (Axis.step (.ofRats (7 / 2000) (63 / 2000) 8)).val / 100 := by decide +kernel
  exact hfar (hall _ _ _ _ s 0 first raw xs hs hcells he hraw hxs hf 0 hsize)

end Seismic
