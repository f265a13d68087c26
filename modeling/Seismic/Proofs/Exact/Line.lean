import Seismic.Proofs.Exact.Equivariance
import Seismic.Proofs.Exact.Layout
import Seismic.Proofs.Resampled

/-!
# Straight lines

A spline through nodes on the diagonal is the diagonal.  All its slopes are one, also those that
continue them beyond the ends, and so are all its derivatives.  Any other straight line that is
not upright is the diagonal with another amplitude, a level one included.  So a trace of samples
that are affine in depth is resampled without error.
-/

namespace Seismic
namespace Exact

open Spline

variable {K : Type} [Field K] [LinearOrder K] [FloorRing K]
variable {x : Array (Exact K)} {a b p : Exact K} {i j k : ℕ}

/-! ## The diagonal -/

theorem secant_self (hinc : increasing x.toList = true) (hk : k + 1 < x.size) :
    secant x x k = 1 := by
  have hlt := getD_lt hinc (Nat.lt_succ_self k) hk
  ext
  rw [secant, div_val, sub_val, one_val, div_self (sub_ne_zero.mpr hlt.ne')]

theorem slope_self (h2 : 2 ≤ x.size) (hinc : increasing x.toList = true) (hj : j ≤ x.size + 2) :
    slope x x j = 1 := by
  have hone : (1 : Exact K) = extend 1 1 := by
    ext
    rw [extend_val, one_val]
    ring
  have hconstant : Continued x.size fun _ => (1 : Exact K) := ⟨hone, hone, hone, hone⟩
  refine (continued_slope h2).ext hconstant h2 (fun i hi hin => ?_) hj
  rw [slope_inner_sub hi hin, secant_self hinc (by omega)]

variable [IsStrictOrderedRing K]

theorem derivative_self (h2 : 2 ≤ x.size) (hinc : increasing x.toList = true) (hi : i < x.size) :
    derivative x x i = 1 := by
  have hmean : blendOf (1 : K) 1 1 1 = 1 := by norm_num [blendOf, weightOf]
  ext
  rw [derivative_val, slope_self h2 hinc (by omega), slope_self h2 hinc (by omega),
    slope_self h2 hinc (by omega), slope_self h2 hinc (by omega), one_val, hmean]

theorem piece_self (h2 : 2 ≤ x.size) (hinc : increasing x.toList = true) (hk : k + 1 < x.size) :
    piece x x k p = p := by
  have hlt := getD_lt hinc (Nat.lt_succ_self k) hk
  have hne : (x.getD (k + 1) 0).val - (x.getD k 0).val ≠ 0 := sub_ne_zero.mpr hlt.ne'
  ext
  rw [piece, derivative_self h2 hinc hk, derivative_self h2 hinc (Nat.lt_of_succ_lt hk), cubic_val]
  simp only [div_val, sub_val, one_val]
  field_simp
  ring

/-! ## Other lines -/

theorem eval_affine (s : Spline (Exact K)) (h2 : 2 ≤ x.size) (hinc : increasing x.toList = true)
    (h₁ : x.getD 0 0 ≤ p) (h₂ : p ≤ x.getD (x.size - 1) 0) :
    (s.fit x (x.map fun u => a * u + b)).2.eval p = .ok (a * p + b) := by
  have h : Accepts (x, x) := ⟨rfl, h2, hinc⟩
  have hk := interval_add_one_lt p h2
  rw [eval_fit s (accepts_scale h a b) h₁ h₂, piece_scale h hk, piece_self h2 hinc hk]

theorem increasing_samplePositions {top stepsize : Exact K} (hpos : 0 < stepsize) (n : ℕ) :
    increasing (samplePositions top stepsize n).toList = true := by
  refine increasing_of_getElem? fun k u v hu hv => ?_
  obtain ⟨-, rfl⟩ := getElem?_samplePositions.mp (Array.getElem?_toList.symm.trans hu)
  obtain ⟨-, rfl⟩ := getElem?_samplePositions.mp (Array.getElem?_toList.symm.trans hv)
  have hstep : 0 < stepsize.val := by simpa using lt_iff.mp hpos
  rw [lt_iff, add_val, add_val, mul_val, mul_val, ofNat_val, ofNat_val, Nat.cast_succ, add_one_mul]
  linarith

/-- The positions of a raw segment are increasing, one for each sample. -/
theorem positions_of_segment {σ : Type} {src : RawSegment (Exact K) σ} (hx : src.positions = .ok x)
    (hpos : 0 < src.spacing.spacing.stepsize) :
    x.size = src.values.size ∧ increasing x.toList = true := by
  obtain ⟨top, -, h⟩ := bind_eq_ok.mp hx
  cases pure_eq_ok.mp h
  exact ⟨Array.size_ofFn, increasing_samplePositions hpos _⟩

theorem resample_affine {σ : Type} [Sampled σ (Exact K)] {src : RawSegment (Exact K) σ}
    {dst : ResampledSegment (Exact K)} {q : Array (Exact K)} (hx : src.positions = .ok x)
    (hq : dst.positions = .ok q) (hpos : 0 < src.spacing.spacing.stepsize)
    (h2 : 2 ≤ src.values.size) (hrange : ∀ p ∈ q, x.getD 0 0 ≤ p ∧ p ≤ x.getD (x.size - 1) 0)
    (hline : ∀ (i : ℕ) p t, x[i]? = some p → src.values[i]? = some t → Sampled.widen t = a * p + b) :
    resample src dst = .ok { dst with values := q.map fun p => a * p + b } := by
  obtain ⟨hsize, hinc⟩ := positions_of_segment hx hpos
  rw [← hsize] at h2
  have hvalues : src.values.map Sampled.widen = x.map fun u => a * u + b := by
    refine Array.ext (by rw [Array.size_map, Array.size_map, hsize]) fun i hi hi' => ?_
    rw [Array.size_map] at hi hi'
    rw [Array.getElem_map, Array.getElem_map]
    exact hline i _ _ (Array.getElem?_eq_getElem hi') (Array.getElem?_eq_getElem hi)
  rw [resample_eq_ok_iff hx, hvalues]
  exact ⟨accepts_scale ⟨rfl, h2, hinc⟩ a b, evalAll_eq hq fun p hp =>
    eval_affine {} h2 hinc (hrange p hp).1 (hrange p hp).2⟩

/-- The spline through nodes on a line is accepted, and it is the line from the first node to the
last one.  A raw segment of samples on a line is resampled to values on it, at whatever positions
between its first and its last sample. -/
theorem eval_line :
    (∀ (s : Spline (Exact K)) (x : Array (Exact K)) (a b p : Exact K), 2 ≤ x.size →
      increasing x.toList = true → x.getD 0 0 ≤ p → p ≤ x.getD (x.size - 1) 0 →
      (s.fit x (x.map fun u => a * u + b)).1 = .ok () ∧
        (s.fit x (x.map fun u => a * u + b)).2.eval p = .ok (a * p + b)) ∧
    ∀ (σ : Type) [Sampled σ (Exact K)] (src : RawSegment (Exact K) σ)
      (dst : ResampledSegment (Exact K)) (x q : Array (Exact K)) (a b : Exact K),
      src.positions = .ok x → dst.positions = .ok q → 0 < src.spacing.spacing.stepsize →
      2 ≤ src.values.size → (∀ p ∈ q, x.getD 0 0 ≤ p ∧ p ≤ x.getD (x.size - 1) 0) →
      (∀ (i : ℕ) p t, x[i]? = some p → src.values[i]? = some t → Sampled.widen t = a * p + b) →
      resample src dst = .ok { dst with values := q.map fun p => a * p + b } :=
  ⟨fun s _ a b _ h2 hinc h₁ h₂ => ⟨fit_ok_iff.mpr (accepts_scale ⟨rfl, h2, hinc⟩ a b),
    eval_affine s h2 hinc h₁ h₂⟩,
   fun _ _ _ _ _ _ _ _ hx hq hpos h2 hrange hline =>
    resample_affine hx hq hpos h2 hrange hline⟩

/-- A falling line through four nodes at uneven distances, and a rising one through the samples
of a segment. -/
theorem eval_line_of_four :
    (fit {} #[0, 1, 3, 4] ((#[0, 1, 3, 4] : Array (Exact ℚ)).map fun u => -2 * u + 5)).2.eval 2 =
      .ok (-2 * 2 + 5) ∧
    ∃ q : Array (Exact ℚ), ResampledSegment.halves.positions = .ok q ∧
      resample (RawSegment.unit ((#[0, 1, 2, 3, 4, 5, 6, 7] : Array (Exact ℚ)).map
        fun p => 3 * p + 1)) ResampledSegment.halves =
        .ok { ResampledSegment.halves with values := q.map fun p => 3 * p + 1 } := by
  refine ⟨(eval_line.1 {} (#[0, 1, 3, 4] : Array (Exact ℚ)) (-2) 5 2 (by decide) (by decide +kernel)
    (by decide +kernel) (by decide +kernel)).2, ?_⟩
  obtain ⟨x, hx, rfl⟩ : ∃ x : Array (Exact ℚ), (RawSegment.unit (#[0, 1, 2, 3, 4, 5, 6, 7].map
      fun p : Exact ℚ => 3 * p + 1)).positions = .ok x ∧ x = #[0, 1, 2, 3, 4, 5, 6, 7] := by
    decide +kernel
  obtain ⟨q, hq, hrange⟩ : ∃ q : Array (Exact ℚ), ResampledSegment.halves.positions = .ok q ∧
      ∀ p ∈ q, 0 ≤ p ∧ p ≤ 7 := by decide +kernel
  refine ⟨q, hq, eval_line.2 _ _ _ _ q 3 1 hx hq (by decide +kernel) (by decide +kernel) hrange
    fun i p t hp ht => ?_⟩
  rw [RawSegment.unit, Array.getElem?_map, hp] at ht
  cases ht
  rfl

end Exact
end Seismic
