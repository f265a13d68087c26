import Seismic.Proofs.Precision
import Seismic.Proofs.Subvolume.Bounds

/-!
# The vertical axis

A window is laid out by positions and fetched by indices.  Its positions may exceed the axis
by the width of the tolerance, which is a distance.  If that is less than half a step, with
something to spare for rounding, the indices of its samples are on the axis.
-/

namespace Seismic

open Double

/-- An axis whose samples are farther apart than two tolerances, and whose ends are within
`2 ^ 40` steps of zero. -/
structure Axis.Resolved (a : Axis Float) : Prop where
  long : 21 / 10000 ≤ toReal a.step
  short : toReal a.step ≤ 2 ^ 100
  first : |toReal a.first| ≤ 2 ^ 40 * toReal a.step
  last : |toReal a.last| ≤ 2 ^ 40 * toReal a.step

namespace Axis

variable {a : Axis Float}

theorem quotient_le {q h : ℝ} (hpos : 0 < h) (hq : h = rounded q) :
    q ≤ (h + tiny) * (1 + 1 / 2 ^ 52) := by
  have ht : 0 ≤ tiny := by
    unfold tiny
    positivity
  have herr := abs_le.mp (abs_rounded_sub_le q)
  rw [← hq, ulp] at herr
  by_cases h0 : 0 ≤ q
  · rw [abs_of_nonneg h0] at herr
    linarith [herr.1]
  · have hneg : 0 ≤ (h + tiny) * (1 + 1 / 2 ^ 52) := by positivity
    linarith

/-- There are not so many steps that their number would be rounded. -/
theorem few_steps {d m h : ℝ} (hm : 0 < m) (hlong : 21 / 10000 ≤ h) (hq : h = rounded (d / m))
    (hd : |d| ≤ 2 ^ 42 * h) : m < 2 ^ 44 := by
  by_contra hge
  have hle : |d / m| ≤ h / 4 := by
    rw [abs_div, abs_of_pos hm, div_le_iff₀ hm]
    have := mul_le_mul_of_nonneg_left (not_lt.mp hge) (by linarith : 0 ≤ h / 4)
    linarith
  have htiny := tiny_le
  have herr := (abs_le.mp (abs_rounded_sub_le (d / m))).2
  rw [← hq, ulp] at herr
  have := le_abs_self (d / m)
  linarith

theorem ofInt_steps (h1 : 1 < a.nsamples) (hn : a.nsamples < countBound) :
    IsFinite (Float.ofInt (a.nsamples - 1 : Nat)) ∧
      toReal (Float.ofInt (a.nsamples - 1 : Nat)) = rounded ((a.nsamples : ℝ) - 1) ∧
      1 ≤ toReal (Float.ofInt (a.nsamples - 1 : Nat)) := by
  have hcast : (((a.nsamples - 1 : Nat) : ℤ) : ℝ) = (a.nsamples : ℝ) - 1 := by
    rw [Int.cast_natCast, Nat.cast_sub h1.le, Nat.cast_one]
  have hone : (1 : ℝ) ≤ (a.nsamples : ℝ) - 1 := by
    have : (2 : ℝ) ≤ a.nsamples := by exact_mod_cast h1
    linarith
  have hle : (a.nsamples : ℝ) - 1 ≤ 2 ^ 64 := by
    have h : (a.nsamples : ℝ) ≤ (countBound : ℕ) := by exact_mod_cast hn.le
    have hc : ((countBound : ℕ) : ℝ) = 2 ^ 64 := by norm_num [countBound]
    linarith
  obtain ⟨hf, hv⟩ := ofInt_rounded (n := ((a.nsamples - 1 : Nat) : ℤ)) (by
    rw [hcast, abs_of_nonneg (by linarith)]
    exact le_greatest 64 (by norm_num) hle)
  rw [hcast] at hv
  refine ⟨hf, hv, ?_⟩
  have h := rounded_mono hone
  rw [← Int.cast_one, rounded_intCast (by norm_num), Int.cast_one] at h
  rwa [hv]

theorem ofInt_steps_eq (h1 : 1 < a.nsamples) (hn : a.nsamples < countBound)
    (hfew : toReal (Float.ofInt (a.nsamples - 1 : Nat)) < 2 ^ 44) :
    toReal (Float.ofInt (a.nsamples - 1 : Nat)) = (a.nsamples : ℝ) - 1 := by
  obtain ⟨-, hv, -⟩ := ofInt_steps h1 hn
  rw [hv] at hfew ⊢
  have hlt : (a.nsamples : ℤ) - 1 < 2 ^ 44 := by
    by_contra hge
    have hge' : ((2 ^ 44 : ℤ) : ℝ) ≤ (a.nsamples : ℝ) - 1 := by
      exact_mod_cast not_lt.mp hge
    have h := rounded_mono hge'
    rw [rounded_intCast (by norm_num)] at h
    push_cast at h
    linarith
  have h := rounded_intCast (n := (a.nsamples : ℤ) - 1) (abs_lt.mpr ⟨by omega, by omega⟩)
  push_cast at h
  exact h

/-- The distance between the ends is the number of steps, up to a hundredth of a step. -/
theorem Resolved.length_le (hres : a.Resolved) (hf : IsFinite a.step)
    (hn : a.nsamples < countBound) :
    toReal a.last - toReal a.first ≤ ((a.nsamples : ℝ) - 1 + 1 / 100) * toReal a.step := by
  obtain ⟨hlong, hshort, hfirst, hlast⟩ := hres
  have hpos : 0 < toReal a.step := by linarith
  have h1 := one_lt_nsamples hpos
  obtain ⟨hlf, hff⟩ := ends_finite hf hpos
  have hdist : |toReal a.last - toReal a.first| ≤ 2 ^ 41 * toReal a.step := by
    have := abs_sub (toReal a.last) (toReal a.first)
    linarith
  obtain ⟨hdf, hdv⟩ := sub_finite hlf hff
    (le_greatest 141 (by norm_num) (hdist.trans (by linarith)))
  have hderr := abs_sub_error a.last a.first
  rw [← hdv, ulp] at hderr
  obtain ⟨hmf, -, hm1⟩ := ofInt_steps h1 hn
  have hm := ofInt_steps_eq h1 hn
  have hstep := step_eq h1
  generalize a.last - a.first = d at *
  generalize Float.ofInt (a.nsamples - 1 : Nat) = m at *
  have hm0 : 0 < toReal m := by linarith
  have hquot : |toReal d / toReal m| ≤ |toReal d| := by
    rw [abs_div, abs_of_pos hm0]
    exact div_le_self (abs_nonneg (toReal d)) hm1
  have hq : toReal a.step = rounded (toReal d / toReal m) := by
    rw [hstep]
    exact (div_finite hdf hmf hm0.ne' (hquot.trans (abs_toReal_le d))).2
  have hfew : toReal m < 2 ^ 44 := few_steps hm0 hlong hq (by
    have := abs_sub_abs_le_abs_sub (toReal d) (toReal a.last - toReal a.first)
    linarith)
  have hle : toReal d ≤ (toReal a.step + tiny) * (1 + 1 / 2 ^ 52) * toReal m := by
    rw [← div_le_iff₀ hm0]
    exact quotient_le hpos hq
  have ht : tiny * toReal m ≤ 1 / 2 ^ 56 := by
    calc tiny * toReal m ≤ 1 / 2 ^ 100 * 2 ^ 44 :=
          mul_le_mul tiny_le hfew.le hm0.le (by positivity)
      _ = 1 / 2 ^ 56 := by norm_num
  have hs : toReal a.step * toReal m ≤ toReal a.step * 2 ^ 44 :=
    mul_le_mul_of_nonneg_left hfew.le hpos.le
  rw [← hm hfew]
  have := (abs_le.mp hderr).1
  linarith

/-- A window that does not begin above the axis begins less than half a step above it, -/
theorem Resolved.edge_first (hres : a.Resolved) (hf : IsFinite a.first) :
    IsFinite (a.first - Tolerance.width) ∧
      toReal a.first - 477 / 1000 * toReal a.step ≤ toReal (a.first - Tolerance.width) := by
  obtain ⟨hwf, hwv⟩ := width_finite
  obtain ⟨hw₁, hw₂⟩ := rounded_width_mem
  obtain ⟨hlong, hshort, hfirst, -⟩ := hres
  have habs := abs_sub (toReal a.first) (toReal (Tolerance.width : Float))
  rw [hwv, abs_of_nonneg (show 0 ≤ rounded (1 / 1000) by linarith)] at habs
  obtain ⟨hdf, hdv⟩ := sub_finite hf hwf (by
    rw [hwv]
    exact le_greatest 141 (by norm_num) (by linarith))
  have herr := (abs_le.mp (abs_sub_error a.first Tolerance.width)).1
  rw [← hdv, hwv, ulp] at herr
  exact ⟨hdf, by linarith⟩

/-- and one that does not end below it ends less than half a step below it. -/
theorem Resolved.edge_last (hres : a.Resolved) (hf : IsFinite a.last) :
    IsFinite (a.last + Tolerance.width) ∧
      toReal (a.last + Tolerance.width) ≤ toReal a.last + 477 / 1000 * toReal a.step := by
  obtain ⟨hwf, hwv⟩ := width_finite
  obtain ⟨hw₁, hw₂⟩ := rounded_width_mem
  obtain ⟨hlong, hshort, -, hlast⟩ := hres
  have habs := abs_add_le (toReal a.last) (toReal (Tolerance.width : Float))
  rw [hwv, abs_of_nonneg (show 0 ≤ rounded (1 / 1000) by linarith)] at habs
  obtain ⟨hdf, hdv⟩ := add_finite hf hwf (by
    rw [hwv]
    exact le_greatest 141 (by norm_num) (by linarith))
  have herr := (abs_le.mp (abs_add_error a.last Tolerance.width)).2
  rw [← hdv, hwv, ulp] at herr
  exact ⟨hdf, by linarith⟩

theorem nearest_indexOf (hf : IsFinite a.step) (hpos : 0 < toReal a.step)
    (hshort : toReal a.step ≤ 2 ^ 100) {x : Float} (hx : IsFinite x)
    (h : |toReal x - toReal a.first| ≤ (2 ^ 41 + 1) * toReal a.step) :
    ∃ k : ℤ, IsFinite (Scalar.nearest (a.indexOf x)) ∧
      toReal (Scalar.nearest (a.indexOf x)) = k ∧
      |k * toReal a.step - (toReal x - toReal a.first)| ≤ 502 / 1000 * toReal a.step := by
  have hacc : (⟨a.step, 0⟩ : Spacing Float).Accepted := ⟨hf, hpos⟩
  have hexact : |(⟨a.step, 0⟩ : Spacing Float).exactNumber x a.first| ≤ 2 ^ 41 + 1 := by
    unfold Spacing.exactNumber
    rw [abs_div, abs_of_pos hpos, div_le_iff₀ hpos]
    exact h
  obtain ⟨hif, hierr⟩ := Spacing.numberOf_near hacc hx (ends_finite hf hpos).2
    (le_greatest 142 (by norm_num) (h.trans (by linarith))) (by norm_num) hexact
  have hindex : a.indexOf x = (⟨a.step, 0⟩ : Spacing Float).numberOf x a.first :=
    indexOf_eq hpos.ne' x
  have hmul : (⟨a.step, 0⟩ : Spacing Float).exactNumber x a.first * toReal a.step =
      toReal x - toReal a.first := div_mul_cancel₀ _ hpos.ne'
  rw [hindex, ← hmul]
  obtain ⟨hnf, hnv⟩ := nearest_finite hif
  refine ⟨_, hnf, hnv, ?_⟩
  have haway := abs_away_sub_le (toReal ((⟨a.step, 0⟩ : Spacing Float).numberOf x a.first))
  have htri := abs_sub_le
    (away (toReal ((⟨a.step, 0⟩ : Spacing Float).numberOf x a.first)) : ℝ)
    (toReal ((⟨a.step, 0⟩ : Spacing Float).numberOf x a.first))
    ((⟨a.step, 0⟩ : Spacing Float).exactNumber x a.first)
  have htiny := tiny_le
  rw [← sub_mul, abs_mul, abs_of_pos hpos]
  exact mul_le_mul_of_nonneg_right (by linarith) hpos.le

end Axis

namespace RawSpacing

theorem inPhase_of_through {a : Axis Float} {s : RawSpacing Float}
    (hs : through a.step a.first = .ok s) : s.spacing.InPhase s.phase := by
  obtain ⟨hacc, hstep, -, hphase, hpf⟩ := through_axis hs
  have hends := Axis.ends_finite (hstep ▸ hacc.finite) (hstep ▸ hacc.pos)
  obtain ⟨-, h0, h1⟩ := phase_finite hends.2 hacc.finite hacc.pos
  rw [hstep, ← hphase] at h0 h1
  exact ⟨hpf, h0, hstep ▸ h1.le⟩

end RawSpacing

namespace Layout

variable {survey : Survey Float} {spacing : RawSpacing Float} {bounds : Bounds Float} {n : Nat}

/-- The numbers of the first and of the last sample of the window of a cell with data.  The
samples lie less than half a step beyond the ends of the axis, and their computed positions
are nearly exact. -/
structure Ends (survey : Survey Float) (spacing : RawSpacing Float) (bounds : Bounds Float)
    (n : Nat) (first last : ℤ) : Prop where
  top : spacing.topSample bounds.top = .ok (spacing.spacing.position first spacing.phase)
  finite : IsFinite (spacing.spacing.position first spacing.phase)
  count : n = (last - first + 1).toNat
  le : first ≤ last
  exact : |toReal (spacing.spacing.position first spacing.phase) -
    spacing.spacing.exactPosition first spacing.phase| ≤ toReal survey.sample.step / 1000
  first_ge : toReal survey.sample.first - 477 / 1000 * toReal survey.sample.step ≤
    toReal (spacing.spacing.position first spacing.phase)
  last_le : spacing.spacing.exactPosition last spacing.phase ≤
    toReal survey.sample.last + 478 / 1000 * toReal survey.sample.step

theorem exists_ends
    (hs : RawSpacing.through survey.sample.step survey.sample.first = .ok spacing)
    (hres : survey.sample.Resolved) (hfit : FitsSurvey survey spacing bounds)
    (hcount : spacing.count bounds.top bounds.bottom = .ok n) :
    ∃ first last, Ends survey spacing bounds n first last := by
  obtain ⟨hacc, hstep, hm, -, hpf⟩ := RawSpacing.through_axis hs
  have hp := RawSpacing.inPhase_of_through hs
  have hends := Axis.ends_finite (hstep ▸ hacc.finite) (hstep ▸ hacc.pos)
  obtain ⟨hlf, hlv⟩ := hres.edge_first hends.2
  obtain ⟨hhf, hhv⟩ := hres.edge_last hends.1
  obtain ⟨hlong, hshort, hfirst, hlast⟩ := hres
  obtain ⟨p, q, htop, hbottom, hlow, hhigh⟩ := hfit.samples
  obtain ⟨x, hx, rfl⟩ := Spacing.topSample_eq_ok.mp htop
  obtain ⟨y, hy, rfl⟩ := Spacing.bottomSample_eq_ok.mp hbottom
  obtain ⟨x', y', hx', hy', -, -, rfl⟩ := Spacing.count_eq_ok.mp hcount
  cases hx.symm.trans hx'
  cases hy.symm.trans hy'
  obtain ⟨hx₁, hx₂, hxe⟩ := Spacing.firstNumber_eq_ok.mp hx
  obtain ⟨hy₁, hy₂, hye⟩ := Spacing.lastNumber_eq_ok.mp hy
  have hinner := Spacing.innerFirst_le hacc hpf (Double.le_trans hfit.top_le hfit.le_bottom)
  have hxy : x ≤ y := by omega
  rw [← hxe] at hx₁ hx₂
  rw [← hye] at hy₁ hy₂
  rw [← hstep] at hlv hhv hlong hshort hfirst hlast
  have hf := abs_le.mp hfirst
  have hl := abs_le.mp hlast
  have hx41 := Spacing.number_ge hacc hp hshort hx₁ hlf (by linarith) hlow
  have hy41 := Spacing.number_le hacc hp hshort hy₂ hhf (by linarith) hhigh
  obtain ⟨hpf', hperr⟩ := Spacing.position_of_number hacc hp hshort hx41 (by omega)
  obtain ⟨hqf', hqerr⟩ := Spacing.position_of_number hacc hp hshort (by omega) hy41
  rw [lt_iff_toReal hpf' hlf, not_lt] at hlow
  rw [lt_iff_toReal hhf hqf', not_lt] at hhigh
  refine ⟨x, y, htop, hpf', rfl, hxy, hstep ▸ hperr, hstep ▸ hlv.trans hlow, ?_⟩
  have hqe := (abs_le.mp hqerr).1
  rw [← hstep]
  linarith

/-- The first sample of the window of a cell is one of the axis, and so is the last. -/
theorem firstSample_of_fitsSurvey
    (hs : RawSpacing.through survey.sample.step survey.sample.first = .ok spacing)
    (hres : survey.sample.Resolved) (hlen : survey.sample.nsamples < countBound)
    (hfit : FitsSurvey survey spacing bounds)
    (hcount : spacing.count bounds.top bounds.bottom = .ok n) :
    ∃ position, spacing.topSample bounds.top = .ok position ∧
      ¬ Scalar.nearest (survey.sample.indexOf position) < Float.ofInt 0 ∧
      Scalar.toCount (Scalar.nearest (survey.sample.indexOf position)) + n ≤
        survey.sample.nsamples := by
  obtain ⟨hacc, hstep, -, -, -⟩ := RawSpacing.through_axis hs
  have hpos : 0 < toReal survey.sample.step := hstep ▸ hacc.pos
  have hsf : IsFinite survey.sample.step := hstep ▸ hacc.finite
  have hlength := hres.length_le hsf hlen
  obtain ⟨x, y, he⟩ := exists_ends hs hres hfit hcount
  obtain ⟨htop, hpf, rfl, hxy, hperr, hlow, hhigh⟩ := he
  obtain ⟨hlong, hshort, hfirst, hlast⟩ := hres
  obtain ⟨hf₁, hf₂⟩ := abs_le.mp hfirst
  obtain ⟨hl₁, hl₂⟩ := abs_le.mp hlast
  obtain ⟨hp₁, hp₂⟩ := abs_le.mp hperr
  unfold Spacing.exactPosition at hp₁ hp₂ hhigh
  rw [hstep] at hp₁ hp₂ hhigh
  have hxyr : (x : ℝ) * toReal survey.sample.step ≤ y * toReal survey.sample.step :=
    mul_le_mul_of_nonneg_right (by exact_mod_cast hxy) hpos.le
  obtain ⟨k, hnf, hnv, hk⟩ := Axis.nearest_indexOf hsf hpos hshort hpf
    (abs_le.mpr ⟨by linarith, by linarith⟩)
  obtain ⟨hk₁, hk₂⟩ := abs_le.mp hk
  refine ⟨_, htop, ?_⟩
  generalize Scalar.nearest (survey.sample.indexOf
    (spacing.spacing.position x spacing.phase)) = i at *
  -- The rest is linear in the step and in integers times the step.
  have hk0 : 0 ≤ k := by
    have h : ((-1 : ℤ) : ℝ) < k := by
      refine lt_of_mul_lt_mul_right ?_ hpos.le
      push_cast
      linarith
    have := Int.cast_lt.mp h
    omega
  have hkn : k + (y - x + 1) < (survey.sample.nsamples : ℤ) + 1 := by
    have h : (k : ℝ) + (y - x + 1) < survey.sample.nsamples + 1 := by
      refine lt_of_mul_lt_mul_right ?_ hpos.le
      linarith
    exact_mod_cast h
  have hcount' : Scalar.toCount i = (max 0 (min ((countBound : ℤ) - 1) k)).toNat :=
    congrArg Int.toNat (clampedInt_of_integer hnf hnv 0 (countBound - 1))
  refine ⟨?_, ?_⟩
  · rw [lt_iff_toReal hnf ofInt_zero.1, hnv, ofInt_zero.2, not_lt]
    exact_mod_cast hk0
  · rw [hcount']
    omega

end Layout
end Seismic
