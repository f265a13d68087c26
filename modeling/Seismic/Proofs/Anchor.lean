import Seismic.Proofs.Double.Nearest
import Seismic.Proofs.Precision
import Seismic.Proofs.Reference

/-!
# The anchor of a resampled window

The lattice of a resampled trace is meant to have a sample at the reference.  The phase is
found by a remainder that is taken for zero within a fixed distance, and the ends of a window
by tolerant rounding, whose tolerance is a part of a step.  If the step is short, the first
tolerance reaches farther than the second, and the reference may be lost.
-/

namespace Seismic

open Double

namespace Spacing

variable {s : Spacing Float} {x y phase : Float}

theorem innerFirst_mono (hs : s.Accepted) (hp : IsFinite phase) (h : x ≤ y) :
    s.innerFirst x phase ≤ s.innerFirst y phase := by
  obtain ⟨hx, hy, -⟩ := le_iff.mp h
  rw [innerFirst_eq hs hp hx, innerFirst_eq hs hp hy]
  exact clampedBy_mono leastNumber_le (fun _ _ => ceilTol_mono) (numberOf_mono hs hp h)

theorem innerLast_mono (hs : s.Accepted) (hp : IsFinite phase) (h : x ≤ y) :
    s.innerLast x phase ≤ s.innerLast y phase := by
  obtain ⟨hx, hy, -⟩ := le_iff.mp h
  rw [innerLast_eq hs hp hx, innerLast_eq hs hp hy]
  exact clampedBy_mono leastNumber_le floorTol_mono (numberOf_mono hs hp h)

/-- The nearest sample lies in the window from a position to itself, unless that is empty. -/
theorem nearestNumber_mem (hs : s.Accepted) (hp : IsFinite phase) (hx : IsNumber x)
    (h : s.innerFirst x phase ≤ s.innerLast x phase) :
    s.innerFirst x phase ≤ s.nearestNumber x phase ∧
      s.nearestNumber x phase ≤ s.innerLast x phase := by
  have hq := away_between (value (s.numberOf x phase)).toReal
  rw [innerFirst_eq hs hp hx, innerLast_eq hs hp hx] at *
  rw [nearestNumber_eq hs hp hx]
  unfold clampedBy at *
  split_ifs at * <;> omega

theorem innerLast_le (hs : s.Accepted) (hp : IsFinite phase) (hx : IsNumber x) :
    s.innerLast x phase ≤ s.innerFirst x phase + 1 := by
  rw [innerFirst_eq hs hp hx, innerLast_eq hs hp hx]
  refine clampedBy_le (by norm_num) leastNumber_le (fun a b hab => ?_) le_rfl
  have h₁ := floorTol_le_ceil a
  have h₂ := Int.ceil_mono hab
  have h₃ := Int.ceil_le_floor_add_one b
  have h₄ := floor_le_ceilTol b
  omega

end Spacing

namespace ResampledSpacing

variable {s : ResampledSpacing Float} {r t b h : Float} {n k : Nat}

/-- The window from the reference to itself can always be counted. -/
theorem count_reference (hs : s.spacing.Accepted) (hm : s.spacing.margin = 0) (hr : IsFinite r) :
    s.count r r r = .ok
      (s.spacing.innerLast r (s.phase r) - s.spacing.innerFirst r (s.phase r) + 1).toNat := by
  have hp := phase_finite hs hr
  have h₁ := Spacing.innerLast_le hs hp hr.isNumber
  have h₂ := Spacing.innerFirst_le hs hp (Double.le_refl hr.isNumber)
  have h₃ := clampedBy_mem ceilTol Spacing.leastNumber_le (value (s.spacing.numberOf r (s.phase r)))
  have h₄ := clampedBy_mem floorTol Spacing.leastNumber_le (value (s.spacing.numberOf r (s.phase r)))
  rw [← Spacing.innerFirst_eq hs hp hr.isNumber] at h₃
  rw [← Spacing.innerLast_eq hs hp hr.isNumber] at h₄
  have hlow : Spacing.leastNumber ≤ -1 := by decide
  have hhigh : 2 ≤ Spacing.greatestNumber := by decide
  refine Spacing.count_eq_ok.mpr ⟨s.spacing.innerFirst r (s.phase r),
    s.spacing.innerLast r (s.phase r), Spacing.firstNumber_eq_ok.mpr ?_,
    Spacing.lastNumber_eq_ok.mpr ?_, ?_, ?_, rfl⟩ <;> omega

/-- The sample that is taken for the one at the reference lies within a hundredth of a step of
it. -/
def NearReference (s : ResampledSpacing Float) (r : Float) : Prop :=
  |toReal (s.spacing.position (s.referenceNumber r) (s.phase r)) - toReal r| ≤
    toReal s.spacing.stepsize / 100

/-- A window of `n` samples from `top` on has the sample at the reference: its index is below
`n`, and the sample of that index lies within a hundredth of a step of the reference. -/
def HoldsReference (s : ResampledSpacing Float) (r top : Float) (n : Nat) : Prop :=
  ∃ first k, s.spacing.firstNumber top (s.phase r) = .ok first ∧ s.countAbove r top = .ok k ∧
    k < n ∧ |toReal (s.spacing.position (first + k) (s.phase r)) - toReal r| ≤
      toReal s.spacing.stepsize / 100

/-- All windows around a reference have the sample at the reference if, and only if, the
window from the reference to itself is not empty and that sample is near. -/
theorem forall_holdsReference (hs : s.spacing.Accepted) (hm : s.spacing.margin = 0)
    (hr : IsFinite r) :
    (∀ t b n, t ≤ r → r ≤ b → s.count r t b = .ok n → s.HoldsReference r t n) ↔
      s.count r r r ≠ .ok 0 ∧ s.NearReference r := by
  have hp := phase_finite hs hr
  have hrr := Double.le_refl hr.isNumber
  have hnum : s.referenceNumber r = s.spacing.nearestNumber r (s.phase r) := rfl
  have hcount := count_reference hs hm hr
  have hmem := Spacing.nearestNumber_mem hs hp hr.isNumber
  constructor
  · intro hall
    obtain ⟨first, k, hf, hk, hlt, hnear⟩ := hall r r _ hrr hrr hcount
    obtain ⟨-, -, rfl⟩ := Spacing.firstNumber_eq_ok.mp hf
    obtain ⟨_, hf', -, -, rfl⟩ := countAbove_eq_ok.mp hk
    cases hf.symm.trans hf'
    have hle : s.spacing.innerFirst r (s.phase r) ≤ s.spacing.innerLast r (s.phase r) := by omega
    obtain ⟨hx, -⟩ := hmem hle
    refine ⟨?_, ?_⟩
    · rw [hcount, ne_eq, Except.ok.injEq]
      omega
    · rw [Int.toNat_of_nonneg (by omega), add_sub_cancel] at hnear
      exact hnear
  · rintro ⟨hne, hnear⟩ t b n htop hbottom hn
    have hle : s.spacing.innerFirst r (s.phase r) ≤ s.spacing.innerLast r (s.phase r) := by
      by_contra hlt
      exact hne (by rw [hcount, Int.toNat_of_nonpos (by omega)])
    obtain ⟨hx, hy⟩ := hmem hle
    obtain ⟨k, hk⟩ := exists_countAbove hs hm hr htop hbottom hn
    obtain ⟨first, last, hf, hl, -, -, rfl⟩ := Spacing.count_eq_ok.mp hn
    obtain ⟨-, -, rfl⟩ := Spacing.firstNumber_eq_ok.mp hf
    obtain ⟨-, -, rfl⟩ := Spacing.lastNumber_eq_ok.mp hl
    obtain ⟨_, hf', -, -, rfl⟩ := countAbove_eq_ok.mp hk
    cases hf.symm.trans hf'
    have hxt := Spacing.innerFirst_mono hs hp htop
    have hyb := Spacing.innerLast_mono hs hp hbottom
    refine ⟨_, _, hf, hk, by omega, ?_⟩
    rw [Int.toNat_of_nonneg (by omega), add_sub_cancel]
    exact hnear

/-! ## References of moderate size -/

theorem inPhase (hs : s.spacing.Accepted) (hr : IsFinite r) : s.spacing.InPhase (s.phase r) := by
  obtain ⟨hf, h0, h1⟩ := Double.phase_finite hr hs.finite hs.pos
  exact ⟨hf, h0, h1.le⟩

def fraction (s : ResampledSpacing Float) (r : Float) : Float := s.spacing.numberOf r (s.phase r)

theorem referenceNumber_moderate (hs : s.spacing.Accepted) (hr : s.spacing.Moderate r) :
    |s.referenceNumber r| ≤ 2 ^ 40 + 3 ∧ s.referenceNumber r = away (toReal (s.fraction r)) := by
  have hp := inPhase hs hr.finite
  have hq := (Spacing.numberOf_moderate hs hp hr).1
  have hnum : s.referenceNumber r = s.spacing.nearestNumber r (s.phase r) := rfl
  rw [hnum, Spacing.nearestNumber_eq hs hp.finite hr.finite.isNumber, value_of_isFinite hq]
  obtain ⟨h, he⟩ := Spacing.clampedBy_moderate
    ((abs_away_sub_le (toReal (s.fraction r))).trans (by norm_num))
    (Spacing.abs_numberOf_le hs hp hr)
  exact ⟨he ▸ h, he⟩

/-- The window from the reference to itself has a sample if, and only if, the number of the
reference is within tolerance of an integer. -/
theorem count_reference_ne_zero (hs : s.spacing.Accepted) (hm : s.spacing.margin = 0)
    (hr : s.spacing.Moderate r) : s.count r r r ≠ .ok 0 ↔
      |rounded (toReal (s.fraction r) - away (toReal (s.fraction r)))| ≤
        tolerance (toReal (s.fraction r)) := by
  have hp := inPhase hs hr.finite
  rw [← ceilTol_le_floorTol_iff, count_reference hs hm hr.finite,
    (Spacing.innerFirst_moderate hs hp hr).2, (Spacing.innerLast_moderate hs hp hr).2, ne_eq,
    Except.ok.injEq]
  unfold fraction
  omega

/-- A sample that is within tolerance of the reference, as rounding decides it, is near. -/
theorem nearReference_of_count (hs : s.spacing.Accepted) (hm : s.spacing.margin = 0)
    (hr : s.spacing.Moderate r) (hne : s.count r r r ≠ .ok 0) : s.NearReference r := by
  have hpos := hs.pos
  have hp := inPhase hs hr.finite
  have ht := tiny_le
  obtain ⟨-, hexact, herr⟩ := Spacing.numberOf_moderate hs hp hr
  have hqle : max |toReal (s.fraction r)| 1 ≤ 2 ^ 40 + 2 :=
    max_le (Spacing.abs_numberOf_le hs hp hr) (by norm_num)
  obtain ⟨-, hnum⟩ := referenceNumber_moderate hs hr
  have hadm := (count_reference_ne_zero hs hm hr).mp hne
  have hhalf := abs_away_sub_le (toReal (s.fraction r))
  rw [← hnum, abs_sub_comm] at hhalf
  rw [← hnum] at hadm
  have hround := abs_rounded_sub_le (toReal (s.fraction r) - s.referenceNumber r)
  have htol := (tolerance_bounds (toReal (s.fraction r))).2
  have hdist : |toReal (s.fraction r) - s.referenceNumber r| ≤ 31 / 10000 := by
    have h := abs_sub_abs_le_abs_sub (toReal (s.fraction r) - s.referenceNumber r)
      (rounded (toReal (s.fraction r) - s.referenceNumber r))
    rw [abs_sub_comm _ (rounded _)] at h
    unfold ulp at *
    linarith
  have hn : |(s.referenceNumber r : ℝ) - s.spacing.exactNumber r (s.phase r)| ≤ 4 / 1000 := by
    have h := abs_sub_le (s.referenceNumber r : ℝ) (toReal (s.fraction r))
      (s.spacing.exactNumber r (s.phase r))
    rw [abs_sub_comm _ (toReal (s.fraction r))] at h
    unfold fraction at *
    linarith
  obtain ⟨-, hpos'⟩ := Spacing.position_of_near hs hp hr (by norm_num) hn
  refine hpos'.trans ?_
  linarith

/-- A sample of the lattice lies at the reference, up to a part of a step. -/
def Anchored (s : ResampledSpacing Float) (r : Float) : Prop :=
  ∃ n : ℤ, |toReal r - s.spacing.exactPosition n (s.phase r)| ≤ toReal s.spacing.stepsize / 1002

theorem count_of_anchored (hs : s.spacing.Accepted) (hm : s.spacing.margin = 0)
    (hr : s.spacing.Moderate r) (ha : s.Anchored r) : s.count r r r ≠ .ok 0 := by
  obtain ⟨n, hn⟩ := ha
  have hpos := hs.pos
  have hp := inPhase hs hr.finite
  have ht := tiny_le
  obtain ⟨-, hexact, herr⟩ := Spacing.numberOf_moderate hs hp hr
  have hdist : |s.spacing.exactNumber r (s.phase r) - n| ≤ 1 / 1002 := by
    have he : s.spacing.exactNumber r (s.phase r) - n =
        (toReal r - s.spacing.exactPosition n (s.phase r)) / toReal s.spacing.stepsize := by
      unfold Spacing.exactNumber Spacing.exactPosition
      field_simp
      ring
    rw [he, abs_div, abs_of_pos hpos, div_le_iff₀ hpos]
    linarith
  rw [count_reference_ne_zero hs hm hr]
  refine (abs_rounded_mono (abs_sub_away_le _ n)).trans ?_
  have hround := abs_rounded_sub_le (toReal (s.fraction r) - n)
  have htri := abs_sub_le (toReal (s.fraction r)) (s.spacing.exactNumber r (s.phase r)) n
  have hround' := abs_sub_abs_le_abs_sub (rounded (toReal (s.fraction r) - n))
    (toReal (s.fraction r) - n)
  have htol := (tolerance_bounds (toReal (s.fraction r))).1
  -- The rounding errors grow with the number, and so does the tolerance, eight times as fast.
  have hq := abs_sub_abs_le_abs_sub (s.spacing.exactNumber r (s.phase r)) (toReal (s.fraction r))
  rw [abs_sub_comm _ (toReal (s.fraction r))] at hq
  have hmax := le_max_left |toReal (s.fraction r)| 1
  have hnonneg := abs_nonneg (s.spacing.exactNumber r (s.phase r))
  unfold ulp at *
  unfold fraction at *
  linarith

/-- A phase that is not taken for zero puts a sample at the reference. -/
theorem anchored_of_phase (hs : s.spacing.Accepted) (hr : IsFinite r)
    (h0 : toReal (s.phase r) ≠ 0) : s.Anchored r := by
  have hpos := hs.pos
  obtain ⟨q, -, hkept⟩ := phase_near hr hs.finite hpos
  obtain ⟨hq, -⟩ := hkept fun hsnapped => h0 (toReal_phase_of_snapped hsnapped)
  refine ⟨q, hq.trans ?_⟩
  unfold ulp
  linarith

/-- A step that is longer than one, by enough, puts a sample at the reference in any case:
what is taken for zero is then a small enough part of a step. -/
theorem anchored_of_step (hs : s.spacing.Accepted) (hr : IsFinite r) (hsmall : |toReal r| ≤ 2 ^ 30)
    (hstep : 101 / 100 ≤ toReal s.spacing.stepsize) : s.Anchored r := by
  obtain ⟨q, hq, -⟩ := phase_near hr hs.finite hs.pos
  have hmax : max |toReal r| 1 ≤ 2 ^ 30 := max_le hsmall (by norm_num)
  refine ⟨q, hq.trans ?_⟩
  unfold ulp
  linarith

/-- When the windows around a reference have the sample at the reference.  It is lost if the
window from the reference to itself is empty.  For a reference of moderate size nothing else
can go wrong, and that window is not empty if a sample of the lattice lies at the reference.
Only a phase that is taken for zero can move all samples away from the reference, and not
where the step is longer than one by a hundredth. -/
theorem holdsReference_iff (hs : ofStepsize h = .ok s) (hr : IsFinite r) :
    ((∀ t b n, t ≤ r → r ≤ b → s.count r t b = .ok n → s.HoldsReference r t n) ↔
      s.count r r r ≠ .ok 0 ∧ s.NearReference r) ∧
    (s.spacing.Moderate r →
      (s.count r r r ≠ .ok 0 → s.NearReference r) ∧
      (s.Anchored r → s.count r r r ≠ .ok 0) ∧
      ∀ t b, s.spacing.Moderate t → s.spacing.Moderate b → ∃ n, s.count r t b = .ok n) ∧
    (toReal (s.phase r) ≠ 0 ∨ |toReal r| ≤ 2 ^ 30 ∧ 101 / 100 ≤ toReal s.spacing.stepsize →
      s.Anchored r) := by
  obtain ⟨heq, hacc⟩ := ofStepsize_eq_ok hs
  have hm : s.spacing.margin = 0 := by rw [heq]
  refine ⟨forall_holdsReference hacc hm hr, fun hmod => ⟨?_, ?_, ?_⟩, ?_⟩
  · exact nearReference_of_count hacc hm hmod
  · exact count_of_anchored hacc hm hmod
  · intro t b ht hb
    exact Spacing.exists_count hacc (inPhase hacc hr) (by omega) ht hb
  · rintro (h0 | ⟨hsmall, hstep⟩)
    · exact anchored_of_phase hacc hr h0
    · exact anchored_of_step hacc hr hsmall hstep

/-- Steps of two, around a depth of three. -/
theorem holdsReference_three : ∃ s, ofStepsize (Float.ofInt 2) = .ok s ∧ IsFinite (Float.ofInt 3) ∧
    ∀ t b n, t ≤ Float.ofInt 3 → Float.ofInt 3 ≤ b → s.count (Float.ofInt 3) t b = .ok n →
      s.HoldsReference (Float.ofInt 3) t n := by
  have hs : ofStepsize (Float.ofInt 2) = .ok ⟨⟨Float.ofInt 2, 0⟩⟩ := by rfl
  obtain ⟨hf₂, h₂⟩ := ofInt_finite (n := 2) (by norm_num)
  obtain ⟨hf₃, h₃⟩ := ofInt_finite (n := 3) (by norm_num)
  obtain ⟨hiff, hmoderate, hanchored⟩ := holdsReference_iff hs hf₃
  have hm : (⟨Float.ofInt 2, 0⟩ : Spacing Float).Moderate (Float.ofInt 3) := by
    refine ⟨hf₃, ?_, ?_⟩ <;> dsimp only <;> rw [h₂, h₃] <;> norm_num
  have ha := hanchored (Or.inr ⟨by rw [h₃]; norm_num, by dsimp only; rw [h₂]; norm_num⟩)
  obtain ⟨hnear, hcount, -⟩ := hmoderate hm
  exact ⟨_, hs, hf₃, hiff.mpr ⟨hcount ha, hnear (hcount ha)⟩⟩

/-- Steps of a half do not hold the sample at a depth of `0.4991`.  The remainder is within a
thousandth of the step, so the phase is zero, but the depth is farther than a thousandth of a
step from every multiple of the step. -/
theorem reference_lost : ¬ ∀ (h r t b : Float) (s : ResampledSpacing Float) (n : Nat),
    ofStepsize h = .ok s → IsFinite r → t ≤ r → r ≤ b → s.count r t b = .ok n →
      s.HoldsReference r t n := by
  intro hall
  obtain ⟨s, hs, hr, hle, hn⟩ : ∃ s, ofStepsize (Float.ofInt 1 / Float.ofInt 2) = .ok s ∧
      (Float.ofInt 4991 / Float.ofInt 10000).isFinite = true ∧
      Float.ofInt 4991 / Float.ofInt 10000 ≤ Float.ofInt 4991 / Float.ofInt 10000 ∧
      ∃ n, s.count (Float.ofInt 4991 / Float.ofInt 10000) (Float.ofInt 4991 / Float.ofInt 10000)
        (Float.ofInt 4991 / Float.ofInt 10000) = .ok n ∧ n = 0 := by
    decide +kernel
  obtain ⟨n, hn, rfl⟩ := hn
  obtain ⟨_, _, -, -, hlt, -⟩ := hall _ _ _ _ _ _ hs hr hle hle hn
  exact Nat.not_lt_zero _ hlt

end ResampledSpacing
end Seismic
