import Seismic.Proofs.Double.Integers
import Seismic.Proofs.Double.Tolerance
import Seismic.Proofs.Exact.Tolerance

/-!
# Phases

The phase of a position on a lattice is the remainder from below, or zero where the remainder
is close to zero or to the step.  It never reaches the step: a remainder that was rounded up to
the step is at no distance from it.  Without rounding, the position is the phase and a multiple
of the step, or else the two differ by the allowance at most.  In binary arithmetic the
rounding of the remainder and that of the allowance come in addition.
-/

namespace Seismic

namespace Tolerance

variable {α : Type} [Scalar α] {x y : α}

/-- The remainder of `x` by `y` is close enough to zero or to `y` to count as zero. -/
def Snapped (x y : α) : Prop :=
  Scalar.remainderUp x y ≤ noise x ∨
    admits (Scalar.abs (Scalar.remainderUp x y - y)) x = true

instance (x y : α) : Decidable (Snapped x y) := inferInstanceAs (Decidable (_ ∨ _))

theorem phase_of_snapped (h : Snapped x y) : phase x y = 0 := if_pos h

theorem phase_of_not_snapped (h : ¬ Snapped x y) : phase x y = Scalar.remainderUp x y := if_neg h

end Tolerance

open Tolerance (Snapped phase_of_snapped phase_of_not_snapped)

/-! ## Binary arithmetic -/

namespace Double

variable {x y : Float}

/-- A remainder that was rounded up to the step counts as zero. -/
theorem snapped_of_eq (hx : IsFinite x) (hy : IsFinite y) (hr : IsFinite (Scalar.remainderUp x y))
    (h : toReal (Scalar.remainderUp x y) = toReal y) : Snapped x y := by
  have hd : toReal (Scalar.remainderUp x y) - toReal y = 0 := sub_eq_zero.mpr h
  obtain ⟨hf, hv⟩ := distance_finite hr hy (by
    rw [hd]
    exact le_greatest 0 (by norm_num) (by norm_num))
  refine Or.inr ((admits_iff hf hx).mpr ?_)
  rw [hv, hd, rounded_zero, abs_zero]
  exact tolerance_nonneg _

theorem toReal_phase_of_snapped (h : Snapped x y) : toReal (Tolerance.phase x y) = 0 := by
  rw [phase_of_snapped h]
  exact ofInt_zero.2

theorem phase_finite (hx : IsFinite x) (hy : IsFinite y) (hp : 0 < toReal y) :
    IsFinite (Tolerance.phase x y) ∧ 0 ≤ toReal (Tolerance.phase x y) ∧
      toReal (Tolerance.phase x y) < toReal y := by
  by_cases hs : Snapped x y
  · rw [toReal_phase_of_snapped hs, phase_of_snapped hs]
    exact ⟨ofInt_zero.1, le_rfl, hp⟩
  · obtain ⟨hr, h₀, h₁, -⟩ := remainderUp_finite hx hy hp
    rw [phase_of_not_snapped hs]
    exact ⟨hr, h₀, lt_of_le_of_ne h₁ fun h => hs (snapped_of_eq hx hy hr h)⟩

/-- A computed distance within tolerance is a distance within the allowance, up to rounding. -/
theorem distance_of_admitted {r : Float} (hx : IsFinite x) (hr : IsFinite r) (hy : IsFinite y)
    (hle : |toReal r - toReal y| ≤ greatest) (h : Tolerance.admits (r - y).abs x = true) :
    |toReal r - toReal y| ≤ (1 / 1000 + max |toReal x| 1 / 2 ^ 49) * (1 + 1 / 2 ^ 50) := by
  obtain ⟨hf, hv⟩ := distance_finite hr hy hle
  rw [admits_iff hf hx, hv] at h
  have htol := (tolerance_bounds (toReal x)).2
  have herr := abs_sub_error r y
  have htri := abs_sub_abs_le_abs_sub (toReal r - toReal y) (rounded (toReal r - toReal y))
  rw [abs_sub_comm _ (rounded _)] at htri
  have hm : 0 ≤ max |toReal x| 1 / 2 ^ 49 := by positivity
  unfold ulp at herr
  linarith

/-- A remainder that counts as zero is close to zero or to the step. -/
theorem remainder_of_snapped (hx : IsFinite x) (hy : IsFinite y) (hp : 0 < toReal y)
    (hs : Snapped x y) : ∃ j : ℤ, |toReal (Scalar.remainderUp x y) - j * toReal y| ≤
      (1 / 1000 + max |toReal x| 1 / 2 ^ 49) * (1 + 1 / 2 ^ 50) := by
  obtain ⟨hr, h₀, h₁, -⟩ := remainderUp_finite hx hy hp
  have hm : 0 ≤ max |toReal x| 1 / 2 ^ 49 := by positivity
  rcases hs with hnoise | hadm
  · obtain ⟨hnf, hnv⟩ := noise_finite hx
    rw [le_iff_toReal hr hnf, hnv, mul_two_zpow] at hnoise
    refine ⟨0, ?_⟩
    rw [Int.cast_zero, zero_mul, sub_zero, abs_of_nonneg h₀]
    linarith
  · refine ⟨1, ?_⟩
    rw [Int.cast_one, one_mul]
    refine distance_of_admitted hx hr hy ?_ hadm
    have hd : |toReal (Scalar.remainderUp x y) - toReal y| ≤ toReal y :=
      abs_le.mpr ⟨by linarith, by linarith⟩
    exact hd.trans ((le_abs_self _).trans (abs_toReal_le y))

/-- A position is a multiple of the step and the phase, up to the allowance and rounding.  A
remainder that is kept leaves the rounding of one sum only, and nothing at all for a position
that is not negative. -/
theorem phase_near (hx : IsFinite x) (hy : IsFinite y) (hp : 0 < toReal y) : ∃ q : ℤ,
    |toReal x - (q * toReal y + toReal (Tolerance.phase x y))| ≤
      (1 / 1000 + max |toReal x| 1 / 2 ^ 49) * (1 + 1 / 2 ^ 50) + toReal y * ulp ∧
    (¬ Snapped x y →
      |toReal x - (q * toReal y + toReal (Tolerance.phase x y))| ≤ toReal y * ulp ∧
      (0 ≤ toReal x → toReal x = q * toReal y + toReal (Tolerance.phase x y))) := by
  obtain ⟨-, -, -, k, hk, hexact⟩ := remainderUp_finite hx hy hp
  by_cases hs : Snapped x y
  · obtain ⟨j, hj⟩ := remainder_of_snapped hx hy hp hs
    -- The remainder leaves out `k` steps, and is itself near to none or to one more.
    refine ⟨k + j, ?_, fun h => absurd hs h⟩
    rw [toReal_phase_of_snapped hs, add_zero]
    calc |toReal x - (k + j : ℤ) * toReal y|
        = |(toReal x - k * toReal y - toReal (Scalar.remainderUp x y)) +
            (toReal (Scalar.remainderUp x y) - j * toReal y)| := by
          push_cast
          ring_nf
      _ ≤ |toReal x - k * toReal y - toReal (Scalar.remainderUp x y)| +
            |toReal (Scalar.remainderUp x y) - j * toReal y| := abs_add_le _ _
      _ ≤ _ := by linarith
  · rw [sub_sub] at hk
    rw [phase_of_not_snapped hs]
    refine ⟨k, hk.trans (le_add_of_nonneg_left ?_), fun _ => ⟨hk, hexact⟩⟩
    positivity

end Double

/-! ## Exact arithmetic -/

namespace Exact

variable {K : Type} [Field K] [LinearOrder K] [FloorRing K] [IsStrictOrderedRing K]
variable {x y : Exact K}

omit [IsStrictOrderedRing K] in
theorem allowance_val (x : Exact K) :
    allowance x = 1 / 1000 + max 1 |x.val| * 8 / 2 ^ 52 := by
  rw [allowance_eq, noise_val, max_comm]
  ring

omit [IsStrictOrderedRing K] in
theorem phase_val_of_snapped (h : Snapped x y) : (Tolerance.phase x y).val = 0 := by
  rw [phase_of_snapped h]
  exact zero_val

theorem remainder_of_snapped (hy : 0 < y.val) (hs : Snapped x y) :
    ∃ j : ℤ, |(Scalar.remainderUp x y).val - j * y.val| ≤ allowance x := by
  rcases hs with hnoise | hadm
  · obtain ⟨-, -, h0, -⟩ := remainderUp_val (x := x) hy
    refine ⟨0, ?_⟩
    rw [Int.cast_zero, zero_mul, sub_zero, abs_of_nonneg h0]
    exact (le_iff.mp hnoise).trans noise_le_allowance
  · refine ⟨1, ?_⟩
    rw [Int.cast_one, one_mul]
    exact admits_iff.mp hadm

/-- A position is a multiple of the step and the phase, up to the allowance, and exactly so if
the remainder is kept. -/
theorem phase_near (x : Exact K) (hy : 0 < y.val) : ∃ q : ℤ,
    |x.val - (q * y.val + (Tolerance.phase x y).val)| ≤ allowance x ∧
    (¬ Snapped x y → x.val = q * y.val + (Tolerance.phase x y).val) := by
  obtain ⟨k, hr, -, -⟩ := remainderUp_val (x := x) hy
  by_cases hs : Snapped x y
  · obtain ⟨j, hj⟩ := remainder_of_snapped hy hs
    refine ⟨k + j, ?_, fun h => absurd hs h⟩
    rw [phase_val_of_snapped hs, add_zero, Int.cast_add, add_mul, ← sub_sub, ← hr]
    exact hj
  · have hx : x.val = k * y.val + (Tolerance.phase x y).val := by
      rw [phase_of_not_snapped hs, hr, add_sub_cancel]
    refine ⟨k, ?_, fun _ => hx⟩
    rw [← hx, sub_self, abs_zero]
    exact noise_nonneg.trans noise_le_allowance

theorem phase_mem (x : Exact K) (hy : 0 < y.val) :
    0 ≤ (Tolerance.phase x y).val ∧ (Tolerance.phase x y).val < y.val := by
  by_cases hs : Snapped x y
  · rw [phase_val_of_snapped hs]
    exact ⟨le_rfl, hy⟩
  · obtain ⟨-, -, h0, hlt⟩ := remainderUp_val (x := x) hy
    rw [phase_of_not_snapped hs]
    exact ⟨h0, hlt⟩

end Exact

/-! ## Reduction by the step -/

open Double

variable {K : Type} [Field K] [LinearOrder K] [FloorRing K] [IsStrictOrderedRing K]

/-- A phase in binary arithmetic is never negative and never as large as the step.  In exact
arithmetic it is what is left of the position beside a multiple of the step, up to what counts
as zero. -/
theorem phase_reduces :
    (∀ x y : Float, IsFinite x → IsFinite y → 0 < y →
      0 ≤ Tolerance.phase x y ∧ Tolerance.phase x y < y) ∧
    ∀ x y : Exact K, 0 < y.val → ∃ q : ℤ,
      |x.val - (q * y.val + (Tolerance.phase x y).val)| ≤
        1 / 1000 + max 1 |x.val| * 8 / 2 ^ 52 ∧
      (¬ Snapped x y → x.val - (q * y.val + (Tolerance.phase x y).val) = 0) := by
  refine ⟨fun x y hx hy hp => ?_, fun x y hp => ?_⟩
  · have hzero := isInteger_zero
    rw [lt_iff_toReal hzero.finite hy, hzero.eq, Int.cast_zero] at hp
    obtain ⟨hf, h₀, h₁⟩ := phase_finite hx hy hp
    rw [le_iff_toReal hzero.finite hf, lt_iff_toReal hf hy, hzero.eq, Int.cast_zero]
    exact ⟨h₀, h₁⟩
  · obtain ⟨q, hnear, hkept⟩ := Exact.phase_near x hp
    rw [Exact.allowance_val] at hnear
    exact ⟨q, hnear, fun h => sub_eq_zero.mpr (hkept h)⟩

/-- Just below zero the remainder by one is rounded up to one, and the phase is zero.  In exact
arithmetic that remainder counts as zero as well, and the remainder of five by two does not. -/
theorem phase_reduces_of_tiny :
    (∃ x : Float, IsFinite x ∧ x < 0 ∧ (Scalar.remainderUp x 1 == (1 : Float)) = true ∧
      0 ≤ Tolerance.phase x 1 ∧ Tolerance.phase x 1 < 1) ∧
    (∃ q : ℤ, |(-1 / 2 ^ 60 : ℚ) - (q * 1 + (Tolerance.phase ⟨-1 / 2 ^ 60⟩ ⟨1⟩ : Exact ℚ).val)| ≤
      1 / 1000 + max 1 |(-1 / 2 ^ 60 : ℚ)| * 8 / 2 ^ 52) ∧
    ∃ q : ℤ, (5 : ℚ) - (q * 2 + (Tolerance.phase ⟨5⟩ ⟨2⟩ : Exact ℚ).val) = 0 := by
  obtain ⟨hbinary, hexact⟩ := phase_reduces (K := ℚ)
  refine ⟨⟨Float.ofInt (-1) / Float.ofInt 1152921504606846976, ?_⟩, ?_, ?_⟩
  · have hx : (Float.ofInt (-1) / Float.ofInt 1152921504606846976).isFinite = true := by
      decide +kernel
    have hone : (1 : Float).isFinite = true := by decide +kernel
    exact ⟨hx, by decide +kernel, by decide +kernel, hbinary _ 1 hx hone (by decide +kernel)⟩
  · obtain ⟨q, hnear, -⟩ := hexact ⟨-1 / 2 ^ 60⟩ ⟨1⟩ (by decide +kernel)
    exact ⟨q, hnear⟩
  · obtain ⟨q, -, hkept⟩ := hexact ⟨5⟩ ⟨2⟩ (by decide +kernel)
    exact ⟨q, hkept (by decide +kernel)⟩

end Seismic
