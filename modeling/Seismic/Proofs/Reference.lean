import Seismic.Proofs.Window

/-!
# The sample at the reference

The number of the sample at the reference is found by rounding to the nearest integer.  The
ends of a window around the reference are found by tolerant rounding.  The two rules are off
by one at most, so the index of the sample at the reference is always a number of samples,
even where it is past the end of the window.
-/

namespace Seismic

open Double

namespace Spacing

variable {s : Spacing Float} {x y phase : Float}

def nearestNumber (s : Spacing Float) (x phase : Float) : ℤ :=
  Scalar.toInt64 (Scalar.nearest (s.numberOf x phase))

theorem nearestNumber_eq (hs : s.Accepted) (hp : IsFinite phase) (hx : IsNumber x) :
    s.nearestNumber x phase =
      clampedBy away leastNumber greatestNumber (value (s.numberOf x phase)) :=
  clampedInt_roundBy isRule_away (numberOf_isNumber hs hp hx) _ _

theorem ceilTol_le_away_add_one {a b : ℝ} (h : a ≤ b) : ceilTol a ≤ away b + 1 := by
  have h₁ := ceilTol_le_ceil a
  have h₂ := Int.ceil_lt_add_one a
  have h₃ := (abs_le.mp (abs_away_sub_le b)).1
  have h₄ : ⌈a⌉ < away b + 2 := by
    have : (⌈a⌉ : ℝ) < away b + 2 := by linarith
    exact_mod_cast this
  omega

theorem away_le_floorTol_add_one {a b : ℝ} (h : a ≤ b) : away a ≤ floorTol b + 1 := by
  have h₁ := floor_le_floorTol b
  have h₂ := Int.lt_floor_add_one b
  have h₃ := (abs_le.mp (abs_away_sub_le a)).2
  have h₄ : away a < ⌊b⌋ + 2 := by
    have : (away a : ℝ) < ⌊b⌋ + 2 := by linarith
    exact_mod_cast this
  omega

theorem innerFirst_le_nearestNumber (hs : s.Accepted) (hp : IsFinite phase) (h : x ≤ y) :
    s.innerFirst x phase ≤ s.nearestNumber y phase + 1 := by
  obtain ⟨hx, hy, -⟩ := le_iff.mp h
  rw [innerFirst_eq hs hp hx, nearestNumber_eq hs hp hy]
  exact clampedBy_le (by norm_num) leastNumber_le (fun _ _ => ceilTol_le_away_add_one)
    (le_iff.mp (numberOf_mono hs hp h)).2.2

theorem nearestNumber_le_innerLast (hs : s.Accepted) (hp : IsFinite phase) (h : x ≤ y) :
    s.nearestNumber x phase ≤ s.innerLast y phase + 1 := by
  obtain ⟨hx, hy, -⟩ := le_iff.mp h
  rw [nearestNumber_eq hs hp hx, innerLast_eq hs hp hy]
  exact clampedBy_le (by norm_num) leastNumber_le (fun _ _ => away_le_floorTol_add_one)
    (le_iff.mp (numberOf_mono hs hp h)).2.2

end Spacing

namespace ResampledSpacing

variable {s : ResampledSpacing Float} {reference top bottom h : Float} {n k : Nat}

theorem ofStepsize_eq_ok (hs : ofStepsize h = .ok s) :
    s.spacing = ⟨h, 0⟩ ∧ s.spacing.Accepted := by
  unfold ofStepsize at hs
  obtain ⟨spacing, hsp, he⟩ := bind_eq_ok.mp hs
  cases pure_eq_ok.mp he
  obtain ⟨heq, hacc⟩ := Spacing.ofStepsize_eq_ok.mp hsp
  exact ⟨heq, hacc⟩

theorem phase_finite (hs : s.spacing.Accepted) (hr : IsFinite reference) :
    IsFinite (s.phase reference) :=
  (Double.phase_finite hr hs.finite hs.pos).1

/-- Wherever a window can be counted, so can its samples above the reference. -/
theorem exists_countAbove (hs : s.spacing.Accepted) (hm : s.spacing.margin = 0)
    (hr : IsFinite reference) (htop : top ≤ reference) (hbottom : reference ≤ bottom)
    (hn : s.count reference top bottom = .ok n) : ∃ k, s.countAbove reference top = .ok k := by
  have hp := phase_finite hs hr
  obtain ⟨first, last, hf, hl, -, hsize, -⟩ := Spacing.count_eq_ok.mp hn
  refine ⟨_, countAbove_eq_ok.mpr ⟨first, hf, ?_, ?_, rfl⟩⟩
  · obtain ⟨-, -, rfl⟩ := Spacing.firstNumber_eq_ok.mp hf
    have hx := Spacing.innerFirst_le_nearestNumber hs hp htop
    have hleast : Spacing.leastNumber ≤ -1 := by decide
    have hnum : s.referenceNumber reference =
      s.spacing.nearestNumber reference (s.phase reference) := rfl
    omega
  · obtain ⟨-, -, rfl⟩ := Spacing.lastNumber_eq_ok.mp hl
    have hy := Spacing.nearestNumber_le_innerLast hs hp hbottom
    have hnum : s.referenceNumber reference =
      s.spacing.nearestNumber reference (s.phase reference) := rfl
    omega

end ResampledSpacing
end Seismic
