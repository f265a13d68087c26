import Seismic.Proofs.Phase
import Seismic.Proofs.Spacing

/-!
# Windows over 64-bit numbers

The first sample of a window is the tolerant ceiling of the fractional number of its top,
and the last one is the tolerant floor of that of its bottom.  Both keep the order of
positions, through subtraction of the phase, division by the step and clamping to 64 bits.
So a window whose boundaries do not cross is short of a sample by at most one, which a
margin makes up for.
-/

namespace Seismic

open Double

namespace Spacing

/-- A spacing whose step has been accepted. -/
structure Accepted (s : Spacing Float) : Prop where
  finite : IsFinite s.stepsize
  pos : 0 < toReal s.stepsize

theorem isStepsize_iff {h : Float} :
    Options.isStepsize h = true ↔ IsFinite h ∧ 0 < toReal h := by
  have hs : Options.isStepsize h = (h.isFinite && decide (Float.ofInt 0 < h)) := rfl
  rw [hs, Bool.and_eq_true, decide_eq_true_iff]
  constructor
  · rintro ⟨hf, h0⟩
    rw [lt_iff_toReal ofInt_zero.1 hf, ofInt_zero.2] at h0
    exact ⟨hf, h0⟩
  · rintro ⟨hf, h0⟩
    rw [lt_iff_toReal ofInt_zero.1 hf, ofInt_zero.2]
    exact ⟨hf, h0⟩

theorem ofStepsize_eq_ok {h : Float} {m : Nat} {s : Spacing Float} :
    Spacing.ofStepsize h m = .ok s ↔ s = ⟨h, m⟩ ∧ s.Accepted := by
  unfold Spacing.ofStepsize
  split_ifs with ha
  · constructor
    · intro he
      cases he
      obtain ⟨hf, h0⟩ := isStepsize_iff.mp ha
      exact ⟨rfl, hf, h0⟩
    · rintro ⟨rfl, -⟩
      rfl
  · constructor
    · intro he
      cases he
    · rintro ⟨rfl, hf, h0⟩
      exact absurd (isStepsize_iff.mpr ⟨hf, h0⟩) ha

/-- The number of a position on a lattice, with a fraction between samples. -/
def numberOf (s : Spacing Float) (x phase : Float) : Float := (x - phase) / s.stepsize

variable {s : Spacing Float} {x y phase : Float}

theorem numberOf_isNumber (hs : s.Accepted) (hp : IsFinite phase) (hx : IsNumber x) :
    IsNumber (s.numberOf x phase) :=
  (div_spec (sub_spec hx hp).1 hs.finite hs.pos.ne').1

theorem numberOf_mono (hs : s.Accepted) (hp : IsFinite phase) (h : x ≤ y) :
    s.numberOf x phase ≤ s.numberOf y phase :=
  Double.div_le_div_right (Double.sub_le_sub_right h hp) hs.finite hs.pos

/-! ## The ends of a window without its margin -/

/-- The number of the first sample between the boundaries. -/
def innerFirst (s : Spacing Float) (top phase : Float) : ℤ :=
  Scalar.toInt64 (Tolerance.ceil (s.numberOf top phase))

/-- The number of the last sample between the boundaries. -/
def innerLast (s : Spacing Float) (bottom phase : Float) : ℤ :=
  Scalar.toInt64 (Tolerance.floor (s.numberOf bottom phase))

theorem innerFirst_eq (hs : s.Accepted) (hp : IsFinite phase) (hx : IsNumber x) :
    s.innerFirst x phase =
      clampedBy ceilTol leastNumber greatestNumber (value (s.numberOf x phase)) :=
  clampedInt_tolerantCeil (numberOf_isNumber hs hp hx) _ _

theorem innerLast_eq (hs : s.Accepted) (hp : IsFinite phase) (hx : IsNumber x) :
    s.innerLast x phase =
      clampedBy floorTol leastNumber greatestNumber (value (s.numberOf x phase)) :=
  clampedInt_tolerantFloor (numberOf_isNumber hs hp hx) _ _

/-- Between boundaries that do not cross at most one sample is missing. -/
theorem innerFirst_le (hs : s.Accepted) (hp : IsFinite phase) (h : x ≤ y) :
    s.innerFirst x phase ≤ s.innerLast y phase + 1 := by
  obtain ⟨hx, hy, -⟩ := le_iff.mp h
  rw [innerFirst_eq hs hp hx, innerLast_eq hs hp hy]
  exact clampedBy_le (by norm_num) leastNumber_le (fun a b hab => ceilTol_le_floorTol_add_one hab)
    (le_iff.mp (numberOf_mono hs hp h)).2.2

/-! ## Windows with their margin -/

theorem firstNumber_eq_ok {top : Float} {n : ℤ} : s.firstNumber top phase = .ok n ↔
    leastNumber ≤ s.innerFirst top phase - s.margin ∧
      s.innerFirst top phase - s.margin ≤ greatestNumber ∧
      n = s.innerFirst top phase - s.margin := by
  have h := @sampleNumber_eq_ok Float (s.innerFirst top phase - s.margin) n
  unfold leastNumber greatestNumber
  rw [Int.le_sub_one_iff]
  exact h

theorem lastNumber_eq_ok {bottom : Float} {n : ℤ} : s.lastNumber bottom phase = .ok n ↔
    leastNumber ≤ s.innerLast bottom phase + s.margin ∧
      s.innerLast bottom phase + s.margin ≤ greatestNumber ∧
      n = s.innerLast bottom phase + s.margin := by
  have h := @sampleNumber_eq_ok Float (s.innerLast bottom phase + s.margin) n
  unfold leastNumber greatestNumber
  rw [Int.le_sub_one_iff]
  exact h

theorem margins_le_count {top bottom : Float} {n : Nat} (hs : s.Accepted) (hp : IsFinite phase)
    (h : top ≤ bottom) (hn : s.count top bottom phase = .ok n) : 2 * s.margin ≤ n := by
  obtain ⟨first, last, hf, hl, -, -, rfl⟩ := count_eq_ok.mp hn
  obtain ⟨-, -, rfl⟩ := firstNumber_eq_ok.mp hf
  obtain ⟨-, -, rfl⟩ := lastNumber_eq_ok.mp hl
  have := innerFirst_le hs hp h
  omega

end Spacing

namespace RawSpacing

theorem through_eq_ok {h x : Float} {s : RawSpacing Float} (hs : through h x = .ok s) :
    s.spacing = ⟨h, rawMargin⟩ ∧ s.spacing.Accepted ∧ s.phase = Tolerance.phase x h := by
  unfold through at hs
  obtain ⟨spacing, hsp, he⟩ := bind_eq_ok.mp hs
  obtain ⟨heq, hacc⟩ := Spacing.ofStepsize_eq_ok.mp hsp
  cases pure_eq_ok.mp he
  exact ⟨heq, hacc, rfl⟩

end RawSpacing
end Seismic
