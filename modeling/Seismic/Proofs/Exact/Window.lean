import Seismic.Proofs.Exact.Tolerance
import Seismic.Proofs.Spacing

/-!
# Windows in exact arithmetic

The number of the first sample of a window is less than one above that of its top, and the
number of the last sample less than one below that of its bottom.  Numbers are clamped to 64
bits.  If a window has a margin and can be counted, neither of its ends has been clamped,
since a clamped end would leave no room for the margin.
-/

namespace Seismic
namespace Exact

variable {K : Type} [Field K] [LinearOrder K] [FloorRing K]

theorem isStepsize_iff {h : Exact K} : Options.isStepsize h = true ↔ 0 < h.val := by
  have hs : Options.isStepsize h = (true && decide (0 < h)) := rfl
  rw [hs, Bool.true_and, decide_eq_true_iff, lt_iff, zero_val]

theorem ofStepsize_eq_ok {h : Exact K} {m : Nat} {s : Spacing (Exact K)} :
    Spacing.ofStepsize h m = .ok s ↔ s = ⟨h, m⟩ ∧ 0 < h.val := by
  unfold Spacing.ofStepsize
  rw [← isStepsize_iff]
  split_ifs with ha
  · exact ⟨fun he => ⟨(Except.ok.inj he).symm, ha⟩, fun he => congrArg Except.ok he.1.symm⟩
  · exact ⟨fun he => (nomatch he), fun he => absurd he.2 ha⟩

theorem through_eq_ok {h x : Exact K} {s : RawSpacing (Exact K)}
    (hs : RawSpacing.through h x = .ok s) :
    s.spacing = ⟨h, rawMargin⟩ ∧ 0 < h.val ∧ s.phase = Tolerance.phase x h := by
  unfold RawSpacing.through at hs
  obtain ⟨spacing, hsp, he⟩ := bind_eq_ok.mp hs
  obtain ⟨heq, hpos⟩ := ofStepsize_eq_ok.mp hsp
  cases pure_eq_ok.mp he
  exact ⟨heq, hpos, rfl⟩

theorem resampledOfStepsize_eq_ok {h : Exact K} {s : ResampledSpacing (Exact K)}
    (hs : ResampledSpacing.ofStepsize h = .ok s) : s.spacing = ⟨h, 0⟩ ∧ 0 < h.val := by
  unfold ResampledSpacing.ofStepsize at hs
  obtain ⟨spacing, hsp, he⟩ := bind_eq_ok.mp hs
  cases pure_eq_ok.mp he
  exact ofStepsize_eq_ok.mp hsp

/-- A sample number as it is after its conversion to 64 bits. -/
def clamped (n : ℤ) : ℤ := max Spacing.leastNumber (min Spacing.greatestNumber n)

theorem clamped_of_mem {n : ℤ} (h₁ : Spacing.leastNumber ≤ n) (h₂ : n ≤ Spacing.greatestNumber) :
    clamped n = n := by
  rw [clamped, min_eq_right h₂, max_eq_right h₁]

/-- The number of a position on a lattice, with a fraction between samples. -/
def numberOf (s : Spacing (Exact K)) (x phase : Exact K) : Exact K := (x - phase) / s.stepsize

variable {s : Spacing (Exact K)} {x top bottom phase : Exact K} {n : ℤ}

theorem numberOf_val : (numberOf s x phase).val = (x.val - phase.val) / s.stepsize.val := rfl

theorem position_val (n : ℤ) :
    (s.position n phase).val = n * s.stepsize.val + phase.val := rfl

variable [IsStrictOrderedRing K]

theorem toInt64_integer (n : ℤ) : Scalar.toInt64 (⟨n⟩ : Exact K) = clamped n :=
  clampedInt_of_integer rfl _ _

theorem firstNumber_eq_ok : s.firstNumber top phase = .ok n ↔
    Spacing.leastNumber ≤ clamped (ceilNumber (numberOf s top phase)) - s.margin ∧
      clamped (ceilNumber (numberOf s top phase)) - s.margin ≤ Spacing.greatestNumber ∧
      n = clamped (ceilNumber (numberOf s top phase)) - s.margin := by
  unfold Spacing.firstNumber Spacing.leastNumber Spacing.greatestNumber
  rw [show (top - phase) / s.stepsize = numberOf s top phase from rfl, ceil_eq, toInt64_integer,
    sampleNumber_eq_ok, Int.le_sub_one_iff]

theorem lastNumber_eq_ok : s.lastNumber bottom phase = .ok n ↔
    Spacing.leastNumber ≤ clamped (floorNumber (numberOf s bottom phase)) + s.margin ∧
      clamped (floorNumber (numberOf s bottom phase)) + s.margin ≤ Spacing.greatestNumber ∧
      n = clamped (floorNumber (numberOf s bottom phase)) + s.margin := by
  unfold Spacing.lastNumber Spacing.leastNumber Spacing.greatestNumber
  rw [show (bottom - phase) / s.stepsize = numberOf s bottom phase from rfl, floor_eq,
    toInt64_integer, sampleNumber_eq_ok, Int.le_sub_one_iff]

theorem numberOf_mono (phase : Exact K) (hs : 0 < s.stepsize.val) (h : top.val ≤ bottom.val) :
    (numberOf s top phase).val ≤ (numberOf s bottom phase).val := by
  rw [numberOf_val, numberOf_val]
  exact div_le_div_of_nonneg_right (sub_le_sub_right h _) hs.le

/-- On two lattices of one step, numbers differ by the same fraction everywhere. -/
theorem exists_shift {s' : Spacing (Exact K)} {phase' : Exact K} (hs : 0 < s.stepsize.val)
    (heq : s'.stepsize.val = s.stepsize.val) (hp : 0 ≤ phase.val ∧ phase.val < s.stepsize.val)
    (hp' : 0 ≤ phase'.val ∧ phase'.val < s.stepsize.val) :
    ∃ c : K, -1 < c ∧ c < 1 ∧
      ∀ x, (numberOf s' x phase').val = (numberOf s x phase).val + c := by
  refine ⟨(phase.val - phase'.val) / s.stepsize.val, ?_, ?_, fun x => ?_⟩
  · rw [lt_div_iff₀ hs]
    linarith
  · rw [div_lt_one hs]
    linarith
  · rw [numberOf_val, numberOf_val, heq, ← add_div]
    congr 1
    ring

/-! ## Positions of samples -/

theorem position_lt {c : K} (hs : 0 < s.stepsize.val) (h : (n : K) < (numberOf s x phase).val + c) :
    (s.position n phase).val < x.val + c * s.stepsize.val := by
  rw [numberOf_val] at h
  rw [position_val]
  have := mul_lt_mul_of_pos_right h hs
  rw [add_mul, div_mul_cancel₀ _ hs.ne'] at this
  linarith

theorem lt_position {c : K} (hs : 0 < s.stepsize.val) (h : (numberOf s x phase).val + c < n) :
    x.val + c * s.stepsize.val < (s.position n phase).val := by
  rw [numberOf_val] at h
  rw [position_val]
  have := mul_lt_mul_of_pos_right h hs
  rw [add_mul, div_mul_cancel₀ _ hs.ne'] at this
  linarith

/-! ## Windows with a margin -/

/-- A window with a margin has its samples where its boundaries say. -/
structure Counted (s : Spacing (Exact K)) (top bottom phase : Exact K) (n : Nat) : Prop where
  first : s.firstNumber top phase = .ok (ceilNumber (numberOf s top phase) - s.margin)
  last : s.lastNumber bottom phase = .ok (floorNumber (numberOf s bottom phase) + s.margin)
  least : Spacing.leastNumber ≤ ceilNumber (numberOf s top phase) - s.margin
  greatest : floorNumber (numberOf s bottom phase) + s.margin ≤ Spacing.greatestNumber
  size : (n : ℤ) = floorNumber (numberOf s bottom phase) + s.margin -
    (ceilNumber (numberOf s top phase) - s.margin) + 1

theorem counted_of_count {n : Nat} (hs : 0 < s.stepsize.val) (hm : 0 < s.margin)
    (h : top.val ≤ bottom.val) (hn : s.count top bottom phase = .ok n) :
    Counted s top bottom phase n := by
  obtain ⟨first, last, hf, hl, -, -, rfl⟩ := Spacing.count_eq_ok.mp hn
  obtain ⟨hf₁, hf₂, rfl⟩ := firstNumber_eq_ok.mp hf
  obtain ⟨hl₁, hl₂, rfl⟩ := lastNumber_eq_ok.mp hl
  have hle := ceilNumber_le (numberOf_mono phase hs h)
  have hbound := Spacing.leastNumber_le
  have hc : clamped (ceilNumber (numberOf s top phase)) = ceilNumber (numberOf s top phase) := by
    unfold clamped at *
    omega
  have hc' : clamped (floorNumber (numberOf s bottom phase)) =
      floorNumber (numberOf s bottom phase) := by
    unfold clamped at *
    omega
  rw [hc] at hf hf₁ hf₂
  rw [hc'] at hl hl₁ hl₂
  refine ⟨hf, hl, hf₁, hl₂, ?_⟩
  rw [hc, hc']
  omega

theorem Counted.margins_le {n : Nat} (h : Counted s top bottom phase n)
    (hs : 0 < s.stepsize.val) (hle : top.val ≤ bottom.val) : 2 * s.margin ≤ n := by
  have := ceilNumber_le (numberOf_mono phase hs hle)
  have := h.size
  omega

end Exact
end Seismic
