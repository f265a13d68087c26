import Seismic.Proofs.Double.Tolerance

/-!
# Nearest and tolerant rounding

The nearest integer lies between the tolerant floor and the tolerant ceiling.  The tolerant
floor reaches the tolerant ceiling just where a number is within tolerance of the nearest
integer.
-/

namespace Seismic
namespace Double

theorem abs_rounded (x : ℝ) : |rounded x| = rounded |x| := by
  rcases le_or_gt 0 x with h | h
  · rw [abs_of_nonneg h, abs_of_nonneg (rounded_nonneg h)]
  · have hn := rounded_nonneg (neg_nonneg.mpr h.le)
    rw [rounded_neg] at hn
    rw [abs_of_neg h, rounded_neg, abs_of_nonpos (by linarith)]

theorem abs_rounded_mono {x y : ℝ} (h : |x| ≤ |y|) : |rounded x| ≤ |rounded y| := by
  rw [abs_rounded, abs_rounded]
  exact rounded_mono h

theorem abs_sub_away_le (x : ℝ) (n : ℤ) : |x - away x| ≤ |x - n| := by
  have h := abs_away_sub_le x
  rw [abs_sub_comm] at h
  rcases eq_or_ne n (away x) with rfl | hn
  · exact le_rfl
  · have h₁ : (1 : ℝ) ≤ |(n : ℝ) - away x| := by
      exact_mod_cast Int.one_le_abs (sub_ne_zero.mpr hn)
    have h₂ := abs_sub_le (n : ℝ) x (away x)
    rw [abs_sub_comm (n : ℝ) x] at h₂
    linarith

theorem away_mem (x : ℝ) : away x = ⌊x⌋ ∨ away x = ⌈x⌉ := by
  obtain ⟨h₁, h₂⟩ := abs_le.mp (abs_away_sub_le x)
  have hf := Int.floor_le x
  have hc := Int.le_ceil x
  have hfc := Int.ceil_le_floor_add_one x
  have h₃ : (⌊x⌋ : ℝ) < (away x + 1 : ℤ) := by
    push_cast
    linarith
  have h₄ : (away x : ℝ) < (⌈x⌉ + 1 : ℤ) := by
    push_cast
    linarith
  rw [Int.cast_lt] at h₃ h₄
  omega

/-- Where a number is within tolerance of the nearest integer, that integer is not left out
by tolerant rounding. -/
theorem away_between_of_admitted {x : ℝ} (h : |rounded (x - away x)| ≤ tolerance x) :
    ceilTol x ≤ away x ∧ away x ≤ floorTol x := by
  rcases away_mem x with hx | hx
  · rw [hx] at h ⊢
    refine ⟨?_, floor_le_floorTol x⟩
    rw [ceilTol, if_pos h]
  · rw [hx] at h ⊢
    refine ⟨ceilTol_le_ceil x, ?_⟩
    rw [floorTol, if_pos h]

theorem tolerant_eq_of_not_admitted {x : ℝ} (h : ¬ |rounded (x - away x)| ≤ tolerance x) :
    ceilTol x = ⌈x⌉ ∧ floorTol x = ⌊x⌋ := by
  have hf : ¬ |rounded (x - ⌊x⌋)| ≤ tolerance x := fun hle =>
    h ((abs_rounded_mono (abs_sub_away_le x ⌊x⌋)).trans hle)
  have hc : ¬ |rounded (x - ⌈x⌉)| ≤ tolerance x := fun hle =>
    h ((abs_rounded_mono (abs_sub_away_le x ⌈x⌉)).trans hle)
  exact ⟨if_neg hf, if_neg hc⟩

theorem ceilTol_le_floorTol_iff {x : ℝ} :
    ceilTol x ≤ floorTol x ↔ |rounded (x - away x)| ≤ tolerance x := by
  constructor
  · intro h
    by_contra hn
    obtain ⟨hc, hf⟩ := tolerant_eq_of_not_admitted hn
    rw [hc, hf] at h
    -- Only an integer has its ceiling at its floor, and an integer is admitted.
    have hx : x = ⌊x⌋ := le_antisymm ((Int.le_ceil x).trans (by exact_mod_cast h)) (Int.floor_le x)
    apply hn
    rw [hx, away_intCast, sub_self, rounded_zero, abs_zero]
    exact tolerance_nonneg _
  · intro h
    obtain ⟨h₁, h₂⟩ := away_between_of_admitted h
    exact h₁.trans h₂

/-- The nearest integer is never beyond both tolerant roundings. -/
theorem away_between (x : ℝ) : ceilTol x ≤ away x ∧ away x ≤ floorTol x ∨
    floorTol x ≤ away x ∧ away x ≤ ceilTol x := by
  by_cases h : |rounded (x - away x)| ≤ tolerance x
  · exact Or.inl (away_between_of_admitted h)
  · obtain ⟨hc, hf⟩ := tolerant_eq_of_not_admitted h
    rw [hc, hf]
    right
    have := Int.floor_le_ceil x
    rcases away_mem x with hx | hx <;> omega

/-- A clamped rule that keeps the order of finite numbers keeps that of all numbers. -/
theorem clampedBy_mono {g : ℝ → ℤ} {low high : ℤ} (hlow : low ≤ high)
    (hg : ∀ {x y : Float}, IsFinite x → IsFinite y → toReal x ≤ toReal y →
      g (toReal x) ≤ g (toReal y)) {x y : Float} (h : x ≤ y) :
    clampedBy g low high (value x) ≤ clampedBy g low high (value y) := by
  obtain ⟨hx, hy, hv⟩ := le_iff.mp h
  by_cases hxf : IsFinite x
  · by_cases hyf : IsFinite y
    · have := hg hxf hyf ((le_iff_toReal hxf hyf).mp h)
      rw [value_of_isFinite hxf, value_of_isFinite hyf, clampedBy_coe, clampedBy_coe]
      omega
    · have htop : value y = ⊤ := by
        rw [value_of_isFinite hxf] at hv
        by_contra ht
        exact hyf (isFinite_iff.mpr ⟨hy, ht, ne_bot_of_le_ne_bot (EReal.coe_ne_bot _) hv⟩)
      rw [htop, clampedBy_top]
      exact (clampedBy_mem g hlow _).2
  · by_cases hbot : value x = ⊥
    · rw [hbot, clampedBy_bot]
      exact (clampedBy_mem g hlow _).1
    · have htop : value x = ⊤ := by
        by_contra ht
        exact hxf (isFinite_iff.mpr ⟨hx, ht, hbot⟩)
      rw [htop, top_le_iff] at hv
      rw [htop, hv]

end Double
end Seismic
