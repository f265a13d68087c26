import Seismic.Proofs.Double.Integers
import Seismic.Proofs.Double.Tolerance

/-!
# Rounding to the integers beside a number

A rounding takes each finite number to its floor or beyond and to its ceiling at most.  It
ends at an integer, keeps the integers and keeps the order.  The tolerant ceiling and the
tolerant floor are roundings, and one is the other seen in a mirror.
-/

namespace Seismic
namespace Double

/-! ## Integers -/

/-- An integral value is kept by a rule as it is, a zero with its sign. -/
theorem roundBy_of_integer {f : ℤ → ℤ → ℤ} {g : ℝ → ℤ} (hr : IsRule f g) {x : Float} {n : ℤ}
    (hx : IsInteger x n) : roundBy f x = x := by
  obtain ⟨hf, hv⟩ := roundBy_finite hr hx.finite
  rw [hx.eq, hr.integer, ← hx.eq] at hv
  rcases hx.finite.unpack_eq with ⟨s, hu, -⟩ | ⟨s, m, e, hm, -, -, hreal⟩
  · unfold roundBy
    rw [hu]
  · have h0 : toReal x ≠ 0 := by
      rw [← abs_pos, hreal, Binary.real_finite,
        Binary.abs_signum_mul s (Binary.magnitude_pos e hm).le]
      exact Binary.magnitude_pos e hm
    exact eq_of_toReal hf hx.finite (hv ▸ h0) hv

theorem tolerantCeil_of_integer {x : Float} {n : ℤ} (hx : IsInteger x n) :
    Tolerance.ceil x = x :=
  tolerantCeil_of_fixed (roundBy_of_integer isRule_floor hx) (roundBy_of_integer isRule_ceil hx)

theorem tolerantFloor_of_integer {x : Float} {n : ℤ} (hx : IsInteger x n) :
    Tolerance.floor x = x :=
  tolerantFloor_of_fixed (roundBy_of_integer isRule_floor hx) (roundBy_of_integer isRule_ceil hx)

/-! ## Roundings -/

/-- The function rounds finite numbers to integers. -/
structure IsRounding (F : Float → Float) : Prop where
  /-- The result lies between the two integers beside the number. -/
  between {x : Float} : IsFinite x → floor x ≤ F x ∧ F x ≤ ceil x
  isInteger {x : Float} : IsFinite x → ∃ n : ℤ, IsInteger (F x) n
  eq_self {x : Float} {n : ℤ} : IsInteger x n → F x = x
  mono {x y : Float} : IsFinite x → IsFinite y → x ≤ y → F x ≤ F y

/-- A function that follows a rule on real numbers rounds as that rule does. -/
theorem isRounding_of_rule {F : Float → Float} {g : ℝ → ℤ}
    (hF : ∀ {x}, IsFinite x → IsFinite (F x) ∧ toReal (F x) = g (toReal x))
    (hlow : ∀ x, ⌊x⌋ ≤ g x) (hhigh : ∀ x, g x ≤ ⌈x⌉)
    (hself : ∀ {x : Float} {n : ℤ}, IsInteger x n → F x = x)
    (hmono : ∀ {x y}, IsFinite x → IsFinite y → toReal x ≤ toReal y →
      g (toReal x) ≤ g (toReal y)) : IsRounding F where
  between {x} hx := by
    obtain ⟨hf, hv⟩ := hF hx
    obtain ⟨hl, hlv⟩ := floor_finite hx
    obtain ⟨hc, hcv⟩ := ceil_finite hx
    rw [le_iff_toReal hl hf, le_iff_toReal hf hc, hlv, hv, hcv, Int.cast_le, Int.cast_le]
    exact ⟨hlow _, hhigh _⟩
  isInteger {x} hx := by
    obtain ⟨hf, hv⟩ := hF hx
    exact ⟨g (toReal x), hf, hv⟩
  eq_self := hself
  mono {x y} hx hy h := by
    obtain ⟨hfx, hvx⟩ := hF hx
    obtain ⟨hfy, hvy⟩ := hF hy
    rw [le_iff_toReal hfx hfy, hvx, hvy, Int.cast_le]
    exact hmono hx hy ((le_iff_toReal hx hy).mp h)

theorem isRounding_tolerantCeil : IsRounding Tolerance.ceil :=
  isRounding_of_rule tolerantCeil_finite floor_le_ceilTol ceilTol_le_ceil tolerantCeil_of_integer
    fun _ _ => ceilTol_mono

theorem isRounding_tolerantFloor : IsRounding Tolerance.floor :=
  isRounding_of_rule tolerantFloor_finite floor_le_floorTol floorTol_le_ceil
    tolerantFloor_of_integer floorTol_mono

/-! ## The mirror -/

/-- The mirror image of a tolerant floor is the tolerant ceiling of the mirror image. -/
theorem tolerantCeil_neg {x : Float} (hx : IsFinite x) :
    (Tolerance.ceil (-x) == -Tolerance.floor x) = true := by
  obtain ⟨hn, hnv⟩ := neg_finite hx
  obtain ⟨hc, hcv⟩ := tolerantCeil_finite hn
  obtain ⟨hf, hfv⟩ := tolerantFloor_finite hx
  obtain ⟨hm, hmv⟩ := neg_finite hf
  have hmirror := floorTol_neg (-toReal x)
  rw [neg_neg] at hmirror
  refine Same.beq ⟨hc, ?_⟩ hm
  rw [hcv, hmv, hnv, hfv, hmirror, Int.cast_neg, neg_neg]

/-- Both ways of tolerant rounding lead to an integer between floor and ceiling, keep integers
and the order, and are mirror images of each other. -/
theorem tolerant_roundings : IsRounding Tolerance.ceil ∧ IsRounding Tolerance.floor ∧
    ∀ x : Float, IsFinite x → (Tolerance.ceil (-x) == -Tolerance.floor x) = true :=
  ⟨isRounding_tolerantCeil, isRounding_tolerantFloor, fun _ hx => tolerantCeil_neg hx⟩

/-- Two thousandths below five are rounded down, and one thousandth below five is five. -/
theorem tolerant_roundings_of_five : ∃ x y : Float, IsFinite x ∧ IsFinite y ∧ x ≤ y ∧
    (Tolerance.floor x == (4 : Float)) = true ∧ (Tolerance.floor y == (5 : Float)) = true ∧
    Tolerance.floor x ≤ Tolerance.floor y ∧ Tolerance.ceil x ≤ Tolerance.ceil y ∧
    (floor y ≤ Tolerance.floor y ∧ Tolerance.floor y ≤ ceil y) ∧
    Tolerance.ceil (Float.ofInt 5) = Float.ofInt 5 ∧
    (Tolerance.ceil (-y) == -Tolerance.floor y) = true := by
  obtain ⟨hceil, hfloor, hmirror⟩ := tolerant_roundings
  have hx : (Float.ofInt 4998 / Float.ofInt 1000).isFinite = true := by decide +kernel
  have hy : (Float.ofInt 4999 / Float.ofInt 1000).isFinite = true := by decide +kernel
  have hle : Float.ofInt 4998 / Float.ofInt 1000 ≤ Float.ofInt 4999 / Float.ofInt 1000 := by
    decide +kernel
  exact ⟨_, _, hx, hy, hle, by decide +kernel, by decide +kernel, hfloor.mono hx hy hle,
    hceil.mono hx hy hle, hfloor.between hy, hceil.eq_self (isInteger_ofInt (by norm_num)),
    hmirror _ hy⟩

end Double
end Seismic
