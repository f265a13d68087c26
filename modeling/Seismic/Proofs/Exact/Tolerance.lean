import Seismic.Proofs.Exact.Scalar
import Seismic.Tolerance

/-!
# Tolerant rounding in exact arithmetic

Tolerant rounding takes one of the two integers beside a number.
-/

namespace Seismic
namespace Exact

variable {K : Type} [Field K] [LinearOrder K] [FloorRing K]
variable {x y : Exact K}

/-- The distance at which a value at `x` counts as lying on a sample. -/
def allowance (x : Exact K) : K := (Tolerance.width + Tolerance.noise x).val

theorem admits_iff {d : Exact K} : Tolerance.admits d x = true ↔ d.val ≤ allowance x :=
  decide_eq_true_iff

/-- The tolerant ceiling. -/
def ceilNumber (x : Exact K) : ℤ :=
  if |x.val - ⌊x.val⌋| ≤ allowance x then ⌊x.val⌋ else ⌈x.val⌉

/-- The tolerant floor. -/
def floorNumber (x : Exact K) : ℤ :=
  if |x.val - ⌈x.val⌉| ≤ allowance x then ⌈x.val⌉ else ⌊x.val⌋

theorem ceil_eq (x : Exact K) : Tolerance.ceil x = ⟨ceilNumber x⟩ := by
  have h : Tolerance.admits (Scalar.abs (x - Scalar.floor x)) x = true ↔
      |x.val - ⌊x.val⌋| ≤ allowance x := admits_iff
  unfold Tolerance.ceil ceilNumber
  dsimp only
  split_ifs with h₁ h₂ h₂
  · rfl
  · exact absurd (h.mp h₁) h₂
  · exact absurd (h.mpr h₂) h₁
  · rfl

theorem floor_eq (x : Exact K) : Tolerance.floor x = ⟨floorNumber x⟩ := by
  have h : Tolerance.admits (Scalar.abs (x - Scalar.ceil x)) x = true ↔
      |x.val - ⌈x.val⌉| ≤ allowance x := admits_iff
  unfold Tolerance.floor floorNumber
  dsimp only
  split_ifs with h₁ h₂ h₂
  · rfl
  · exact absurd (h.mp h₁) h₂
  · exact absurd (h.mpr h₂) h₁
  · rfl

theorem width_val : (Tolerance.width : Exact K).val = 1 / 1000 := by
  rw [Tolerance.width, div_val, one_val, numeral_val]

theorem epsilon_val : (Tolerance.epsilon : Exact K).val = 1 / 4503599627370496 := by
  rw [Tolerance.epsilon, div_val, one_val, ofNat_val, Nat.cast_ofNat]

theorem noise_val : (Tolerance.noise x).val = max |x.val| 1 * (1 / 4503599627370496) * 8 := by
  rw [Tolerance.noise, mul_val, mul_val, max_val, abs_val, one_val, epsilon_val, numeral_val]

theorem allowance_eq : allowance x = 1 / 1000 + (Tolerance.noise x).val := by
  rw [allowance, add_val, width_val]

variable [IsStrictOrderedRing K]

theorem noise_nonneg : 0 ≤ (Tolerance.noise x).val := by
  rw [noise_val]
  positivity

theorem noise_le_allowance : (Tolerance.noise x).val ≤ allowance x := by
  rw [allowance_eq]
  exact le_add_of_nonneg_left (by norm_num)

/-! ## Between floor and ceiling -/

theorem floor_le_ceilNumber (x : Exact K) : ⌊x.val⌋ ≤ ceilNumber x := by
  unfold ceilNumber
  split_ifs
  · exact le_rfl
  · exact Int.floor_le_ceil x.val

theorem ceilNumber_le_ceil (x : Exact K) : ceilNumber x ≤ ⌈x.val⌉ := by
  unfold ceilNumber
  split_ifs
  · exact Int.floor_le_ceil x.val
  · exact le_rfl

theorem floor_le_floorNumber (x : Exact K) : ⌊x.val⌋ ≤ floorNumber x := by
  unfold floorNumber
  split_ifs
  · exact Int.floor_le_ceil x.val
  · exact le_rfl

theorem floorNumber_le_ceil (x : Exact K) : floorNumber x ≤ ⌈x.val⌉ := by
  unfold floorNumber
  split_ifs
  · exact le_rfl
  · exact Int.floor_le_ceil x.val

theorem ceilNumber_le (h : x.val ≤ y.val) : ceilNumber x ≤ floorNumber y + 1 :=
  calc ceilNumber x ≤ ⌈x.val⌉ := ceilNumber_le_ceil x
    _ ≤ ⌈y.val⌉ := Int.ceil_le_ceil h
    _ ≤ ⌊y.val⌋ + 1 := Int.ceil_le_floor_add_one y.val
    _ ≤ floorNumber y + 1 := Int.add_le_add_right (floor_le_floorNumber y) 1

theorem ceilNumber_lt (x : Exact K) : (ceilNumber x : K) < x.val + 1 :=
  (Int.cast_le.mpr (ceilNumber_le_ceil x)).trans_lt (Int.ceil_lt_add_one x.val)

theorem lt_floorNumber (x : Exact K) : x.val - 1 < (floorNumber x : K) :=
  (Int.sub_one_lt_floor x.val).trans_le (Int.cast_le.mpr (floor_le_floorNumber x))

end Exact
end Seismic
