import Seismic.Proofs.Double.Arithmetic

/-!
# Square roots

The root of a mantissa is cut off to an integer, and the rest tells on which side of a half the
exact root lies: it is below the half as long as the rest is not greater than the root.  The
mantissa is shifted before, so that the integer has digits enough to be rounded.
-/

namespace Seismic
namespace Binary

open Float.Model
open Float.Model.UnpackedFloat

variable {spec : Format}

/-! ## The rest of an integer root -/

/-- The accuracy that the rest of an integer root stands for. -/
def accuracyOfRest (n : Nat) : Accuracy :=
  if n - n.sqrt * n.sqrt = 0 then .exact
  else .inexact (if n - n.sqrt * n.sqrt ≤ n.sqrt then .lt else .gt)

theorem locates_root (n : Nat) :
    Locates (.ofMantissaAndAccuracy n.sqrt (accuracyOfRest n)) (√(n : ℝ)) := by
  have hle : n.sqrt * n.sqrt ≤ n := Nat.sqrt_le n
  have hlt : n ≤ n.sqrt * n.sqrt + n.sqrt + n.sqrt := Nat.sqrt_le_add n
  have hroot : (0 : ℝ) ≤ n.sqrt := Nat.cast_nonneg _
  obtain ⟨rest, hrest⟩ := Nat.exists_eq_add_of_le hle
  have hn : (n : ℝ) = n.sqrt * n.sqrt + rest := by exact_mod_cast hrest
  have hsub : n - n.sqrt * n.sqrt = rest := by omega
  unfold accuracyOfRest
  rw [hsub]
  by_cases h0 : rest = 0
  · rw [if_pos h0]
    show √(n : ℝ) = n.sqrt
    rw [hn, h0, Nat.cast_zero, add_zero, Real.sqrt_mul_self hroot]
  · have hpos : (1 : ℝ) ≤ rest := by exact_mod_cast Nat.pos_of_ne_zero h0
    rw [if_neg h0]
    by_cases hlow : rest ≤ n.sqrt
    · have hlow' : (rest : ℝ) ≤ n.sqrt := by exact_mod_cast hlow
      rw [if_pos hlow]
      show (n.sqrt : ℝ) < √(n : ℝ) ∧ √(n : ℝ) < n.sqrt + 1 / 2
      rw [Real.lt_sqrt hroot, Real.sqrt_lt' (by linarith), hn]
      constructor <;> nlinarith
    · have hhigh : (n.sqrt : ℝ) + 1 ≤ rest := by exact_mod_cast Nat.lt_of_not_le hlow
      have hhigh' : (rest : ℝ) ≤ n.sqrt + n.sqrt := by
        exact_mod_cast (by omega : rest ≤ n.sqrt + n.sqrt)
      rw [if_neg hlow]
      show (n.sqrt : ℝ) + 1 / 2 < √(n : ℝ) ∧ √(n : ℝ) < n.sqrt + 1
      rw [Real.lt_sqrt (by linarith), Real.sqrt_lt' (by linarith), hn]
      constructor <;> nlinarith

/-! ## The exponent of a root -/

theorem log_sqrt_ge {x : ℝ} (hx : 0 < x) : Int.log 2 x / 2 ≤ Int.log 2 √x := by
  have hlog : ((2 : ℕ) : ℝ) ^ Int.log 2 x ≤ x := Int.zpow_log_le_self (by norm_num) hx
  rw [← Int.zpow_le_iff_le_log (by norm_num) (Real.sqrt_pos.mpr hx)]
  apply Real.le_sqrt_of_sq_le
  calc (((2 : ℕ) : ℝ) ^ (Int.log 2 x / 2)) ^ 2 = ((2 : ℕ) : ℝ) ^ (Int.log 2 x / 2 * 2) := by
        rw [zpow_mul]
        rfl
    _ ≤ ((2 : ℕ) : ℝ) ^ Int.log 2 x := zpow_le_zpow_right₀ (by norm_num) (by omega)
    _ ≤ x := hlog

theorem sqrtCore_eq (spec : Format) (m : Nat) (e : ℤ) : ∃ (low : ℤ) (k : Nat), e - 2 * low = k ∧
    low ≤ spec.targetExponent ((totalExponent m e + 1) / 2) ∧
    sqrtCore spec m e = ((m <<< k).sqrt, low, accuracyOfRest (m <<< k)) := by
  obtain ⟨low, hlow⟩ : ∃ low, low = min (e / 2)
    (spec.targetExponent ((totalExponent m e + 1) / 2)) := ⟨_, rfl⟩
  have hhalf : low ≤ e / 2 := hlow ▸ min_le_left _ _
  obtain ⟨k, hk⟩ : ∃ k : ℕ, e - 2 * low = k := Int.eq_ofNat_of_zero_le (by omega)
  refine ⟨low, k, hk, hlow ▸ min_le_right _ _, ?_⟩
  have hcore : sqrtCore spec m e = ((m <<< (e - 2 * low).toNat).sqrt, low,
      accuracyOfRest (m <<< (e - 2 * low).toNat)) := by
    rw [hlow]
    rfl
  rw [hcore, hk, Int.toNat_natCast]

/-! ## Rounded roots -/

theorem sqrt_yields (hs : 1 < spec.exponentBits) {m : Nat} {e : ℤ} (h : 0 < m) :
    Yields spec (UnpackedFloat.sqrt spec (.finite .positive m e h)) (√(m * (2 : ℝ) ^ e) : ℝ) := by
  have hx := magnitude_pos e h
  obtain ⟨low, k, hk, hlow, hcore⟩ := sqrtCore_eq spec m e
  have hscaled : √((m <<< k : ℕ) : ℝ) * (2 : ℝ) ^ low = √(m * (2 : ℝ) ^ e) := by
    have hshift := shiftLeft_mul_zpow m k e
    rw [show e - k = low * 2 by omega, zpow_mul] at hshift
    rw [← hshift, Real.sqrt_mul (Nat.cast_nonneg _)]
    exact congrArg _ (Real.sqrt_sq (zpow_pos (by norm_num) low).le).symm
  have hpos : 0 < √((m <<< k : ℕ) : ℝ) := by
    have hroot := Real.sqrt_pos.mpr hx
    rw [← hscaled] at hroot
    exact pos_of_mul_pos_left hroot (zpow_pos (by norm_num) low).le
  have hg : low ≤ grain spec (√((m <<< k : ℕ) : ℝ) * (2 : ℝ) ^ low) := by
    have hlog := log_sqrt_ge hx
    rw [log_eq e h.ne' le_rfl (lt_add_one _)] at hlog
    rw [hscaled, grain_eq, abs_of_pos (Real.sqrt_pos.mpr hx)]
    unfold Format.targetExponent totalExponent at hlow
    omega
  have hr := (roundWithAccuracy_isRounded .positive (locates_root (m <<< k)) hpos hg).yields hs
  rw [hscaled, signum, one_mul] at hr
  show Yields spec (roundWithAccuracy spec .positive (sqrtCore spec m e).1
    (sqrtCore spec m e).2.1 (sqrtCore spec m e).2.2) _
  rw [hcore]
  exact hr

end Binary

namespace Double

open Float.Model

/-- The root of a number that is not negative is the number nearest to the exact root. -/
theorem sqrt_spec {x : Float} (hx : IsFinite x) (h0 : 0 ≤ toReal x) :
    IsNumber x.sqrt ∧ value x.sqrt = round (√(toReal x) : ℝ) := by
  have hy : Binary.Yields Format.binary64
      (UnpackedFloat.sqrt Format.binary64 x.toModel.unpack) (√(toReal x) : ℝ) := by
    rcases hx.unpack_eq with ⟨s, hu, hv⟩ | ⟨s, m, e, h, hu, -, hv⟩
    · rw [hu, hv, Real.sqrt_zero]
      exact Binary.yields_zero s
    · rw [hv, Binary.real_finite] at h0
      have hp := Binary.magnitude_pos e h
      cases s with
      | positive =>
        rw [hu, hv, Binary.real_finite, Binary.signum, one_mul]
        exact Binary.sqrt_yields one_lt_exponentBits h
      | negative =>
        rw [Binary.signum] at h0
        exact absurd h0 (by linarith)
  exact ⟨hy.isNumber, hy.value_eq⟩

end Double
end Seismic
